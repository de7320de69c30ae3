import BinaryQuadratic.SampleSet.Combine
import BinaryQuadratic.SampleSet.Json
import BinaryQuadratic.Sampler.Basic
import BinaryQuadratic.Size

namespace BinaryQuadratic

/-- How many samples to keep, which, and whether equal samples are merged before. -/
structure TruncateConfig where
  size : PositiveSize
  sortedBy : SortBy
  aggregate : Bool
  deriving DecidableEq

namespace TruncateConfig

def new (size : PositiveSize) : TruncateConfig :=
  ⟨size, default, false⟩

inductive BuildError where
  | missingSize
  deriving DecidableEq, Repr

def BuildError.message : BuildError → String
  | missingSize => "`n` must be initialized"

/-- A configuration from the parts that are given. -/
def build (size : Option PositiveSize) (sortedBy : Option SortBy) (aggregate : Option Bool) :
    Except BuildError TruncateConfig :=
  match size with
  | none => .error .missingSize
  | some size => .ok ⟨size, sortedBy.getD default, aggregate.getD false⟩

def fieldNames : List String :=
  ["n", "sorted_by", "aggregate"]

def toJson (c : TruncateConfig) : Json :=
  .obj (fieldNames.zip [c.size.toJson, c.sortedBy.toJson, .bool c.aggregate])

def ofJson? (j : Json) : Option TruncateConfig := do
  match ← j.parts? fieldNames with
  | [size, sortedBy, aggregate] =>
    return ⟨← PositiveSize.ofJson? size, ← SortBy.ofJson? sortedBy, ← aggregate.bool?⟩
  | _ => none

def apply [Coefficient R] (c : TruncateConfig) (s : SampleSet V R) : SampleSet V R :=
  let s := if c.aggregate then s.aggregate else s
  s.truncate c.size.toNat c.sortedBy

end TruncateConfig

/-- Keeps some of the samples of its child. -/
def Composite.truncate [Coefficient R] (child : Sampler σ V R) (config : TruncateConfig) :
    Composite σ V R where
  properties := propertiesOver child
  parameters := child.parameters
  sample m params := return config.apply (← child.sample m params)
  children := [child]

end BinaryQuadratic
