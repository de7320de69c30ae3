import BinaryQuadratic.Model.Transform
import BinaryQuadratic.SampleSet.Combine
import BinaryQuadratic.Sampler.Basic
import BinaryQuadratic.Size

namespace BinaryQuadratic

namespace SpinReversal

def transformsName : String :=
  "num_spin_reversal_transforms"

def seedName : String :=
  "seed"

def defaultTransforms : PositiveSize :=
  ⟨2, by decide⟩

variable {σ V R : Type} [DecidableEq V] [Coefficient R]

def parametersOver (child : Sampler σ V R) : Parameters :=
  (child.parameters.insert transformsName []).insert seedName []

/-- The elements that stand where a bit is set. -/
def chosen (vs : List α) (bits : List Bool) : List α :=
  (vs.zip bits).filterMap (fun (v, b) => if b then some v else none)

/-- Samples a model with some variables flipped, and flips the samples back. -/
def transform (child : Sampler σ V R) (m : Model V R) (params : Params) (flips : List V) :
    SampleM σ V (SampleSet V R) := do
  let transformed ← SampleM.ofModel (flips.foldlM Model.flipVariable m)
  let set ← child.sample transformed params
  SampleM.ofModel (set.flipVariables flips)

/-- Transforms in a row, each with one bit for each variable. The first failure ends them. -/
def transforms (child : Sampler σ V R) (m : Model V R) (params : Params) :
    Nat → BitSource → SampleM σ V (List (SampleSet V R))
  | 0, _ => return []
  | n + 1, source => do
    let (bits, source) := source.draw m.numVariables
    let set ← transform child m params (chosen m.labels bits)
    let sets ← transforms child m params n source
    return set :: sets

/-- The number of transforms asked for. -/
def transformCount (given : Option UInt64) : Except ParamError PositiveSize :=
  match given with
  | none => .ok defaultTransforms
  | some n =>
    (PositiveSize.ofUInt64 n).mapError
      (fun _ => ⟨transformsName, .positiveInteger, Value.ofUInt64 n⟩)

/-- The number of transforms is looked at before the seed. -/
def sample (child : Sampler σ V R) (m : Model V R) (params : Params) :
    SampleM σ V (SampleSet V R) := do
  let params ← SampleM.logged (params.retainKnown (parametersOver child))
  let (given, params) := params.takeSize transformsName
  let count ← SampleM.ofParam (given.bind transformCount)
  let (seed, params) := params.takeUInt64 seedName
  let source ← SampleM.bits (← SampleM.ofParam seed)
  let sets ← transforms child (m.changeVartype .spin) params count.toNat source
  let set ← SampleM.ofModel (SampleSet.concatenate sets)
  return set.changeVartype m.vartype

end SpinReversal

/-- Samples several copies of a model in which a random choice of variables is flipped, and joins
the samples, flipped back, in the domain of the model. -/
def Composite.spinReversal [DecidableEq V] [Coefficient R] (child : Sampler σ V R) :
    Composite σ V R where
  properties := propertiesOver child
  parameters := SpinReversal.parametersOver child
  sample := SpinReversal.sample child
  children := [child]

end BinaryQuadratic
