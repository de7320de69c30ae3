import BinaryQuadratic.Params
import BinaryQuadratic.Random.Bits
import BinaryQuadratic.SampleSet.Basic

namespace BinaryQuadratic

/-- Why a sampler gives no samples. -/
inductive SampleError (V : Type) where
  | model (cause : ModelError V)
  | missingChild
  | param (cause : ParamError)
  | tooManyVariables (n : Nat)

def SampleError.message [VariableLabel V] : SampleError V → String
  | model cause => cause.message
  | missingChild => "a composite must have at least one child sampler"
  | param cause => cause.message
  | tooManyVariables n =>
    "cannot enumerate every assignment of " ++ toString n ++ " variables"

/-- What goes on while samplers run: the warnings so far, the randomness to come, and the memory of
samplers that keep one. -/
structure Session (σ : Type) where
  warnings : List Warning
  randomness : Randomness
  memory : σ

/-- A run of a sampler. What it did to the session stays when it fails. -/
abbrev SampleM (σ V : Type) :=
  ExceptT (SampleError V) (StateM (Session σ))

namespace SampleM

variable {σ V : Type}

/-- A step that logs to the warnings of the session. -/
def logged (x : Logging α) : SampleM σ V α :=
  modifyGet (fun s =>
    let (a, warnings) := x.run s.warnings
    (a, { s with warnings := warnings }))

/-- Bits for one call, from its seed if it has one. -/
def bits (seed : Option UInt64) : SampleM σ V BitSource := do
  let s ← get
  match seed with
  | some seed => return s.randomness.ofSeed seed
  | none =>
    let (source, randomness) := s.randomness.fresh
    set { s with randomness := randomness }
    return source

def ofModel : Except (ModelError V) α → SampleM σ V α
  | .ok a => return a
  | .error e => throw (.model e)

def ofParam : Except ParamError α → SampleM σ V α
  | .ok a => return a
  | .error e => throw (.param e)

end SampleM

/-- A map from models to sample sets. -/
structure Sampler (σ V R : Type) where
  properties : Properties
  parameters : Parameters
  sample : Model V R → Params → SampleM σ V (SampleSet V R)

namespace Sampler

variable {σ V R : Type} [DecidableEq V] [Coefficient R]

def sampleIsing (s : Sampler σ V R) (h : List (V × R)) (j : List ((V × V) × R)) (params : Params) :
    SampleM σ V (SampleSet V R) := do
  let m ← SampleM.ofModel (Model.ofIsing h j Coefficient.zero)
  s.sample m params

def sampleQubo (s : Sampler σ V R) (q : List ((V × V) × R)) (params : Params) :
    SampleM σ V (SampleSet V R) :=
  s.sample (Model.ofQubo q Coefficient.zero) params

end Sampler

/-- A sampler over others, to which it may delegate. -/
structure Composite (σ V R : Type) extends Sampler σ V R where
  children : List (Sampler σ V R)

namespace Composite

variable {σ V R : Type}

/-- The first child. -/
def child (c : Composite σ V R) : Except (SampleError V) (Sampler σ V R) :=
  match c.children with
  | [] => .error .missingChild
  | s :: _ => .ok s

/-- The property under which a composite tells those of its child. -/
def childPropertiesName : String :=
  "child_properties"

def propertiesOver (child : Sampler σ V R) : Properties :=
  NameMap.ofList [(childPropertiesName, .map child.properties.entries)]

end Composite
end BinaryQuadratic
