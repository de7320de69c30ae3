import BinaryQuadratic.Enumeration
import BinaryQuadratic.Json.Record
import BinaryQuadratic.Sampler.Basic

namespace BinaryQuadratic

/-- The sampler that returns every assignment. It declares nothing, unless it was read with
declarations of its own. -/
structure ExhaustiveSampler where
  properties : Properties
  parameters : Parameters

namespace ExhaustiveSampler

def new : ExhaustiveSampler :=
  ⟨NameMap.empty, NameMap.empty⟩

/-- Assignments in the order of enumeration, once each. A model without variables has no row. -/
def sample [DecidableEq V] [Coefficient R] (e : ExhaustiveSampler) (m : Model V R)
    (params : Params) : SampleM σ V (SampleSet V R) := do
  SampleM.logged (params.warnUnknown e.parameters)
  if m.isEmpty then return .empty m.vartype
  match enumerate m.vartype m.numVariables with
  | .error (.tooManyVariables n) => throw (.tooManyVariables n)
  | .error .shape => throw (.model .shape)
  | .ok samples => SampleM.ofModel (SampleSet.ofModel samples m.labels m)

def sampler [DecidableEq V] [Coefficient R] (e : ExhaustiveSampler) : Sampler σ V R :=
  ⟨e.properties, e.parameters, e.sample⟩

def fieldNames : List String :=
  ["properties", "parameters"]

def ofJson? (j : Json) : Option ExhaustiveSampler := do
  match ← j.parts? fieldNames with
  | [properties, parameters] =>
    return ⟨← Properties.ofJsonIn? 1 properties, ← Parameters.ofJson? parameters⟩
  | _ => none

instance : BEq ExhaustiveSampler :=
  ⟨fun s s' => s.properties.beq s'.properties && s.parameters.entries == s'.parameters.entries⟩

end ExhaustiveSampler
end BinaryQuadratic
