import BinaryQuadratic.Json.Record
import BinaryQuadratic.Model.Basic
import BinaryQuadratic.Vartype.Json

namespace BinaryQuadratic

/-- The key of a member that belongs to a variable; a number turns into a name. -/
def Label.toKey : Label → String
  | name s => s
  | number n => toString n

namespace Model

def fieldNames : List String :=
  ["linear", "quadratic", "offset", "vartype"]

/-- There is none for a model with interactions: a pair is no key of an object. -/
def toJson? (m : Model Label Float) : Option Json :=
  if m.quadratic.isEmpty then
    let linear := m.linear.map (fun (v, b) => (v.toKey, Json.ofFloat b))
    let parts := [.obj linear, .obj [], .ofFloat m.offset, m.vartype.toJson]
    some (.obj (fieldNames.zip parts))
  else none

/-- A label that is repeated keeps its first position and its last bias. -/
def assignBias [DecidableEq V] (v : V) (b : R) : List (V × R) → List (V × R)
  | [] => [(v, b)]
  | (v', b') :: rest => if v' = v then (v, b) :: rest else (v', b') :: assignBias v b rest

/-- A model without interactions, from labels and biases as they stand in a file. -/
def ofEntries [DecidableEq V] (entries : List (V × R)) (offset : R) (t : Vartype) : Model V R :=
  ⟨entries.foldl (fun l (v, b) => assignBias v b l) [], [], offset, t⟩

def entriesOfJson? (j : Json) : Option (List (Label × Float)) := do
  (← j.obj?).mapM (fun (k, x) => x.float?.map (Label.name k, ·))

def ofJson? (j : Json) : Option (Model Label Float) := do
  match ← j.parts? fieldNames with
  | [linear, .obj [], offset, vartype] =>
    return ofEntries (← entriesOfJson? linear) (← offset.float?) (← Vartype.ofJson? vartype)
  | _ => none

end Model
end BinaryQuadratic
