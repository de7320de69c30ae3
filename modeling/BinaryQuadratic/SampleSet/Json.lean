import BinaryQuadratic.Json.Record
import BinaryQuadratic.SampleSet.Order
import BinaryQuadratic.Vartype.Json

namespace BinaryQuadratic

namespace Label

def toJson : Label → Json
  | name s => .str s
  | number n => .int n

def ofJson? : Json → Option Label
  | .str s => some (name s)
  | j => (j.intIn? (-Word.signedBound) (Word.signedBound - 1)).map number

end Label

/-- An array in written form: its extents, and its elements in row order. -/
structure ArrayForm where
  extents : List Nat
  elements : List Json

namespace ArrayForm

def version : Int :=
  1

def toJson (a : ArrayForm) : Json :=
  .obj [("v", .int version), ("dim", .arr (a.extents.map Json.ofNat)), ("data", .arr a.elements)]

def extents? (j : Json) : Option (List Nat) := do
  (← j.arr?).mapM Json.size?

def isVersion (j : Json) : Bool :=
  j.intIn? version version |>.isSome

/-- The last member of a name; `valid` has to hold of each of them. -/
def lastMember? (name : String) (valid : Json → Bool) (members : List (String × Json)) :
    Option Json :=
  let found := members.filter (·.1 == name)
  if found.all (fun (_, x) => valid x) then found.getLast?.map (·.2) else none

/-- The version, the extents and the elements: an object that may repeat its members but has no
others, or a bare list. -/
def parts? (validExtents validElements : Json → Bool) : Json → Option (Json × Json × Json)
  | .obj members => do
    if members.any (fun (k, _) => k != "v" && k != "dim" && k != "data") then none
    let v ← lastMember? "v" isVersion members
    let dim ← lastMember? "dim" validExtents members
    let data ← lastMember? "data" validElements members
    return (v, dim, data)
  | .arr [v, dim, data] => some (v, dim, data)
  | _ => none

/-- Reads an array of `rank` extents whose elements satisfy `valid`. -/
def ofJson? (rank : Nat) (valid : Json → Bool) (j : Json) : Option ArrayForm := do
  let validExtents (x : Json) := (extents? x).any (·.length == rank)
  let validElements (x : Json) := x.arr?.any (·.all valid)
  let (v, dim, data) ← parts? validExtents validElements j
  if isVersion v && validExtents dim && validElements data then
    return ⟨← extents? dim, ← data.arr?⟩
  else none

/-- The extents' product counts the elements, and even without its zero factors fits a signed
word. -/
def sized (a : ArrayForm) : Bool :=
  a.extents.foldl (· * ·) 1 == a.elements.length &&
    (a.extents.filter (· != 0)).foldl (· * ·) 1 < Word.signedBound

/-- Reads a list. -/
def listOfJson? (read : Json → Option α) (j : Json) : Option (List α) := do
  let a ← ofJson? 1 (fun x => (read x).isSome) j
  if a.sized then a.elements.mapM read else none

end ArrayForm

namespace Matrix

def toJson (a : Matrix) : Json :=
  ArrayForm.toJson ⟨[a.nrows, a.ncols], a.values.map Json.int⟩

/-- A value is an integer of eight bits. -/
def valueOfJson? (j : Json) : Option Int :=
  j.intIn? (-128) 127

def ofJson? (j : Json) : Option Matrix := do
  let a ← ArrayForm.ofJson? 2 (fun x => (valueOfJson? x).isSome) j
  if a.sized then
    match a.extents with
    | [nrows, ncols] => reshape? nrows ncols (← a.elements.mapM valueOfJson?)
    | _ => none
  else none

end Matrix

namespace SortBy

def toJson : SortBy → Json
  | energy => .str "Energy"
  | unsorted => .str "Unsorted"

def ofJson? (j : Json) : Option SortBy :=
  match j.case? with
  | some "Energy" => some energy
  | some "Unsorted" => some unsorted
  | _ => none

end SortBy

namespace SampleSet

def fieldNames : List String :=
  ["variables", "samples", "energies", "num_occurrences", "vartype"]

def toJson (s : SampleSet Label Float) : Json :=
  let list (elements : List Json) := ArrayForm.toJson ⟨[elements.length], elements⟩
  .obj (fieldNames.zip
    [.arr (s.labels.map Label.toJson), s.samples.toJson, list (s.energies.map Json.ofFloat),
      list (s.occurrences.map Json.ofNat), s.vartype.toJson])

/-- Reads the parts one by one; that they agree in size and domain is not looked at. -/
def ofJson? (j : Json) : Option (SampleSet Label Float) := do
  match ← j.parts? fieldNames with
  | [labels, samples, energies, occurrences, vartype] =>
    return {
      labels := ← (← labels.arr?).mapM Label.ofJson?
      samples := ← Matrix.ofJson? samples
      energies := ← ArrayForm.listOfJson? Json.float? energies
      occurrences := ← ArrayForm.listOfJson? Json.size? occurrences
      vartype := ← Vartype.ofJson? vartype }
  | _ => none

end SampleSet
end BinaryQuadratic
