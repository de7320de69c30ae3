import BinaryQuadratic.Json.Record

namespace BinaryQuadratic.Json

/-- What has a text: integers of 64 bits, finite doubles, and what is made of these. -/
inductive Readable : Json → Prop
  | null : Readable null
  | bool (b : Bool) : Readable (bool b)
  | int {n : Int} (low : -Word.signedBound ≤ n) (high : n < Word.bound) : Readable (int n)
  | float {x : Float} (finite : x.isFinite = true) : Readable (float x)
  | str (s : String) : Readable (str s)
  | arr {items : List Json} (h : ∀ x ∈ items, Readable x) : Readable (arr items)
  | obj {members : List (String × Json)} (h : ∀ p ∈ members, Readable p.2) : Readable (obj members)

/-- A writer and a reader of texts, with what is relied on: numbers come back as they were, doubles
as doubles and integers as integers, which are written as their digits. -/
structure Codec where
  write : Json → String
  parse? : String → Option Json
  parse?_write {j : Json} : j.Readable → j.nesting ≤ nestingLimit → parse? (write j) = some j
  write_int {n : Int} : -Word.signedBound ≤ n → n < Word.bound → write (int n) = toString n

end BinaryQuadratic.Json
