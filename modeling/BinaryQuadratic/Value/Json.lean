import BinaryQuadratic.Json.Record
import BinaryQuadratic.NameMap
import BinaryQuadratic.Value.Basic

namespace BinaryQuadratic.Value

mutual

def toJson : Value → Json
  | bool b => .bool b
  | int n => .int n.toInt
  | uint n => .int n.toNat
  | float x => .ofFloat x
  | str s => .str s
  | list items => .arr (toJsonItems items)
  | map entries => .obj (toJsonEntries entries)

def toJsonItems : List Value → List Json
  | [] => []
  | x :: xs => toJson x :: toJsonItems xs

def toJsonEntries : List (String × Value) → List (String × Json)
  | [] => []
  | (k, x) :: es => (k, toJson x) :: toJsonEntries es

end

/-- Signed where 64 bits allow it. -/
def ofInt? (n : Int) : Option Value :=
  if -Word.signedBound ≤ n ∧ n < Word.signedBound then some (int (Int64.ofInt n))
  else if 0 ≤ n ∧ n < Word.bound then some (uint (UInt64.ofNat n.toNat))
  else none

mutual

/-- The value of a tree at any depth. There is none for `null`, wherever it stands. -/
def decode? : Json → Option Value
  | .bool b => some (bool b)
  | .int n => ofInt? n
  | .float x => some (float x)
  | .str s => some (str s)
  | .arr items => (decodeItems? items).map list
  | .obj members => (decodeMembers? members).map (fun ms => map (sortEntries ms))
  | .null | .unreadable => none

def decodeItems? : List Json → Option (List Value)
  | [] => some []
  | x :: xs => do return (← decode? x) :: (← decodeItems? xs)

def decodeMembers? : List (String × Json) → Option (List (String × Value))
  | [] => some []
  | (k, x) :: ms => do return (k, ← decode? x) :: (← decodeMembers? ms)

end

/-- Reads a value that stands inside `outer` arrays and objects. -/
def ofJsonIn? (outer : Nat) (j : Json) : Option Value :=
  if outer + j.nesting ≤ Json.nestingLimit then decode? j else none

def ofJson? (j : Json) : Option Value :=
  ofJsonIn? 0 j

end BinaryQuadratic.Value
