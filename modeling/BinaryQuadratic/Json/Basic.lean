import BinaryQuadratic.Word

namespace BinaryQuadratic

/-- A JSON text as a tree. Members of an object keep their order and may repeat a key.
`unreadable` stands for a part that follows the grammar but denotes nothing, a number too large for
a double or half a surrogate pair in a string: it may be skipped, never decoded. -/
inductive Json where
  | null
  | bool (b : Bool)
  | int (n : Int)
  | float (x : Float)
  | str (s : String)
  | arr (items : List Json)
  | obj (members : List (String × Json))
  | unreadable
  deriving Inhabited

namespace Json

def str? : Json → Option String
  | str s => some s
  | _ => none

def bool? : Json → Option Bool
  | bool b => some b
  | _ => none

def arr? : Json → Option (List Json)
  | arr items => some items
  | _ => none

def obj? : Json → Option (List (String × Json))
  | obj members => some members
  | _ => none

/-- An integer between two bounds. -/
def intIn? (low high : Int) : Json → Option Int
  | int n => if low ≤ n ∧ n ≤ high then some n else none
  | _ => none

/-- A count or size: an integer that a 64-bit word holds. -/
def size? (j : Json) : Option Nat :=
  (j.intIn? 0 (Word.bound - 1)).map Int.toNat

/-- A double, also from an integer. -/
def float? : Json → Option Float
  | float x => some x
  | int n => some (Float.ofInt n)
  | _ => none

def ofNat (n : Nat) : Json :=
  int n

/-- A double; infinities and NaN have no number. -/
def ofFloat (x : Float) : Json :=
  if x.isFinite then float x else null

end Json
end BinaryQuadratic
