import BinaryQuadratic.Word

namespace BinaryQuadratic

/-- A setting or a fact about a sampler. `uint` is for integers that `int` cannot hold; the entries
of a `map` are in ascending order of their names. -/
inductive Value where
  | bool (b : Bool)
  | int (n : Int64)
  | uint (n : UInt64)
  | float (x : Float)
  | str (s : String)
  | list (items : List Value)
  | map (entries : List (String × Value))

namespace Value

def ofUInt64 (n : UInt64) : Value :=
  if n.toNat < Word.signedBound then int (Int64.ofNat n.toNat) else uint n

mutual

/-- Equality of values of the same kind. Reals are compared as numbers, so that NaN differs from
itself and the two zeros agree. -/
def beq : Value → Value → Bool
  | bool a, bool b => a == b
  | int a, int b => a == b
  | uint a, uint b => a == b
  | float a, float b => a == b
  | str a, str b => a == b
  | list as, list bs => beqItems as bs
  | map as, map bs => beqEntries as bs
  | _, _ => false

def beqItems : List Value → List Value → Bool
  | [], [] => true
  | a :: as, b :: bs => beq a b && beqItems as bs
  | _, _ => false

def beqEntries : List (String × Value) → List (String × Value) → Bool
  | [], [] => true
  | (k, a) :: as, (l, b) :: bs => k == l && beq a b && beqEntries as bs
  | _, _ => false

end

instance : BEq Value := ⟨beq⟩

def asBool? : Value → Option Bool
  | bool b => some b
  | _ => none

def asInt64? : Value → Option Int64
  | int n => some n
  | uint n => if n.toNat < Word.signedBound then some (Int64.ofNat n.toNat) else none
  | _ => none

def asUInt64? : Value → Option UInt64
  | int n => if 0 ≤ n.toInt then some (UInt64.ofNat n.toInt.toNat) else none
  | uint n => some n
  | _ => none

/-- The nearest double. -/
def asFloat? : Value → Option Float
  | float x => some x
  | int n => some (Float.ofInt n.toInt)
  | uint n => some (Float.ofInt n.toNat)
  | _ => none

def asString? : Value → Option String
  | str s => some s
  | _ => none

end Value
end BinaryQuadratic
