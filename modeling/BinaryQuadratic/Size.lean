import BinaryQuadratic.Json.Basic

namespace BinaryQuadratic

/-- A number of transforms to make or of samples to keep, at least one. -/
structure PositiveSize where
  value : UInt64
  pos : 0 < value
  deriving DecidableEq

namespace PositiveSize

inductive Error where
  | belowBound (value : UInt64)
  deriving DecidableEq, Repr

/-- Why a text is no integer of 64 bits. -/
inductive DigitError where
  | empty
  | invalidDigit
  | overflow
  deriving DecidableEq, Repr

inductive ParseError where
  | notInteger (cause : DigitError)
  | outOfBounds (cause : Error)
  deriving DecidableEq, Repr

def Error.message : Error → String
  | belowBound value => toString value.toNat ++ " is below lower bound (1)"

def DigitError.message : DigitError → String
  | empty => "cannot parse integer from empty string"
  | invalidDigit => "invalid digit found in string"
  | overflow => "number too large to fit in target type"

def ParseError.message : ParseError → String
  | notInteger cause => "failed to convert from 'str': " ++ cause.message
  | outOfBounds cause => "failed to convert into type: " ++ cause.message

def min : PositiveSize :=
  ⟨1, by decide⟩

def ofUInt64 (value : UInt64) : Except Error PositiveSize :=
  if h : 0 < value then .ok ⟨value, h⟩ else .error (.belowBound value)

def toNat (s : PositiveSize) : Nat :=
  s.value.toNat

theorem toNat_pos (s : PositiveSize) : 0 < s.toNat :=
  UInt64.lt_iff_toNat_lt.mp s.pos

def text (s : PositiveSize) : String :=
  toString s.toNat

instance : Ord PositiveSize := ⟨fun a b => compare a.toNat b.toNat⟩

/-- Appends digits to the number read so far. Of a bad digit and an overflow the one further left
is reported. -/
def appendDigits (n : Nat) : List Char → Except DigitError Nat
  | [] => .ok n
  | c :: cs =>
    if c.isDigit then
      let n := n * 10 + (c.toNat - '0'.toNat)
      if n < Word.bound then appendDigits n cs else .error .overflow
    else .error .invalidDigit

/-- ASCII digits, after one plus sign or none. -/
def digits : List Char → Except DigitError Nat
  | [] => .error .empty
  | '+' :: [] => .error .invalidDigit
  | '+' :: cs => appendDigits 0 cs
  | cs => appendDigits 0 cs

def parse (text : String) : Except ParseError PositiveSize :=
  match digits text.toList with
  | .error e => .error (.notInteger e)
  | .ok n => (ofUInt64 (UInt64.ofNat n)).mapError .outOfBounds

def toJson (s : PositiveSize) : Json :=
  .int s.toNat

def ofJson? (j : Json) : Option PositiveSize := do
  let n ← j.size?
  (ofUInt64 (UInt64.ofNat n)).toOption

end PositiveSize
end BinaryQuadratic
