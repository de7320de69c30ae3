namespace BinaryQuadratic.Word

/-- Words of 64 bits count from zero up to this. -/
abbrev bound : Nat :=
  0x10000000000000000

/-- With a sign, half as far, and as far below zero. -/
abbrev signedBound : Nat :=
  0x8000000000000000

theorem signedBound_lt_bound : signedBound < bound := by
  decide

/-- What a sum does that no word holds: it ends the run, or it loses all but its last 64 bits. Which
of the two is settled when a program is built. -/
inductive Overflow where
  | stops
  | wraps
  deriving DecidableEq, Repr

namespace Overflow

/-- The word for a number, if the run goes on. -/
def word? (o : Overflow) (n : Nat) : Option Nat :=
  if n < bound then some n
  else
    match o with
    | stops => none
    | wraps => some (n % bound)

/-- Words are added one after the other. -/
def sum? (o : Overflow) (ns : List Nat) : Option Nat :=
  ns.foldlM (fun total n => o.word? (total + n)) 0

end Overflow

end BinaryQuadratic.Word
