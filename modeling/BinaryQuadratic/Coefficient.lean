import BinaryQuadratic.Word

namespace BinaryQuadratic

/-- Numbers that serve as biases and energies. The laws of arithmetic are not part of the class,
because floating-point numbers, which samplers use, obey few of them. -/
class Coefficient (R : Type) extends Add R, Sub R, Mul R, Neg R, Div R, BEq R where
  ofInt : Int → R
  /-- The sum of no terms. -/
  emptySum : R
  /-- A total order, also on numbers that `<` does not compare. -/
  cmp : R → R → Ordering
  /-- Whether two energies differ by no more than `1e-8`. -/
  near : R → R → Bool

namespace Coefficient

variable {R : Type} [Coefficient R]

def zero : R :=
  ofInt 0

/-- Terms are added from left to right. -/
def sum (xs : List R) : R :=
  xs.foldl (· + ·) emptySum

def le (a b : R) : Bool :=
  (cmp a b).isLE

end Coefficient

/-- Energies this close to the lowest count as lowest. -/
def lowestTolerance : Float :=
  1e-8

/-- The rank of a double in the total order that puts `-0.0` just before `0.0`. There is but one NaN
among these doubles. It has no sign and comes past infinity, and none comes before all numbers. -/
def totalOrderRank (x : Float) : Int :=
  let bits := x.toBits.toNat
  if bits < Word.signedBound then bits else (Word.signedBound : Int) - bits - 1

/-- The empty sum is `-0.0`, the one double that changes no double it is added to. -/
instance : Coefficient Float where
  ofInt := Float.ofInt
  emptySum := -0.0
  cmp a b := compare (totalOrderRank a) (totalOrderRank b)
  near a b := (a - b).abs ≤ lowestTolerance

/-- Exact arithmetic, with the tolerance `1 / 10 ^ 8`. -/
instance : Coefficient Rat where
  add := Rat.add
  sub := Rat.sub
  mul := Rat.mul
  neg := Rat.neg
  div := Rat.div
  beq a b := a.num == b.num && a.den == b.den
  ofInt := Rat.ofInt
  emptySum := Rat.ofInt 0
  cmp a b := if Rat.blt a b then .lt else if Rat.blt b a then .gt else .eq
  near a b :=
    let tolerance := mkRat 1 100000000
    !Rat.blt tolerance (Rat.sub a b) && !Rat.blt tolerance (Rat.sub b a)

end BinaryQuadratic
