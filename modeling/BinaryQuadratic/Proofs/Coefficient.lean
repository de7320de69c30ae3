import BinaryQuadratic.Coefficient
import Mathlib.Algebra.Order.Ring.Rat

namespace BinaryQuadratic.Coefficient
open Std

/-- Doubles are ordered by rank, NaN included. -/
instance : TransCmp (cmp : Float → Float → Ordering) where
  eq_swap := OrientedOrd.eq_swap (α := Int)
  isLE_trans := TransOrd.isLE_trans (α := Int)

/-- Exact numbers are compared by numerator and denominator. -/
instance : LawfulBEq Rat where
  rfl {a} := by
    change (a.num == a.num && a.den == a.den) = true
    simp
  eq_of_beq {a b} h := by
    change (a.num == b.num && a.den == b.den) = true at h
    simp only [Bool.and_eq_true, beq_iff_eq] at h
    exact Rat.ext h.1 h.2

theorem cmp_rat (a b : Rat) :
    cmp a b = if a < b then .lt else if b < a then .gt else .eq := by
  rfl

theorem le_rat {a b : Rat} : le a b = true ↔ a ≤ b := by
  rw [le, cmp_rat]
  by_cases hlt : a < b
  · simp [hlt, hlt.le]
  · by_cases hgt : b < a
    · simp [hlt, hgt]
    · simp [hlt, hgt, le_of_not_gt hgt]

instance : TransCmp (cmp : Rat → Rat → Ordering) where
  eq_swap {a b} := by
    rw [cmp_rat, cmp_rat]
    by_cases hlt : a < b
    · simp [hlt, hlt.asymm]
    · by_cases hgt : b < a <;> simp [hlt, hgt]
  isLE_trans hab hbc := le_rat.mpr ((le_rat.mp hab).trans (le_rat.mp hbc))

/-- Only NaN differs from itself. -/
theorem float_beq_self {x : Float} (h : x.isNaN = false) : (x == x) = true := by
  change x.toModel.unpack.isNaN = false at h
  change (x.toModel.unpack.compare x.toModel.unpack == some .eq) = true
  cases hx : x.toModel.unpack with
  | notANumber => rw [hx] at h; cases h
  | infinity sign => cases sign <;> rfl
  | zero sign => cases sign <;> rfl
  | finite sign mantissa exponent hpos =>
    have hsame : (compare exponent exponent).then (compare mantissa mantissa) = .eq := by
      have hexponent : compare exponent exponent = .eq := ReflOrd.compare_self
      have hmantissa : compare mantissa mantissa = .eq := ReflOrd.compare_self
      rw [hexponent, hmantissa, Ordering.eq_then]
    cases sign with
    | positive => exact beq_iff_eq.mpr (congrArg some hsame)
    | negative => exact beq_iff_eq.mpr (congrArg (fun o : Ordering => some o.swap) hsame)

theorem isNaN_of_isFinite {x : Float} (h : x.isFinite = true) : x.isNaN = false := by
  change x.toModel.unpack.isFinite = true at h
  change x.toModel.unpack.isNaN = false
  cases hx : x.toModel.unpack with
  | notANumber => rw [hx] at h; cases h
  | infinity sign => rfl
  | zero sign => rfl
  | finite sign mantissa exponent hpos => rfl

theorem le_iff {R : Type} [Coefficient R] {a b : R} :
    le a b = true ↔ cmp a b = .lt ∨ cmp a b = .eq :=
  Ordering.isLE_iff_eq_lt_or_eq_eq

variable {R : Type} [Coefficient R] [TransCmp (cmp : R → R → Ordering)]

theorem le_refl (a : R) : le a a = true :=
  ReflCmp.isLE_rfl

theorem le_trans {a b c : R} (hab : le a b = true) (hbc : le b c = true) : le a c = true :=
  TransCmp.isLE_trans hab hbc

theorem not_lt_of_le {a b : R} (h : le a b = true) : cmp b a ≠ .lt :=
  fun hlt => OrientedCmp.not_isLE_of_lt hlt h

theorem le_of_not_lt {a b : R} (h : cmp b a ≠ .lt) : le a b = true := by
  by_contra hle
  exact h (OrientedCmp.lt_of_not_isLE hle)

theorem le_total (a b : R) : (le a b || le b a) = true := by
  cases hab : le a b with
  | true => rfl
  | false =>
    have hba : cmp b a = .lt := OrientedCmp.lt_of_not_isLE (by simpa [le] using hab)
    simp [le, hba]

end BinaryQuadratic.Coefficient
