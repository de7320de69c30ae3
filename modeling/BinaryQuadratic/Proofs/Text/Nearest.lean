import BinaryQuadratic.Proofs.Text.Shortest
import BinaryQuadratic.Text.Nearest

namespace BinaryQuadratic.Text

namespace Magnitude

theorem startsBelow_iff {x : Magnitude} {d : Decimal} :
    x.startsBelow d = true ↔ x.StartsBelow d.value := by
  unfold startsBelow StartsBelow Decimal.value
  dsimp only
  split
  · rw [decide_eq_true_eq, compare_scaled.1]
    rfl
  · rw [decide_eq_true_eq, ← not_le, compare_scaled.2, not_le]
    rfl

/-- No double is as great as `10 ^ 310`. -/
theorem highest_lt {x : Magnitude} (h : x.OfDouble) : x.highest < 10 ^ 310 := by
  have hbounds : x.bounds.2 ≤ 2 ^ 56 := by
    have := h.mantissa
    simp only [bounds]
    omega
  have hquarter : x.quarter ≤ 2 ^ 970 := by
    rw [← zpow_natCast, quarter]
    exact zpow_le_zpow_right₀ (by norm_num) (by have := h.greatest; omega)
  have hpowers : 2 ^ 56 * 2 ^ 970 < 10 ^ 310 := by decide +kernel
  calc x.highest ≤ ((2 ^ 56 : ℕ) : ℚ) * ((2 ^ 970 : ℕ) : ℚ) := by
        rw [Nat.cast_pow 2 970]
        exact mul_le_mul (Nat.cast_le.mpr hbounds) hquarter x.quarter_pos.le (Nat.cast_nonneg _)
    _ = ((2 ^ 56 * 2 ^ 970 : ℕ) : ℚ) := (Nat.cast_mul ..).symm
    _ < ((10 ^ 310 : ℕ) : ℚ) := Nat.cast_lt.mpr hpowers
    _ = 10 ^ 310 := Nat.cast_pow ..

/-- What is so small reads as zero. -/
theorem inside_zero {q : ℚ} (hpos : 0 ≤ q) (h : q < 10 ^ (-330 : Int)) : (ofBits 0).Inside q := by
  have hzero : ofBits 0 = ⟨0, -1074, false⟩ := rfl
  have hlowest : (ofBits 0).lowest = 0 := by simp [hzero, lowest, bounds]
  have hhighest : (ofBits 0).highest = 2 ^ (-1075 : Int) :=
    calc (ofBits 0).highest = ((2 : ℕ) : ℚ) * 2 ^ (-1076 : Int) := rfl
      _ = 2 ^ (1 + -1076 : Int) := (zpow_one_add₀ (by norm_num) _).symm
  have hpowers : (10 : ℚ) ^ (-330 : Int) < 2 ^ (-1075 : Int) := by
    rw [zpow_neg, zpow_neg]
    exact inv_strictAnti₀ (by positivity)
      (mod_cast two_pow_lt_ten_pow (n := 330) (m := 1075) (by norm_num))
  have heven : (ofBits 0).mantissa % 2 = 0 := rfl
  rw [Inside, if_pos heven, hlowest, hhighest]
  exact ⟨hpos, (h.trans hpowers).le⟩

end Magnitude

namespace Decimal

variable {d : Decimal}

theorem digits_lt (d : Decimal) : d.digits < 10 ^ (Nat.toDigits 10 d.digits).length :=
  (Nat.length_toDigits_le_iff (by decide) (List.length_pos_of_ne_nil Nat.toDigits_ne_nil)).mp le_rfl

theorem le_digits (hd : d.digits ≠ 0) : 10 ^ ((Nat.toDigits 10 d.digits).length - 1) ≤ d.digits := by
  by_cases hone : (Nat.toDigits 10 d.digits).length - 1 = 0
  · rw [hone]
    exact Nat.pos_of_ne_zero hd
  · by_contra hlt
    have hshort := (Nat.length_toDigits_le_iff (by decide) (Nat.pos_of_ne_zero hone)).mpr
      (not_le.mp hlt)
    omega

/-- The place of the leading digit says how large a decimal is. -/
theorem value_lt (d : Decimal) :
    d.value < 10 ^ (d.exponent + (Nat.toDigits 10 d.digits).length) := by
  rw [value, zpow_add₀ (by norm_num), mul_comm, zpow_natCast]
  exact mul_lt_mul_of_pos_left (mod_cast d.digits_lt) (by positivity)

theorem le_value (hd : d.digits ≠ 0) :
    (10 : ℚ) ^ (d.exponent + (Nat.toDigits 10 d.digits).length - 1) ≤ d.value := by
  have hlength := List.length_pos_of_ne_nil (Nat.toDigits_ne_nil (b := 10) (n := d.digits))
  have hplace : d.exponent + (Nat.toDigits 10 d.digits).length - 1 =
      d.exponent + ((Nat.toDigits 10 d.digits).length - 1 : ℕ) := by omega
  rw [hplace, value, zpow_add₀ (by norm_num), mul_comm, zpow_natCast]
  exact mul_le_mul_of_nonneg_right (mod_cast le_digits hd) (by positivity)

/-- As long as the bits that are settled belong to the magnitude that is read, it is reached. -/
theorem climb_eq {bits : Nat} (h : (Magnitude.ofBits bits).Inside d.value) (hbits : bits < 2 ^ 63)
    {n start : Nat} (hlow : start ≤ bits) (hhigh : bits < start + 2 ^ n) (hlimit : start + 2 ^ n ≤ 2 ^ 63) :
    d.climb n start = bits := by
  induction n generalizing start with
  | zero =>
    rw [climb]
    omega
  | succ n ih =>
    rw [pow_succ] at hhigh hlimit
    have hnext : (Magnitude.ofBits (start + 2 ^ n)).startsBelow d = true ↔ start + 2 ^ n ≤ bits := by
      rw [Magnitude.startsBelow_iff]
      exact h.startsBelow_iff hbits (by have := Nat.two_pow_pos n; omega)
    rw [climb]
    simp only [Nat.pow_eq]
    split
    · rename_i hset
      exact ih (hnext.mp hset) (by omega) (by omega)
    · rename_i hclear
      exact ih hlow (by have := mt hnext.mpr hclear; omega) (by omega)

/-- A decimal that lies between the midpoints around a magnitude is read as that one. -/
theorem nearest_eq {bits : Nat} (h : (Magnitude.ofBits bits).Inside d.value)
    (hbits : bits < 2 ^ 63) : d.nearest = bits := by
  have hvalue : 0 ≤ d.value := mul_nonneg (Nat.cast_nonneg _) (by positivity)
  unfold nearest
  dsimp only
  split
  · rename_i hsmall
    have hlt : d.value < 10 ^ (-330 : Int) := by
      rcases Bool.or_eq_true_iff.mp hsmall with hzero | hsize
      · rw [value, of_decide_eq_true hzero]
        norm_num
      · exact d.value_lt.trans_le
          (zpow_le_zpow_right₀ (by norm_num) (by have := of_decide_eq_true hsize; omega))
    exact Magnitude.inside_unique (by norm_num) hbits (Magnitude.inside_zero hvalue hlt) h
  · rename_i hsmall
    have hdigits : d.digits ≠ 0 := by
      intro hzero
      simp [hzero] at hsmall
    split
    · rename_i hlarge
      have hge : (10 : ℚ) ^ 310 ≤ d.value := by
        rw [← zpow_natCast]
        exact (zpow_le_zpow_right₀ (by norm_num) (by omega)).trans (le_value hdigits)
      have hlt := Magnitude.highest_lt (Magnitude.ofDouble_ofBits hbits)
      exact absurd (hge.trans h.bounds.2) hlt.not_ge
    · exact climb_eq h hbits (Nat.zero_le _) (by simpa using hbits) (by norm_num)

end Decimal

end BinaryQuadratic.Text
