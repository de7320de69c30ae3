import BinaryQuadratic.Proofs.Coefficient
import Mathlib

namespace BinaryQuadratic.Double
open Float.Model
open Float.Model.UnpackedFloat hiding pack normalize round sub compare

/-! What a double stands for, read off its sign, exponent and mantissa: the total order of doubles
refines that of numbers, and the difference of two numbers has the sign that their order tells. -/

abbrev parts (x : Float) : UnpackedFloat :=
  x.toModel.unpack

/-- Mantissas have 53 bits, the first of which is set unless the exponent is the least. -/
def Canonical : UnpackedFloat → Prop
  | .finite _ m e _ => m < 2 ^ 53 ∧ -1074 ≤ e ∧ e ≤ 971 ∧ (e = -1074 ∨ 2 ^ 52 ≤ m)
  | _ => True

def sign : UnpackedFloat → Sign
  | .finite s .. | .infinity s | .zero s => s
  | .notANumber => .positive

/-- How many numbers of the same sign lie between a number and zero. -/
def magnitude : UnpackedFloat → Int
  | .finite _ m e _ => (e + 1074) * 2 ^ 52 + m
  | .infinity _ => 2047 * 2 ^ 52
  | .zero _ | .notANumber => 0

/-- The position of a number among all of them; both zeros have the same. -/
def level (u : UnpackedFloat) : Int :=
  (sign u).apply (magnitude u)

/-- The position in the total order, in which each zero has its own. -/
def rank (u : UnpackedFloat) : Int :=
  match sign u with
  | .positive => magnitude u
  | .negative => -magnitude u - 1

def signWeight : Sign → Int
  | .positive => 0
  | .negative => 2 ^ 63

theorem toNat_fields (b : BitVec Format.binary64.numBits) :
    (b.toNat : Int) = signWeight (Sign.ofBitVec (unpackSign b)) +
      (unpackExponent b).toNat * 2 ^ 52 + (unpackMantissa b).toNat := by
  have hsign : signWeight (Sign.ofBitVec (unpackSign b)) = (unpackSign b).toNat * 2 ^ 63 := by
    generalize unpackSign b = s
    revert s
    decide
  have hb : b.toNat < 2 ^ 64 := b.isLt
  rw [hsign, unpackSign_def, unpackExponent_def, unpackMantissa_def]
  simp only [BitVec.extractLsb'_toNat, Nat.shiftRight_eq_div_pow, Nat.reduceAdd]
  omega

/-- Read as an integer, a number's bits are its sign and its magnitude. -/
theorem unpack_fields {b : BitVec Format.binary64.numBits}
    (h : unpack .binary64 b ≠ .notANumber) : Canonical (unpack .binary64 b) ∧
      (b.toNat : Int) = signWeight (sign (unpack .binary64 b)) +
        magnitude (unpack .binary64 b) := by
  have hb := toNat_fields b
  have he : (unpackExponent b).toNat < 2 ^ 11 := (unpackExponent b).isLt
  have hm : (unpackMantissa b).toNat < 2 ^ 52 := (unpackMantissa b).isLt
  revert h
  fun_cases unpack Format.binary64 b with
  | case1 m e bit s hexponent hmantissa =>
    have hexponent : (unpackExponent b).toNat = 2047 := congrArg BitVec.toNat hexponent
    have hmantissa : (unpackMantissa b).toNat = 0 := congrArg BitVec.toNat hmantissa
    intro _
    refine ⟨trivial, ?_⟩
    simp only [sign, magnitude, s, bit]
    omega
  | case2 => simp
  | case3 m e bit s _ hexponent hmantissa =>
    have hexponent : (unpackExponent b).toNat = 0 := congrArg BitVec.toNat hexponent
    have hmantissa : (unpackMantissa b).toNat = 0 := congrArg BitVec.toNat hmantissa
    intro _
    refine ⟨trivial, ?_⟩
    simp only [sign, magnitude, s, bit]
    omega
  | case4 m e exponent bit s _ hexponent hmantissa =>
    have hexponent : (unpackExponent b).toNat = 0 := congrArg BitVec.toNat hexponent
    have hmantissa : (unpackMantissa b).toNat ≠ 0 := fun h => hmantissa (BitVec.eq_of_toNat_eq h)
    have hvalue : exponent = (unpackExponent b).toNat - 1075 := rfl
    intro _
    simp only [Canonical, sign, magnitude, s, bit, m, hvalue]
    omega
  | case5 m e exponent bit s hlast hfirst =>
    have hlast : (unpackExponent b).toNat ≠ 2047 := fun h => hlast (BitVec.eq_of_toNat_eq h)
    have hfirst : (unpackExponent b).toNat ≠ 0 := fun h => hfirst (BitVec.eq_of_toNat_eq h)
    have hvalue : exponent = (unpackExponent b).toNat - 1075 := rfl
    have hleading : (1#1 ++ m).toNat = 2 ^ 52 + (unpackMantissa b).toNat := by
      rw [BitVec.toNat_append, ← Nat.shiftLeft_add_eq_or_of_lt hm]
      rfl
    intro _
    -- the leading bit, which is not stored, is the one by which the exponent field is greater
    simp only [Canonical, sign, magnitude, s, bit, hleading, hvalue]
    omega

theorem finite_bounds {s : Sign} {m : Nat} {e : Int} {hm : 0 < m}
    (h : Canonical (.finite s m e hm)) :
    0 < magnitude (.finite s m e hm) ∧ magnitude (.finite s m e hm) < 2047 * 2 ^ 52 := by
  obtain ⟨hm, hlow, hhigh, _⟩ := h
  simp only [magnitude]
  omega

theorem magnitude_bounds {u : UnpackedFloat} (h : Canonical u) :
    0 ≤ magnitude u ∧ magnitude u ≤ 2047 * 2 ^ 52 := by
  cases u with
  | finite s m e hm => exact ⟨(finite_bounds h).1.le, (finite_bounds h).2.le⟩
  | infinity | zero | notANumber => simp [magnitude]

theorem level_le_of_rank {u v : UnpackedFloat} (hu : Canonical u) (hv : Canonical v)
    (h : rank u ≤ rank v) : level u ≤ level v := by
  have hub := magnitude_bounds hu
  have hvb := magnitude_bounds hv
  unfold rank at h
  unfold level
  cases hsu : sign u <;> cases hsv : sign v <;> rw [hsu, hsv] at h <;>
    dsimp only [Sign.apply] at h ⊢ <;> omega

/-- Exponents come first, because only a mantissa at the least exponent may be small. -/
theorem compare_fields {m₁ m₂ : Nat} {e₁ e₂ : Int} (hm₁ : m₁ < 2 ^ 53) (hm₂ : m₂ < 2 ^ 53)
    (he₁ : -1074 ≤ e₁) (he₂ : -1074 ≤ e₂) (h₁ : e₁ = -1074 ∨ 2 ^ 52 ≤ m₁)
    (h₂ : e₂ = -1074 ∨ 2 ^ 52 ≤ m₂) : (compare e₁ e₂).then (compare m₁ m₂) =
      compare ((e₁ + 1074) * 2 ^ 52 + m₁) ((e₂ + 1074) * 2 ^ 52 + m₂) := by
  rcases lt_trichotomy e₁ e₂ with h | rfl | h
  · rw [Int.compare_eq_lt.mpr h, Int.compare_eq_lt.mpr (by omega)]
    rfl
  · rw [Std.ReflOrd.compare_self]
    simp [Ordering.then, Int.compare_eq_ite_lt, Nat.compare_eq_ite_lt]
  · rw [Int.compare_eq_gt.mpr h, Int.compare_eq_gt.mpr (by omega)]
    rfl

theorem compare_neg (a b : Int) : compare (-a) (-b) = (compare a b).swap := by
  rcases lt_trichotomy a b with h | rfl | h
  · rw [Int.compare_eq_lt.mpr h, Int.compare_eq_gt.mpr (by omega)]
    rfl
  · rw [Std.ReflOrd.compare_self, Std.ReflOrd.compare_self]
    rfl
  · rw [Int.compare_eq_gt.mpr h, Int.compare_eq_lt.mpr (by omega)]
    rfl

theorem compare_eq {u v : UnpackedFloat} (hu : Canonical u) (hv : Canonical v)
    (hun : u ≠ .notANumber) (hvn : v ≠ .notANumber) :
    u.compare v = some (compare (level u) (level v)) := by
  cases u with
  | notANumber => exact absurd rfl hun
  | infinity s₁ | zero s₁ =>
    cases v with
    | notANumber => exact absurd rfl hvn
    | infinity s₂ | zero s₂ => cases s₁ <;> cases s₂ <;> rfl
    | finite s₂ m e hm =>
      have hb := finite_bounds hv
      cases s₁ <;> cases s₂ <;>
        simp only [UnpackedFloat.compare, level, sign, Sign.apply, Int.compare_eq_ite_lt] <;>
        grind [magnitude]
  | finite s₁ m₁ e₁ hm₁ =>
    have hb₁ := finite_bounds hu
    cases v with
    | notANumber => exact absurd rfl hvn
    | infinity s₂ | zero s₂ =>
      cases s₁ <;> cases s₂ <;>
        simp only [UnpackedFloat.compare, level, sign, Sign.apply, Int.compare_eq_ite_lt] <;>
        grind [magnitude]
    | finite s₂ m₂ e₂ hm₂ =>
      have hb₂ := finite_bounds hv
      obtain ⟨hlt₁, hlow₁, _, hleading₁⟩ := hu
      obtain ⟨hlt₂, hlow₂, _, hleading₂⟩ := hv
      have hfields := compare_fields hlt₁ hlt₂ hlow₁ hlow₂ hleading₁ hleading₂
      cases s₁ <;> cases s₂ <;> simp only [UnpackedFloat.compare, level, sign, Sign.apply, hfields]
      · exact congrArg some (compare_neg _ _).symm
      · simp only [Int.compare_eq_ite_lt]
        grind
      · simp only [Int.compare_eq_ite_lt]
        grind
      · rfl

theorem sign_eq_positive {u : UnpackedFloat} (hu : Canonical u) (h : 0 < level u) :
    sign u = .positive := by
  have hb := magnitude_bounds hu
  unfold level at h
  cases hs : sign u with
  | positive => rfl
  | negative =>
    simp only [hs, Sign.apply] at h
    omega

/-- Rounding keeps the sign, down to zero and up to infinity. -/
theorem sign_round (spec : Float.Model.Format) (s : Sign) (m : Nat) (e : Int) :
    sign (UnpackedFloat.round spec s m e) = s := by
  simp only [UnpackedFloat.round, roundWithAccuracy]
  split <;> rfl

theorem sign_normalize {m : Int} (h : 0 ≤ m) (spec : Float.Model.Format) (e : Int) :
    sign (UnpackedFloat.normalize spec m e .positive) = .positive := by
  unfold UnpackedFloat.normalize
  split
  · rename_i hlt
    have := Int.compare_eq_lt.mp hlt
    omega
  · rfl
  · exact sign_round ..

/-- Brought to the lesser exponent, mantissas stand in the order of the magnitudes. -/
theorem decreaseExponent_lt {s₁ s₂ : Sign} {m₁ m₂ : Nat} {e₁ e₂ : Int} {hm₁ : 0 < m₁}
    {hm₂ : 0 < m₂} (h₁ : Canonical (.finite s₁ m₁ e₁ hm₁)) (h₂ : Canonical (.finite s₂ m₂ e₂ hm₂))
    (h : magnitude (.finite s₁ m₁ e₁ hm₁) < magnitude (.finite s₂ m₂ e₂ hm₂)) {t : Int}
    (ht : t = min e₁ e₂) : (decreaseExponent m₁ e₁ t).1 < (decreaseExponent m₂ e₂ t).1 := by
  obtain ⟨hlt₁, hlow₁, _, hleading₁⟩ := h₁
  obtain ⟨hlt₂, hlow₂, _, hleading₂⟩ := h₂
  simp only [magnitude] at h
  simp only [decreaseExponent, Nat.shiftLeft_eq]
  rcases lt_trichotomy e₁ e₂ with he | rfl | he
  · -- the greater mantissa is shifted by at least one place, past 53 bits
    obtain ⟨k, hk⟩ : ∃ k : Nat, (e₂ - t).toNat = k + 1 := ⟨(e₂ - t).toNat - 1, by omega⟩
    have hzero : (e₁ - t).toNat = 0 := by omega
    have hshifted : m₂ * 1 ≤ m₂ * 2 ^ k := Nat.mul_le_mul_left _ Nat.one_le_two_pow
    rw [hk, hzero, pow_zero, mul_one, pow_succ, ← mul_assoc]
    omega
  · have hzero : (e₁ - t).toNat = 0 := by omega
    rw [hzero, pow_zero, mul_one, mul_one]
    omega
  · omega

/-- What a lesser number that is finite leaves of a number is not negative. -/
theorem sign_sub {u v : UnpackedFloat} (hu : Canonical u) (hv : Canonical v)
    (hun : u ≠ .notANumber) (hfinite : v.isFinite = true) (h : level v < level u) :
    sign (UnpackedFloat.sub .binary64 u v) = .positive := by
  cases v with
  | notANumber | infinity => cases hfinite
  | zero s₂ =>
    have hzero : level (.zero s₂) = 0 := by cases s₂ <;> rfl
    have hpositive := sign_eq_positive hu (hzero ▸ h)
    cases u with
    | notANumber => exact absurd rfl hun
    | zero s₁ =>
      cases hpositive
      rw [hzero] at h
      cases h
    | infinity s₁ | finite s₁ => exact hpositive
  | finite s₂ m₂ e₂ hm₂ =>
    have hb₂ := finite_bounds hv
    cases u with
    | notANumber => exact absurd rfl hun
    | zero s₁ =>
      cases s₂ with
      | negative => rfl
      | positive => cases s₁ <;> simp only [level, sign, Sign.apply] at h <;> grind [magnitude]
    | infinity s₁ =>
      cases s₁ with
      | positive => rfl
      | negative => cases s₂ <;> simp only [level, sign, Sign.apply] at h <;> grind [magnitude]
    | finite s₁ m₁ e₁ hm₁ =>
      have hb₁ := finite_bounds hu
      have hless := fun hlt => decreaseExponent_lt hu hv hlt rfl
      have hmore := fun hlt => decreaseExponent_lt hv hu hlt (min_comm e₁ e₂)
      refine sign_normalize ?_ _ _
      change 0 ≤ s₁.apply (decreaseExponent m₁ e₁ (min e₁ e₂)).1 -
        s₂.apply (decreaseExponent m₂ e₂ (min e₁ e₂)).1
      generalize (decreaseExponent m₁ e₁ (min e₁ e₂)).1 = a at *
      generalize (decreaseExponent m₂ e₂ (min e₁ e₂)).1 = b at *
      cases s₁ <;> cases s₂ <;> simp only [level, sign, Sign.apply, magnitude] at * <;> omega

/-- Equal numbers that are finite differ by a zero. -/
theorem sub_eq_zero {u v : UnpackedFloat} (hu : Canonical u) (hv : Canonical v)
    (hun : u ≠ .notANumber) (hfinite : v.isFinite = true) (h : level u = level v) :
    ∃ s, UnpackedFloat.sub .binary64 u v = .zero s := by
  cases v with
  | notANumber | infinity => cases hfinite
  | zero s₂ =>
    cases u with
    | notANumber => exact absurd rfl hun
    | zero s₁ => cases s₁ <;> cases s₂ <;> exact ⟨_, rfl⟩
    | infinity s₁ => cases s₁ <;> cases s₂ <;> cases h
    | finite s₁ m e hm =>
      have hb := finite_bounds hu
      cases s₁ <;> cases s₂ <;> simp only [level, sign, Sign.apply] at h <;> grind [magnitude]
  | finite s₂ m₂ e₂ hm₂ =>
    have hb := finite_bounds hv
    cases u with
    | notANumber => exact absurd rfl hun
    | zero s₁ | infinity s₁ =>
      cases s₁ <;> cases s₂ <;> simp only [level, sign, Sign.apply] at h <;> grind [magnitude]
    | finite s₁ m₁ e₁ hm₁ =>
      have hsame : s₁ = s₂ ∧ m₁ = m₂ ∧ e₁ = e₂ := by
        obtain ⟨hlt₁, hlow₁, _, hleading₁⟩ := hu
        obtain ⟨hlt₂, hlow₂, _, hleading₂⟩ := hv
        cases s₁ <;> cases s₂ <;> simp only [level, sign, Sign.apply, magnitude] at h <;> grind
      obtain ⟨rfl, rfl, rfl⟩ := hsame
      refine ⟨.positive, ?_⟩
      simp only [UnpackedFloat.sub, sub_self]
      rfl

theorem sub_infinite {u v : UnpackedFloat} (hv : v.isInf = true) :
    UnpackedFloat.sub .binary64 u v = .notANumber ∨
      ∃ s, UnpackedFloat.sub .binary64 u v = .infinity s := by
  cases v with
  | notANumber | zero | finite => cases hv
  | infinity s₂ =>
    cases u with
    | notANumber => exact .inl rfl
    | zero | finite => exact .inr ⟨_, rfl⟩
    | infinity s₁ =>
      unfold UnpackedFloat.sub
      dsimp only
      split
      · exact .inr ⟨_, rfl⟩
      · exact .inl rfl

theorem exists_packComponents (u : UnpackedFloat) :
    ∃ e m, UnpackedFloat.pack .binary64 u = packComponents .binary64 (sign u) e m := by
  cases u with
  | notANumber | infinity | zero => exact ⟨_, _, rfl⟩
  | finite s m e hm =>
    unfold UnpackedFloat.pack
    dsimp only
    split
    · exact ⟨_, _, rfl⟩
    · split <;> exact ⟨_, _, rfl⟩

theorem sign_unpack (b : BitVec Format.binary64.numBits) :
    unpack .binary64 b = .notANumber ∨
      sign (unpack .binary64 b) = Sign.ofBitVec (unpackSign b) := by
  fun_cases unpack Format.binary64 b with
  | case2 => exact .inl rfl
  | case1 | case3 | case4 | case5 => exact .inr rfl

theorem sign_pack {u : UnpackedFloat} (h : sign u = .positive) :
    sign (Float.Model.pack u).unpack = .positive := by
  obtain ⟨e, m, hpack⟩ := exists_packComponents u
  change sign (unpack .binary64 (UnpackedFloat.pack .binary64 u)) = .positive
  rcases sign_unpack (UnpackedFloat.pack .binary64 u) with hnan | hsign
  · rw [hnan]
    rfl
  · rw [hsign, hpack, unpackSign_packComponents, Sign.ofBitVec_toBitVec, h]

theorem abs_eq_self {x : Float} (h : sign (parts x) = .positive) : x.abs = x := by
  have hparts : (parts x).abs = parts x := by
    cases hx : parts x with
    | notANumber => rfl
    | infinity s | zero s | finite s =>
      rw [hx] at h
      cases h
      rfl
  change Float.ofModel (Float.Model.pack (parts x).abs) = x
  rw [hparts]
  exact Float.ofBits_toBits x

variable {x y : Float}

theorem parts_ne_notANumber (h : x.isNaN = false) : parts x ≠ .notANumber := by
  intro hx
  change (parts x).isNaN = false at h
  rw [hx] at h
  cases h

theorem isInf_of_not_finite (h : x.isNaN = false) (hx : x.isFinite = false) : x.isInf = true := by
  have hnumber := parts_ne_notANumber h
  change (parts x).isFinite = false at hx
  change (parts x).isInf = true
  cases hp : parts x with
  | notANumber => exact absurd hp hnumber
  | infinity => rfl
  | zero | finite =>
    rw [hp] at hx
    cases hx

theorem isInf_of_isFinite (h : x.isFinite = true) : x.isInf = false := by
  change (parts x).isFinite = true at h
  change (parts x).isInf = false
  cases hx : parts x with
  | zero | finite => rfl
  | infinity | notANumber =>
    rw [hx] at h
    cases h

theorem canonical_parts (h : x.isNaN = false) : Canonical (parts x) :=
  (unpack_fields (parts_ne_notANumber h)).1

theorem toNat_toBits (h : x.isNaN = false) :
    (x.toBits.toNat : Int) = signWeight (sign (parts x)) + magnitude (parts x) :=
  (unpack_fields (parts_ne_notANumber h)).2

theorem toBits_of_isInf (h : x.isNaN = false) (hinf : x.isInf = true) :
    x.toBits.toNat % Word.signedBound = 2047 * 2 ^ 52 := by
  have hbits := toNat_toBits h
  change (parts x).isInf = true at hinf
  unfold Word.signedBound
  cases hx : parts x with
  | infinity s =>
    rw [hx] at hbits
    cases s <;> simp only [sign, magnitude, signWeight] at hbits <;> omega
  | notANumber | zero | finite =>
    rw [hx] at hinf
    cases hinf

theorem toBits_of_isFinite (h : x.isFinite = true) :
    x.toBits.toNat % Word.signedBound < 2047 * 2 ^ 52 := by
  have hnumber := Coefficient.isNaN_of_isFinite h
  have hbits := toNat_toBits hnumber
  have hcanonical := canonical_parts hnumber
  change (parts x).isFinite = true at h
  unfold Word.signedBound
  cases hx : parts x with
  | finite s m e hm =>
    rw [hx] at hbits hcanonical
    have hb := finite_bounds hcanonical
    cases s <;> simp only [sign, signWeight] at hbits <;> omega
  | zero s =>
    rw [hx] at hbits
    cases s <;> simp only [sign, magnitude, signWeight] at hbits <;> omega
  | infinity | notANumber =>
    rw [hx] at h
    cases h

theorem totalOrderRank_eq (h : x.isNaN = false) : totalOrderRank x = rank (parts x) := by
  have hbits := toNat_toBits h
  have hb : 0 ≤ magnitude (parts x) ∧ magnitude (parts x) ≤ _ :=
    magnitude_bounds (canonical_parts h)
  unfold totalOrderRank rank Word.signedBound
  cases hs : sign (parts x) with
  | positive =>
    simp only [hs, signWeight] at hbits ⊢
    rw [if_pos (by omega)]
    omega
  | negative =>
    simp only [hs, signWeight] at hbits ⊢
    rw [if_neg (by omega)]
    omega

theorem toBits_of_isNaN (h : x.isNaN = true) : x.toBits.toNat = 0x7ff8000000000000 := by
  change (unpack .binary64 x.toModel.toBits.toBitVec).isNaN = true at h
  have hvalid := x.toModel.valid.eq_packedNaN
  change x.toModel.toBits.toBitVec.toNat = _
  generalize x.toModel.toBits.toBitVec = b at h hvalid
  revert h
  fun_cases unpack Format.binary64 b with
  | case2 m e hexponent hmantissa =>
    intro _
    rw [hvalid hexponent hmantissa]
    rfl
  | case1 | case3 | case4 | case5 => exact fun h => nomatch h

/-- The one NaN comes after every number. -/
theorem totalOrderRank_lt_of_isNaN (hx : x.isNaN = false) (hy : y.isNaN = true) :
    totalOrderRank x < totalOrderRank y := by
  have hb : 0 ≤ magnitude (parts x) ∧ magnitude (parts x) ≤ 2047 * 2 ^ 52 :=
    magnitude_bounds (canonical_parts hx)
  have hnan : totalOrderRank y = 0x7ff8000000000000 := by
    simp only [totalOrderRank, toBits_of_isNaN hy]
    rfl
  rw [totalOrderRank_eq hx, hnan, rank]
  split <;> omega

/-- The total order only adds that one zero stands before the other. -/
theorem level_le_of_le (hx : x.isNaN = false) (hy : y.isNaN = false)
    (h : Coefficient.le x y = true) : level (parts x) ≤ level (parts y) := by
  have h : (compare (totalOrderRank x) (totalOrderRank y)).isLE = true := h
  rw [totalOrderRank_eq hx, totalOrderRank_eq hy] at h
  exact level_le_of_rank (canonical_parts hx) (canonical_parts hy) (Int.isLE_compare.mp h)

theorem compare_parts (hx : x.isNaN = false) (hy : y.isNaN = false) :
    (parts x).compare (parts y) = some (compare (level (parts x)) (level (parts y))) :=
  compare_eq (canonical_parts hx) (canonical_parts hy) (parts_ne_notANumber hx)
    (parts_ne_notANumber hy)

theorem le_iff (hx : x.isNaN = false) (hy : y.isNaN = false) :
    x ≤ y ↔ level (parts x) ≤ level (parts y) := by
  change decide (((parts x).compare (parts y)).any (·.isLE) = true) = true ↔ _
  rw [compare_parts hx hy]
  simp [Int.isLE_compare]

theorem lt_iff (hx : x.isNaN = false) (hy : y.isNaN = false) :
    x < y ↔ level (parts x) < level (parts y) := by
  change decide (((parts x).compare (parts y) == some .lt) = true) = true ↔ _
  rw [compare_parts hx hy]
  simp [Int.compare_eq_lt]

theorem beq_iff (hx : x.isNaN = false) (hy : y.isNaN = false) :
    (x == y) = true ↔ level (parts x) = level (parts y) := by
  change ((parts x).compare (parts y) == some .eq) = true ↔ _
  rw [compare_parts hx hy]
  simp

theorem near_eq (x y : Float) : Coefficient.near x y =
    decide (Float.abs (.ofModel (.pack (UnpackedFloat.sub .binary64 (parts x) (parts y)))) ≤
      lowestTolerance) :=
  rfl

/-- Close to a finite number that is no greater are those equal to it, and those that exceed it by
no more than the tolerance. -/
theorem near_iff (hx : x.isNaN = false) (hy : y.isFinite = true)
    (h : Coefficient.le y x = true) : Coefficient.near x y = true ↔
      (x == y) = true ∨ y < x ∧ x - y ≤ lowestTolerance := by
  have hy' := Coefficient.isNaN_of_isFinite hy
  rw [beq_iff hx hy', lt_iff hy' hx]
  rcases (level_le_of_le hy' hx h).eq_or_lt with heq | hlt
  · obtain ⟨s, hs⟩ := sub_eq_zero (canonical_parts hx) (canonical_parts hy')
      (parts_ne_notANumber hx) hy heq.symm
    have hzero : Float.abs (.ofModel (.pack (.zero s))) ≤ lowestTolerance := by
      cases s <;> decide +kernel
    simp [near_eq, hs, hzero, heq]
  · have hsign : sign (parts (x - y)) = .positive :=
      sign_pack
        (sign_sub (canonical_parts hx) (canonical_parts hy') (parts_ne_notANumber hx) hy hlt)
    change decide ((x - y).abs ≤ lowestTolerance) = true ↔ _
    rw [abs_eq_self hsign]
    simp [hlt, hlt.ne']

/-- Nothing is close to an infinite number, not even that number itself: infinities of one sign
have no difference. -/
theorem near_infinite (x : Float) (hy : y.isInf = true) : Coefficient.near x y = false := by
  rw [near_eq]
  rcases sub_infinite (u := parts x) hy with h | ⟨s, h⟩
  · rw [h]
    decide +kernel
  · rw [h]
    cases s <;> decide +kernel

theorem isNaN_of_beq (h : (x == y) = true) : x.isNaN = false ∧ y.isNaN = false := by
  change ((parts x).compare (parts y) == some .eq) = true at h
  change (parts x).isNaN = false ∧ (parts y).isNaN = false
  constructor
  · cases hx : parts x with
    | notANumber =>
      rw [hx] at h
      cases h
    | infinity | zero | finite => rfl
  · cases hy : parts y with
    | notANumber =>
      rw [hy] at h
      cases hx : parts x <;> rw [hx] at h <;> cases h
    | infinity | zero | finite => rfl

/-- Nothing but NaN keeps the comparison of doubles from being an equivalence. -/
instance partialEquivBEq_float : PartialEquivBEq Float where
  symm {x y} h := by
    obtain ⟨hx, hy⟩ := isNaN_of_beq h
    exact (beq_iff hy hx).mpr ((beq_iff hx hy).mp h).symm
  trans {x y z} hxy hyz := by
    obtain ⟨hx, hy⟩ := isNaN_of_beq hxy
    obtain ⟨_, hz⟩ := isNaN_of_beq hyz
    exact (beq_iff hx hz).mpr (((beq_iff hx hy).mp hxy).trans ((beq_iff hy hz).mp hyz))

end BinaryQuadratic.Double
