import BinaryQuadratic.Proofs.Text.Decimal

namespace BinaryQuadratic.Text.Magnitude

/-- A quarter of the distance between neighbouring magnitudes. -/
def quarter (x : Magnitude) : ℚ :=
  2 ^ (x.exponent - 2)

def lowest (x : Magnitude) : ℚ :=
  x.bounds.1 * x.quarter

def highest (x : Magnitude) : ℚ :=
  x.bounds.2 * x.quarter

/-- What is read as `x`: all between the midpoints to its neighbours, and these if the mantissa is
even. -/
def Inside (x : Magnitude) (q : ℚ) : Prop :=
  if x.mantissa % 2 = 0 then x.lowest ≤ q ∧ q ≤ x.highest else x.lowest < q ∧ q < x.highest

theorem Inside.bounds {x : Magnitude} {q : ℚ} (h : x.Inside q) : x.lowest ≤ q ∧ q ≤ x.highest := by
  unfold Inside at h
  split at h
  · exact h
  · exact ⟨h.1.le, h.2.le⟩

theorem quarter_pos (x : Magnitude) : 0 < x.quarter := by
  rw [quarter]
  positivity

theorem zpow_mul_pow_neg {b : ℚ} (hb : b ≠ 0) (z : Int) :
    b ^ z * b ^ (-z).toNat = b ^ z.toNat := by
  rw [← zpow_natCast, ← zpow_natCast, ← zpow_add₀ hb]
  congr 1
  omega

section
variable (x : Magnitude) (place : Int)

theorem scale_pos : 0 < (x.scale place).1 ∧ 0 < (x.scale place).2 := by
  simp only [scale, Nat.pow_eq]
  constructor <;> positivity

/-- The factors bring quarters and multiples of `10 ^ place` to one unit. -/
theorem scale_eq : ((x.scale place).1 : ℚ) * 10 ^ place = x.quarter * (x.scale place).2 := by
  have htwo := zpow_mul_pow_neg (b := 2) (by norm_num) (x.exponent - 2)
  have hten := zpow_mul_pow_neg (b := 10) (by norm_num) place
  rw [Int.neg_sub] at htwo
  simp only [scale, Nat.pow_eq, quarter]
  push_cast
  rw [← htwo, ← hten]
  ring

variable {x place} {a n : Nat}

theorem compare_scaled :
    (a * (x.scale place).1 ≤ n * (x.scale place).2 ↔ a * x.quarter ≤ n * (10 : ℚ) ^ place) ∧
      (n * (x.scale place).2 ≤ a * (x.scale place).1 ↔ n * (10 : ℚ) ^ place ≤ a * x.quarter) := by
  have hplace : (0 : ℚ) < 10 ^ place := by positivity
  have hden : (0 : ℚ) < (x.scale place).2 := Nat.cast_pos.mpr (x.scale_pos place).2
  have ha : (a * (x.scale place).1 : ℚ) * 10 ^ place = a * x.quarter * (x.scale place).2 := by
    rw [mul_assoc, scale_eq, mul_assoc]
  have hn : (n * (x.scale place).2 : ℚ) * 10 ^ place = n * 10 ^ place * (x.scale place).2 := by
    ring
  constructor <;>
    rw [← Nat.cast_le (α := ℚ), Nat.cast_mul, Nat.cast_mul, ← mul_le_mul_iff_of_pos_right hplace,
      ha, hn, mul_le_mul_iff_of_pos_right hden]

end

/-- The test of `onGrid?`. -/
def reads (x : Magnitude) (place : Int) (n : Nat) : Bool :=
  let (num, den) := x.scale place
  let (lower, upper) := x.bounds
  if x.mantissa % 2 = 0 then lower * num ≤ n * den && n * den ≤ upper * num
  else lower * num < n * den && n * den < upper * num

theorem reads_iff {x : Magnitude} {place : Int} {n : Nat} :
    x.reads place n = true ↔ x.Inside (n * 10 ^ place) := by
  unfold reads Inside
  dsimp only
  split
  · simp only [Bool.and_eq_true, decide_eq_true_eq, compare_scaled.1, compare_scaled.2]
    rfl
  · simp only [Bool.and_eq_true, decide_eq_true_eq, ← not_le, compare_scaled.1, compare_scaled.2]
    rfl

/-- The multiple of `10 ^ place` below a magnitude. -/
def below (x : Magnitude) (place : Int) : Nat :=
  4 * x.mantissa * (x.scale place).1 / (x.scale place).2

theorem onGrid?_eq (x : Magnitude) (place : Int) : x.onGrid? place =
    if x.reads place (x.below place + 1) then
      if x.reads place (x.below place) &&
          2 * (4 * x.mantissa * (x.scale place).1) < (2 * x.below place + 1) * (x.scale place).2
        then some (x.below place) else some (x.below place + 1)
    else if x.reads place (x.below place) then some (x.below place)
    else none :=
  rfl

theorem inside_of_onGrid? {x : Magnitude} {place : Int} {n : Nat}
    (h : x.onGrid? place = some n) : x.Inside (n * 10 ^ place) := by
  apply reads_iff.mp
  rw [onGrid?_eq] at h
  split at h
  · rename_i hupper
    split at h
    · rename_i hlower
      cases h
      exact (Bool.and_eq_true_iff.mp hlower).1
    · cases h
      exact hupper
  · split at h
    · rename_i hlower
      cases h
      exact hlower
    · cases h

/-- On a grid finer than half the distance to the next magnitude there is a number that reads as
this one. -/
theorem exists_onGrid? {x : Magnitude} {place : Int}
    (h : (x.scale place).2 < 2 * (x.scale place).1) : ∃ n, x.onGrid? place = some n := by
  have hden := (x.scale_pos place).2
  have habove : 4 * x.mantissa * (x.scale place).1 < (x.below place + 1) * (x.scale place).2 := by
    rw [mul_comm (x.below place + 1)]
    exact Nat.lt_mul_div_succ _ hden
  have hbelow : x.below place * (x.scale place).2 ≤ 4 * x.mantissa * (x.scale place).1 :=
    Nat.div_mul_le_self ..
  have hlower : x.bounds.1 * (x.scale place).1 < (x.below place + 1) * (x.scale place).2 := by
    refine lt_of_le_of_lt (Nat.mul_le_mul_right _ ?_) habove
    simp only [bounds]
    omega
  have hupper : (x.below place + 1) * (x.scale place).2 < x.bounds.2 * (x.scale place).1 := by
    simp only [bounds, add_mul, one_mul]
    omega
  have hreads : x.reads place (x.below place + 1) = true := by
    unfold reads
    dsimp only
    split <;> simp [hlower, hupper, hlower.le, hupper.le]
  rw [onGrid?_eq, if_pos hreads]
  split
  · exact ⟨_, rfl⟩
  · exact ⟨_, rfl⟩

/-- A search that finds something on its finest grid finds something that reads back. -/
theorem inside_search {x : Magnitude} {fuel : Nat} {place : Int}
    (h : ∃ n, x.onGrid? (place - fuel) = some n) : x.Inside (x.search fuel place).value := by
  induction fuel generalizing place with
  | zero =>
    obtain ⟨n, hn⟩ := h
    rw [Nat.cast_zero, sub_zero] at hn
    rw [search, hn]
    exact inside_of_onGrid? hn
  | succ fuel ih =>
    rw [search]
    split
    · rename_i n hn
      exact inside_of_onGrid? hn
    · apply ih
      convert h using 4
      push_cast
      ring

theorem ten_pow_lt_two_pow {n m : Nat} (h : 10 * n < 3 * m) : 10 ^ n < 2 ^ m := by
  refine lt_of_pow_lt_pow_left₀ 3 (Nat.zero_le _) ?_
  calc (10 ^ n) ^ 3 = (10 ^ 3) ^ n := pow_right_comm ..
    _ ≤ (2 ^ 10) ^ n := Nat.pow_le_pow_left (by norm_num) n
    _ = 2 ^ (10 * n) := (pow_mul ..).symm
    _ < 2 ^ (3 * m) := Nat.pow_lt_pow_right (by norm_num) h
    _ = (2 ^ m) ^ 3 := by rw [mul_comm, pow_mul]

theorem two_pow_lt_ten_pow {n m : Nat} (h : 10 * m < 33 * n) : 2 ^ m < 10 ^ n := by
  refine lt_of_pow_lt_pow_left₀ 10 (Nat.zero_le _) ?_
  calc (2 ^ m) ^ 10 = 2 ^ (10 * m) := by rw [mul_comm, pow_mul]
    _ < 2 ^ (33 * n) := Nat.pow_lt_pow_right (by norm_num) h
    _ = (2 ^ 33) ^ n := pow_mul ..
    _ ≤ (10 ^ 10) ^ n := Nat.pow_le_pow_left (by norm_num) n
    _ = (10 ^ n) ^ 10 := pow_right_comm ..

/-- Rough powers will do, because the finest grid has two digits more than are needed: `10 ^ 3` is
little less than `2 ^ 10`, and `2 ^ 33` little less than `10 ^ 10`. -/
theorem ten_zpow_lt {place exponent : Int} (hlow : -1074 ≤ exponent) (hhigh : exponent ≤ 972)
    (hplace : 100000 * (place + 19) ≤ (exponent + 53) * 30103) :
    (10 : ℚ) ^ place < 2 ^ (exponent - 1) := by
  by_cases hpos : 0 ≤ place
  · obtain ⟨n, rfl⟩ := Int.eq_ofNat_of_zero_le hpos
    obtain ⟨m, hm⟩ := Int.eq_ofNat_of_zero_le (show 0 ≤ exponent - 1 by omega)
    rw [hm, zpow_natCast, zpow_natCast]
    exact_mod_cast ten_pow_lt_two_pow (n := n) (m := m) (by omega)
  · obtain ⟨n, hn⟩ := Int.eq_ofNat_of_zero_le (show 0 ≤ -place by omega)
    obtain rfl : place = -n := by omega
    by_cases hexponent : 0 ≤ exponent - 1
    · calc (10 : ℚ) ^ (-n : Int) < 1 := zpow_lt_one_of_neg₀ (by norm_num) (by omega)
        _ ≤ 2 ^ (exponent - 1) := one_le_zpow₀ (by norm_num) hexponent
    · obtain ⟨m, hm⟩ := Int.eq_ofNat_of_zero_le (show 0 ≤ -(exponent - 1) by omega)
      obtain hm : exponent - 1 = -m := by omega
      rw [hm, zpow_neg, zpow_neg, zpow_natCast, zpow_natCast]
      apply inv_strictAnti₀ (by positivity)
      exact_mod_cast two_pow_lt_ten_pow (n := n) (m := m) (by omega)

/-- The magnitudes of doubles. -/
structure OfDouble (x : Magnitude) : Prop where
  mantissa : x.mantissa < 2 ^ 53
  least : -1074 ≤ x.exponent
  greatest : x.exponent ≤ 972

theorem scale_topPlace {x : Magnitude} (h : x.OfDouble) (hpos : x.mantissa ≠ 0) :
    (x.scale (x.topPlace - 20)).2 < 2 * (x.scale (x.topPlace - 20)).1 := by
  have hlog : x.mantissa.log2 < 53 := (Nat.log2_lt hpos).mpr h.mantissa
  have hlt : (10 : ℚ) ^ (x.topPlace - 20) < 2 * x.quarter := by
    have hfine := ten_zpow_lt h.least h.greatest
      (show 100000 * (x.topPlace - 20 + 19) ≤ (x.exponent + 53) * 30103 by rw [topPlace]; omega)
    have hhalf : (2 : ℚ) ^ (x.exponent - 1) = 2 * x.quarter := by
      rw [quarter, ← zpow_one_add₀ (by norm_num)]
      congr 1
      ring
    rwa [hhalf] at hfine
  obtain ⟨hnum, hden⟩ := x.scale_pos (x.topPlace - 20)
  have hscale := x.scale_eq (x.topPlace - 20)
  have hquarter := x.quarter_pos
  generalize x.scale (x.topPlace - 20) = s at *
  have hnum' : (0 : ℚ) < s.1 := Nat.cast_pos.mpr hnum
  have hscaled : x.quarter * s.2 < x.quarter * (2 * s.1) := by
    calc x.quarter * s.2 = s.1 * 10 ^ (x.topPlace - 20) := hscale.symm
      _ < s.1 * (2 * x.quarter) := mul_lt_mul_of_pos_left hlt hnum'
      _ = x.quarter * (2 * s.1) := by ring
  exact_mod_cast lt_of_mul_lt_mul_left hscaled hquarter.le

/-- The shortest decimal reads back. -/
theorem inside_shortest {x : Magnitude} (h : x.OfDouble) : x.Inside x.shortest.value := by
  by_cases hzero : x.mantissa = 0
  · have hlowest : x.lowest = 0 := by simp [lowest, bounds, hzero]
    have hhighest : 0 ≤ x.highest := mul_nonneg (Nat.cast_nonneg _) x.quarter_pos.le
    rw [shortest, if_pos hzero, Inside, if_pos (by rw [hzero]), Decimal.value, Nat.cast_zero, zero_mul]
    exact ⟨hlowest.le, hhighest⟩
  · rw [shortest, if_neg hzero]
    exact inside_search (exists_onGrid? (scale_topPlace h hzero))

theorem ofBits_eq {power fraction : Nat} (hpower : power < 2 ^ 11) (hfraction : fraction < 2 ^ 52) :
    ofBits (power * 2 ^ 52 + fraction) =
      if power = 0 then ⟨fraction, -1074, false⟩
      else ⟨2 ^ 52 + fraction, (power : Int) - 1075, fraction == 0 && power != 1⟩ := by
  have hmod : (power * 2 ^ 52 + fraction) % fractionBound = fraction := by
    unfold fractionBound
    omega
  have hdiv : (power * 2 ^ 52 + fraction) / fractionBound % powerBound = power := by
    unfold fractionBound powerBound
    omega
  rw [ofBits, hmod, hdiv]
  rfl

/-- Bits below the sign are an exponent and a fraction. -/
theorem exists_fields {bits : Nat} (h : bits < 2 ^ 63) :
    ∃ power fraction, power < 2 ^ 11 ∧ fraction < 2 ^ 52 ∧ bits = power * 2 ^ 52 + fraction :=
  ⟨bits / 2 ^ 52, bits % 2 ^ 52, by omega, by omega, by omega⟩

theorem ofDouble_ofBits {bits : Nat} (h : bits < 2 ^ 63) : (ofBits bits).OfDouble := by
  obtain ⟨power, fraction, hpower, hfraction, rfl⟩ := exists_fields h
  rw [ofBits_eq hpower hfraction]
  split
  · constructor <;> dsimp only <;> omega
  · constructor <;> dsimp only <;> omega

theorem mantissa_ofBits {bits : Nat} (h : bits < 2 ^ 63) :
    (ofBits bits).mantissa % 2 = bits % 2 := by
  obtain ⟨power, fraction, hpower, hfraction, rfl⟩ := exists_fields h
  rw [ofBits_eq hpower hfraction]
  split <;> dsimp only <;> omega

theorem lowest_lt_highest (x : Magnitude) : x.lowest < x.highest := by
  apply mul_lt_mul_of_pos_right _ x.quarter_pos
  have hbounds : x.bounds.1 < x.bounds.2 := by
    simp only [bounds]
    omega
  exact_mod_cast hbounds

theorem highest_eq_lowest_succ (m : Nat) (e : Int) (narrow : Bool) :
    highest ⟨m, e, narrow⟩ = lowest ⟨m + 1, e, false⟩ := by
  have hbounds : 4 * m + 2 = 4 * (m + 1) - 2 := by omega
  simp only [highest, lowest, bounds, quarter, hbounds, Bool.false_eq_true, if_false]

/-- Where the exponent goes up, neighbours are twice as far apart as before. -/
theorem highest_eq_lowest_double {m : Nat} (hm : 0 < m) (e : Int) (narrow : Bool) :
    highest ⟨2 * m - 1, e, narrow⟩ = lowest ⟨m, e + 1, true⟩ := by
  have hbounds : 4 * (2 * m - 1) + 2 = (4 * m - 1) * 2 := by omega
  have hexponent : e + 1 - 2 = 1 + (e - 2) := by ring
  simp only [highest, lowest, bounds, quarter, hbounds, if_true, hexponent,
    zpow_one_add₀ (two_ne_zero (α := ℚ))]
  push_cast
  ring

/-- The midpoint between neighbours is the same seen from either. -/
theorem highest_ofBits {bits : Nat} (h : bits + 1 < 2 ^ 63) :
    (ofBits bits).highest = (ofBits (bits + 1)).lowest := by
  obtain ⟨power, fraction, hpower, hfraction, rfl⟩ := exists_fields (Nat.lt_of_succ_lt h)
  by_cases hlast : fraction = 2 ^ 52 - 1
  · have hnext : power * 2 ^ 52 + fraction + 1 = (power + 1) * 2 ^ 52 + 0 := by omega
    have hpower' : power + 1 < 2 ^ 11 := by omega
    rw [hnext, ofBits_eq hpower hfraction, ofBits_eq hpower' (by decide), hlast,
      if_neg power.succ_ne_zero]
    by_cases hzero : power = 0
    · rw [hzero]
      exact highest_eq_lowest_succ (2 ^ 52 - 1) (-1074) false
    · have hnarrow : (0 == 0 && power + 1 != 1) = true := by simpa using hzero
      have hexponent : ((power + 1 : Nat) : Int) - 1075 = (power - 1075 : Int) + 1 := by
        push_cast
        ring
      rw [if_neg hzero, hnarrow, hexponent]
      exact highest_eq_lowest_double (m := 2 ^ 52) (by decide) _ _
  · have hfraction' : fraction + 1 < 2 ^ 52 := by omega
    rw [add_assoc, ofBits_eq hpower hfraction, ofBits_eq hpower hfraction']
    split
    · exact highest_eq_lowest_succ fraction (-1074) false
    · exact highest_eq_lowest_succ (2 ^ 52 + fraction) _ _

theorem highest_le_lowest {bits bits' : Nat} (h : bits < bits') (hbits' : bits' < 2 ^ 63) :
    (ofBits bits).highest ≤ (ofBits bits').lowest ∧
      (bits + 1 < bits' → (ofBits bits).highest < (ofBits bits').lowest) := by
  induction bits', h using Nat.le_induction with
  | base => exact ⟨(highest_ofBits hbits').le, fun h => absurd h (lt_irrefl _)⟩
  | succ bits' hle ih =>
    have hlt : (ofBits bits).highest < (ofBits (bits' + 1)).lowest := by
      rw [← highest_ofBits hbits']
      exact (ih (Nat.lt_of_succ_lt hbits')).1.trans_lt (lowest_lt_highest _)
    exact ⟨hlt.le, fun _ => hlt⟩

/-- Of what is read as `x` or as a greater magnitude. -/
def StartsBelow (x : Magnitude) (q : ℚ) : Prop :=
  if x.mantissa % 2 = 0 then x.lowest ≤ q else x.lowest < q

theorem Inside.startsBelow {x : Magnitude} {q : ℚ} (h : x.Inside q) : x.StartsBelow q := by
  unfold Inside at h
  unfold StartsBelow
  split at h
  · rename_i heven
    rw [if_pos heven]
    exact h.1
  · rename_i hodd
    rw [if_neg hodd]
    exact h.1

/-- Of neighbours only one has an even mantissa, to which the midpoint goes. -/
theorem Inside.not_startsBelow {bits bits' : Nat} {q : ℚ} (h : (ofBits bits).Inside q)
    (hlt : bits < bits') (hbits' : bits' < 2 ^ 63) : ¬ (ofBits bits').StartsBelow q := by
  intro h'
  obtain ⟨hle, hstrict⟩ := highest_le_lowest hlt hbits'
  have hlow : (ofBits bits').lowest ≤ q := by
    unfold StartsBelow at h'
    split at h'
    · exact h'
    · exact h'.le
  have hsame : (ofBits bits').lowest = (ofBits bits).highest :=
    le_antisymm (hlow.trans h.bounds.2) hle
  have hnext : bits' = bits + 1 := by
    by_contra hne
    exact absurd hsame (hstrict (by omega)).ne'
  have hparity := mantissa_ofBits (hlt.trans hbits')
  have hparity' := mantissa_ofBits hbits'
  unfold Inside at h
  unfold StartsBelow at h'
  split at h
  · rw [if_neg (by omega)] at h'
    linarith
  · linarith

/-- Below a number start the magnitude that it is read as and all lesser ones. -/
theorem Inside.startsBelow_iff {bits bits' : Nat} {q : ℚ} (h : (ofBits bits).Inside q)
    (hbits : bits < 2 ^ 63) (hbits' : bits' < 2 ^ 63) :
    (ofBits bits').StartsBelow q ↔ bits' ≤ bits := by
  constructor
  · intro h'
    by_contra hlt
    exact h.not_startsBelow (not_le.mp hlt) hbits' h'
  · intro hle
    rcases hle.eq_or_lt with rfl | hlt
    · exact h.startsBelow
    · have hlow : (ofBits bits').lowest < q :=
        (lowest_lt_highest _).trans_le ((highest_le_lowest hlt hbits).1.trans h.bounds.1)
      unfold StartsBelow
      split
      · exact hlow.le
      · exact hlow

/-- No number reads as two magnitudes. -/
theorem inside_unique {bits bits' : Nat} {q : ℚ} (hbits : bits < 2 ^ 63) (hbits' : bits' < 2 ^ 63)
    (h : (ofBits bits).Inside q) (h' : (ofBits bits').Inside q) : bits = bits' :=
  le_antisymm ((h'.startsBelow_iff hbits' hbits).mp h.startsBelow)
    ((h.startsBelow_iff hbits hbits').mp h'.startsBelow)

/-- Different magnitudes have different shortest decimals. -/
theorem shortest_injective {bits bits' : Nat} (hbits : bits < 2 ^ 63) (hbits' : bits' < 2 ^ 63)
    (h : (ofBits bits).shortest.value = (ofBits bits').shortest.value) : bits = bits' :=
  inside_unique hbits hbits' (inside_shortest (ofDouble_ofBits hbits))
    (h ▸ inside_shortest (ofDouble_ofBits hbits'))

end BinaryQuadratic.Text.Magnitude
