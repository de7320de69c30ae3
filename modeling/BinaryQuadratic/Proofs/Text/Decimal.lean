import BinaryQuadratic.Proofs.Text.Lines
import BinaryQuadratic.Proofs.Text.Numerals
import BinaryQuadratic.Text.Decimal

namespace BinaryQuadratic.Text

/-- The number that digits denote, the first of which stands for a multiple of `10 ^ leading`. -/
def spelled (digits : List Char) (leading : Int) : ℚ :=
  Nat.ofDigitChars 10 digits 0 * 10 ^ (leading + 1 - digits.length)

theorem spelled_zeros_append (n : Nat) (digits : List Char) (leading : Int) :
    spelled (List.replicate n '0' ++ digits) leading = spelled digits (leading - n) := by
  rw [spelled, spelled, Nat.ofDigitChars_append, Nat.ofDigitChars_replicate_zero, Nat.mul_zero,
    List.length_append, List.length_replicate]
  congr 2
  push_cast
  ring

theorem spelled_append_zeros (n : Nat) (digits : List Char) (leading : Int) :
    spelled (digits ++ List.replicate n '0') leading = spelled digits leading := by
  rw [spelled, spelled, Nat.ofDigitChars_append, Nat.ofDigitChars_replicate_zero,
    List.length_append, List.length_replicate]
  have hexponent : leading + 1 - (digits.length + n : Nat) = leading + 1 - digits.length - n := by
    push_cast
    ring
  rw [hexponent, zpow_sub₀ (by norm_num), zpow_natCast]
  push_cast
  field_simp

/-- Digits, of which some may stand behind a point, and an exponent of ten. -/
structure Numeral where
  whole : List Char
  fraction : Option (List Char)
  exponent : Option Int

namespace Numeral

def chars (n : Numeral) : List Char :=
  n.whole ++ (n.fraction.elim [] ('.' :: ·) ++
    n.exponent.elim [] (fun k => 'e' :: (toString k).toList))

def value (n : Numeral) : ℚ :=
  spelled (n.whole ++ n.fraction.getD []) (n.exponent.getD 0 + n.whole.length - 1)

/-- There are digits before the point, of which only a single one may begin with a zero, and behind
it, and there is a point or an exponent. -/
structure Proper (n : Numeral) : Prop where
  nonempty : n.whole ≠ []
  whole : ∀ c ∈ n.whole, c.isDigit = true
  leading : n.whole = ['0'] ∨ n.whole.head? ≠ some '0'
  fraction : ∀ c ∈ n.fraction.getD [], c.isDigit = true
  fractional : n.fraction ≠ some []
  marked : n.fraction.isSome ∨ n.exponent.isSome

variable {n n' : Numeral}

theorem exponent_unique {k k' : Option Int}
    (h : k.elim [] (fun k => 'e' :: (toString k).toList) =
      k'.elim [] (fun k => 'e' :: (toString k).toList)) : k = k' := by
  cases k with
  | none =>
    cases k' with
    | none => rfl
    | some k' => cases h
  | some k =>
    cases k' with
    | none => cases h
    | some k' =>
      rw [toString_int_injective (String.toList_injective (List.cons.inj h).2)]

/-- An exponent begins with no digit. -/
theorem not_isDigit_exponent (k : Option Int) :
    ∀ c ∈ (k.elim [] (fun k => 'e' :: (toString k).toList)).head?, c.isDigit = false := by
  cases k with
  | none => simp
  | some k => simp

theorem fraction_unique {ds ds' : Option (List Char)} {k k' : Option Int}
    (hds : ∀ c ∈ ds.getD [], c.isDigit = true) (hds' : ∀ c ∈ ds'.getD [], c.isDigit = true)
    (h : ds.elim [] ('.' :: ·) ++ k.elim [] (fun k => 'e' :: (toString k).toList) =
      ds'.elim [] ('.' :: ·) ++ k'.elim [] (fun k => 'e' :: (toString k).toList)) :
    ds = ds' ∧ k = k' := by
  cases ds with
  | none =>
    cases ds' with
    | none => exact ⟨rfl, exponent_unique h⟩
    | some ds' => cases k <;> cases h
  | some ds =>
    cases ds' with
    | none => cases k' <;> cases h
    | some ds' =>
      obtain ⟨rfl, hexponent⟩ := run_unique hds hds' (not_isDigit_exponent k)
        (not_isDigit_exponent k') (List.cons.inj h).2
      exact ⟨rfl, exponent_unique hexponent⟩

/-- The digits before the point end there, or where there is none, before the exponent. -/
theorem not_isDigit_after_whole (n : Numeral) : ∀ c ∈ (n.fraction.elim [] ('.' :: ·) ++
    n.exponent.elim [] (fun k => 'e' :: (toString k).toList)).head?, c.isDigit = false := by
  cases n.fraction with
  | none => simpa using not_isDigit_exponent n.exponent
  | some ds => simp

/-- The parts of a numeral are seen from its characters. -/
theorem Proper.chars_injective (hn : n.Proper) (hn' : n'.Proper) (h : n.chars = n'.chars) :
    n = n' := by
  obtain ⟨hwhole, htail⟩ := run_unique hn.whole hn'.whole n.not_isDigit_after_whole
    n'.not_isDigit_after_whole h
  obtain ⟨hfraction, hexponent⟩ := fraction_unique hn.fraction hn'.fraction htail
  cases n
  cases n'
  simp_all

theorem Proper.isRealChar_of_mem (hn : n.Proper) {c : Char} (h : c ∈ n.chars) : isRealChar c = true := by
  have hdigit (h : c.isDigit = true) : isRealChar c = true :=
    isRealChar_of_integer (isIntegerChar_of_digit h)
  rcases List.mem_append.mp h with h | h
  · exact hdigit (hn.whole c h)
  rcases List.mem_append.mp h with h | h
  · have hall := hn.fraction c
    cases hfraction : n.fraction with
    | none => simp [hfraction] at h
    | some ds =>
      rw [hfraction] at h hall
      rcases List.mem_cons.mp h with rfl | h
      · rfl
      · exact hdigit (hall h)
  · cases hexponent : n.exponent with
    | none => simp [hexponent] at h
    | some k =>
      rw [hexponent] at h
      rcases List.mem_cons.mp h with rfl | h
      · rfl
      · exact isRealChar_of_integer (isIntegerChar_of_mem_toString h)

/-- A numeral is told from an integer by its point or its exponent. -/
theorem Proper.exists_mark (hn : n.Proper) : ∃ c ∈ n.chars, isIntegerChar c = false := by
  rcases hn.marked with h | h
  · obtain ⟨ds, hds⟩ := Option.isSome_iff_exists.mp h
    exact ⟨'.', by simp [chars, hds], rfl⟩
  · obtain ⟨k, hk⟩ := Option.isSome_iff_exists.mp h
    exact ⟨'e', by simp [chars, hk], rfl⟩

end Numeral

/-- Characters that are a numeral of `q`. -/
def IsNumeralOf (cs : List Char) (q : ℚ) : Prop :=
  ∃ n : Numeral, n.Proper ∧ cs = n.chars ∧ n.value = q

namespace IsNumeralOf
variable {cs : List Char} {q q' : ℚ}

theorem unique (h : IsNumeralOf cs q) (h' : IsNumeralOf cs q') : q = q' := by
  obtain ⟨n, hn, rfl, rfl⟩ := h
  obtain ⟨n', hn', hchars, rfl⟩ := h'
  rw [hn.chars_injective hn' hchars]

theorem isRealChar (h : IsNumeralOf cs q) : ∀ c ∈ cs, isRealChar c = true := by
  obtain ⟨n, hn, rfl, _⟩ := h
  exact fun c hc => hn.isRealChar_of_mem hc

theorem exists_mark (h : IsNumeralOf cs q) : ∃ c ∈ cs, isIntegerChar c = false := by
  obtain ⟨n, hn, rfl, _⟩ := h
  exact hn.exists_mark

/-- A numeral begins with a digit. -/
theorem exists_digit (h : IsNumeralOf cs q) : ∃ c tail, cs = c :: tail ∧ c.isDigit = true := by
  obtain ⟨n, hn, rfl, _⟩ := h
  obtain ⟨c, tail, hwhole⟩ := List.exists_cons_of_ne_nil hn.nonempty
  exact ⟨c, _, by rw [Numeral.chars, hwhole]; rfl, hn.whole c (by simp [hwhole])⟩

end IsNumeralOf

def Decimal.value (d : Decimal) : ℚ :=
  d.digits * 10 ^ d.exponent

namespace DecimalLayout

/-- Only zeros are dropped at the end. -/
theorem exists_zeros (cs : List Char) :
    ∃ n, cs = (cs.reverse.dropWhile (· == '0')).reverse ++ List.replicate n '0' := by
  have hzeros : ∀ c ∈ cs.reverse.takeWhile (· == '0'), c = '0' := fun c hc => by
    simpa using List.mem_takeWhile_imp hc
  refine ⟨(cs.reverse.takeWhile (· == '0')).length, ?_⟩
  rw [← List.reverse_replicate, ← List.eq_replicate_of_mem hzeros, ← List.reverse_append,
    List.takeWhile_append_dropWhile, List.reverse_reverse]

theorem value_eq_spelled (d : Decimal) : d.value =
    spelled (Nat.toDigits 10 d.digits) (d.exponent + (Nat.toDigits 10 d.digits).length - 1) := by
  rw [Decimal.value, spelled, Nat.ofDigitChars_ten_toDigits]
  congr 2
  ring

theorem isDigit_of_mem_significant {d : Decimal} {c : Char} (h : c ∈ (significant d).1) :
    c.isDigit = true := by
  simp only [significant] at h
  split at h
  · rw [List.mem_singleton.mp h]
    rfl
  · rw [List.mem_reverse] at h
    have hall : c ∈ Nat.toDigits 10 d.digits :=
      List.mem_reverse.mp ((List.dropWhile_sublist _).subset h)
    exact Nat.isDigit_of_mem_toDigits (by decide) (by decide) hall

theorem significant_ne_nil (d : Decimal) : (significant d).1 ≠ [] := by
  simp only [significant]
  split
  · simp
  · simp_all

/-- Only zero begins with a zero. -/
theorem head_significant (d : Decimal) :
    significant d = (['0'], 0) ∨ (significant d).1.head? ≠ some '0' := by
  obtain ⟨n, hn⟩ := exists_zeros (Nat.toDigits 10 d.digits)
  simp only [significant]
  split
  · exact .inl rfl
  · rename_i hkept
    rw [List.isEmpty_iff] at hkept
    have hdigits : d.digits ≠ 0 := fun hzero => hkept (by rw [hzero]; rfl)
    have hhead := head_toDigits hdigits
    rw [hn, List.head?_append_of_ne_nil _ hkept] at hhead
    exact .inr hhead

theorem value_significant (d : Decimal) :
    spelled (significant d).1 (significant d).2 = d.value := by
  obtain ⟨n, hn⟩ := exists_zeros (Nat.toDigits 10 d.digits)
  rw [value_eq_spelled]
  simp only [significant]
  split
  · rename_i hempty
    rw [List.isEmpty_iff] at hempty
    rw [hempty, List.nil_append] at hn
    rw [hn, spelled, spelled, Nat.ofDigitChars_replicate_zero]
    simp [Nat.ofDigitChars_cons]
  · have hspelled := spelled_append_zeros n
      ((Nat.toDigits 10 d.digits).reverse.dropWhile (· == '0')).reverse
      (d.exponent + (Nat.toDigits 10 d.digits).length - 1)
    rw [← hn] at hspelled
    exact hspelled.symm

theorem isDigit_of_mem_zeros {n : Nat} {c : Char} (h : c ∈ List.replicate n '0') :
    c.isDigit = true := by
  rw [List.eq_of_mem_replicate h]
  rfl

/-- Wherever the point stands, around it are the digits, and zeros after them. -/
theorem exists_zeros_around_point (digits : List Char) (width : Nat) : ∃ n,
    digits.take width ++ List.replicate (width - digits.length) '0' ++
      (if (digits.drop width).isEmpty then ['0'] else digits.drop width) =
        digits ++ List.replicate n '0' := by
  by_cases hshort : digits.length ≤ width
  · refine ⟨width - digits.length + 1, ?_⟩
    rw [List.drop_eq_nil_of_le hshort, List.take_of_length_le hshort, List.replicate_succ',
      List.isEmpty_nil, if_pos rfl, List.append_assoc]
  · have hdrop : digits.drop width ≠ [] := by simpa using hshort
    have hnone : width - digits.length = 0 := by omega
    refine ⟨0, ?_⟩
    rw [hnone, List.isEmpty_eq_false_iff.mpr hdrop, if_neg Bool.false_ne_true,
      List.replicate_zero, List.append_nil, List.append_nil, List.take_append_drop]

section
variable {digits : List Char} {leading : Int} (hne : digits ≠ [])
  (hdigits : ∀ c ∈ digits, c.isDigit = true)
include hne hdigits

theorem isNumeralOf_below_one (h : leading < 0) :
    IsNumeralOf (positional digits leading) (spelled digits leading) := by
  let zeros := (-leading - 1).toNat
  have hfraction : ∀ c ∈ List.replicate zeros '0' ++ digits, c.isDigit = true :=
    List.forall_mem_append.mpr ⟨fun _ => isDigit_of_mem_zeros, hdigits⟩
  have hfront : ['0'] ++ (List.replicate zeros '0' ++ digits) =
      List.replicate (zeros + 1) '0' ++ digits := by simp [List.replicate_succ]
  refine ⟨⟨['0'], some (List.replicate zeros '0' ++ digits), none⟩,
    ⟨by simp, by simp, .inl rfl, hfraction, by simp [hne], .inl rfl⟩, ?_, ?_⟩
  · rw [positional, if_pos h]
    simp [Numeral.chars, zeros]
  · rw [Numeral.value, Option.getD_some, hfront, spelled_zeros_append]
    congr 1
    simp only [Option.getD_none, List.length_singleton, zeros]
    omega

variable (hhead : (digits, leading) = (['0'], 0) ∨ digits.head? ≠ some '0')
include hhead

theorem isNumeralOf_from_one (h : ¬ leading < 0) :
    IsNumeralOf (positional digits leading) (spelled digits leading) := by
  let width := leading.toNat + 1
  let whole := digits.take width ++ List.replicate (width - digits.length) '0'
  let fraction := if (digits.drop width).isEmpty then ['0'] else digits.drop width
  obtain ⟨n, hn⟩ : ∃ n, whole ++ fraction = digits ++ List.replicate n '0' :=
    exists_zeros_around_point digits width
  have hall : ∀ c ∈ whole ++ fraction, c.isDigit = true := by
    rw [hn]
    exact List.forall_mem_append.mpr ⟨hdigits, fun _ => isDigit_of_mem_zeros⟩
  obtain ⟨hwhole, hfraction⟩ := List.forall_mem_append.mp hall
  have hlength : whole.length = width := by simp [whole]; omega
  have hstart : whole = ['0'] ∨ whole.head? ≠ some '0' := by
    rcases hhead with hzero | hhead
    · obtain ⟨rfl, rfl⟩ := Prod.mk.inj hzero
      exact .inl rfl
    · have htake : digits.take width ≠ [] := by simp [hne, width]
      refine .inr ?_
      rwa [List.head?_append_of_ne_nil _ htake, List.head?_take, if_neg (Nat.succ_ne_zero _)]
  have hdecimals : fraction ≠ [] := by
    simp only [fraction]
    split <;> simp_all
  refine ⟨⟨whole, some fraction, none⟩, ⟨List.ne_nil_of_length_pos (by rw [hlength]; omega),
    hwhole, hstart, hfraction, by simpa using hdecimals, .inl rfl⟩, ?_, ?_⟩
  · rw [positional, if_neg h]
    simp [Numeral.chars, whole, fraction, width]
  · have hleading : (none : Option Int).getD 0 + whole.length - 1 = leading := by
      rw [hlength, Option.getD_none]
      omega
    rw [Numeral.value, hleading, Option.getD_some, hn, spelled_append_zeros]

theorem isNumeralOf_positional :
    IsNumeralOf (positional digits leading) (spelled digits leading) := by
  by_cases h : leading < 0
  · exact isNumeralOf_below_one hne hdigits h
  · exact isNumeralOf_from_one hne hdigits hhead h

omit hhead in
theorem isNumeralOf_scientific :
    IsNumeralOf (scientific digits leading) (spelled digits leading) := by
  obtain ⟨d, ds, rfl⟩ := List.exists_cons_of_ne_nil hne
  obtain ⟨hd, hds⟩ := List.forall_mem_cons.mp hdigits
  have hstart : [d] = ['0'] ∨ [d].head? ≠ some '0' := by
    by_cases hzero : d = '0'
    · exact .inl (by rw [hzero])
    · exact .inr (by simpa using hzero)
  cases ds with
  | nil =>
    refine ⟨⟨[d], none, some leading⟩,
      ⟨by simp, by simpa using hd, hstart, by simp, by simp, .inr rfl⟩,
      by simp [scientific, Numeral.chars], ?_⟩
    simp [Numeral.value]
  | cons e rest =>
    refine ⟨⟨[d], some (e :: rest), some leading⟩,
      ⟨by simp, by simpa using hd, hstart, hds, by simp, .inr rfl⟩,
      by simp [scientific, Numeral.chars], ?_⟩
    simp [Numeral.value]

end

/-- A decimal is written as a numeral of its value. -/
theorem isNumeralOf_write (layout : DecimalLayout) (d : Decimal) :
    IsNumeralOf (layout.write d) d.value := by
  have hne := significant_ne_nil d
  have hdigits : ∀ c ∈ (significant d).1, c.isDigit = true :=
    fun _ => isDigit_of_mem_significant
  rw [← value_significant]
  unfold write
  dsimp only
  split
  · exact isNumeralOf_positional hne hdigits (head_significant d)
  · exact isNumeralOf_scientific hne hdigits

/-- Decimals that are written alike are the same number. -/
theorem value_of_write_eq {layout : DecimalLayout} {d d' : Decimal}
    (h : layout.write d = layout.write d') : d.value = d'.value :=
  (isNumeralOf_write layout d).unique (h ▸ isNumeralOf_write layout d')

end DecimalLayout

end BinaryQuadratic.Text
