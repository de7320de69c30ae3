import BinaryQuadratic.Proofs.Double
import BinaryQuadratic.Proofs.Text.Shortest

namespace BinaryQuadratic.Text

def signChars (x : Float) : List Char :=
  if x.toBits.toNat < Word.signedBound then [] else ['-']

theorem minus_of_mem_signChars {x : Float} : ∀ c ∈ signChars x, (c == '-') = true := by
  unfold signChars
  split <;> simp

/-- What is written after the sign. -/
def unsigned (layout : DecimalLayout) (x : Float) : List Char :=
  if x.isInf then "inf".toList
  else layout.write (Magnitude.ofBits (x.toBits.toNat % Word.signedBound)).shortest

variable {layout : DecimalLayout} {x y : Float}

theorem toList_double (h : x.isNaN = false) :
    (double layout x).toList = signChars x ++ unsigned layout x := by
  unfold double unsigned signChars
  dsimp only
  rw [h, if_neg Bool.false_ne_true]
  split <;> rw [String.toList_ofList]

theorem toList_double_of_isNaN (h : x.isNaN = true) :
    (double layout x).toList = ['N', 'a', 'N'] := by
  rw [double, if_pos h]
  rfl

theorem unsigned_of_isInf (h : x.isInf = true) : unsigned layout x = ['i', 'n', 'f'] := by
  rw [unsigned, if_pos h]
  rfl

theorem exists_digit_unsigned (h : x.isInf = false) :
    ∃ c cs, unsigned layout x = c :: cs ∧ c.isDigit = true := by
  rw [unsigned, h, if_neg Bool.false_ne_true]
  exact (layout.isNumeralOf_write _).exists_digit

theorem isRealChar_of_mem_unsigned {c : Char} (h : c ∈ unsigned layout x) : isRealChar c = true := by
  have hname : ∀ c ∈ ['i', 'n', 'f'], isRealChar c = true := by simp [isRealChar]
  cases hinf : x.isInf with
  | true => exact hname c (unsigned_of_isInf hinf ▸ h)
  | false =>
    rw [unsigned, hinf, if_neg Bool.false_ne_true] at h
    exact (layout.isNumeralOf_write _).isRealChar c h

theorem exists_mark_unsigned (layout : DecimalLayout) (x : Float) :
    ∃ c ∈ unsigned layout x, isIntegerChar c = false := by
  cases hinf : x.isInf with
  | true => exact ⟨'i', by rw [unsigned_of_isInf hinf]; simp, rfl⟩
  | false =>
    rw [unsigned, hinf, if_neg Bool.false_ne_true]
    exact (layout.isNumeralOf_write _).exists_mark

theorem isRealChar_of_mem_double {c : Char} (h : c ∈ (double layout x).toList) : isRealChar c = true := by
  have hname : ∀ c ∈ ['N', 'a', 'N'], isRealChar c = true := by simp [isRealChar]
  cases hnan : x.isNaN with
  | true => exact hname c (toList_double_of_isNaN hnan ▸ h)
  | false =>
    rw [toList_double hnan] at h
    rcases List.mem_append.mp h with h | h
    · rw [beq_iff_eq.mp (minus_of_mem_signChars c h)]
      rfl
    · exact isRealChar_of_mem_unsigned h

/-- No real is written like an integer. -/
theorem exists_mark_double (layout : DecimalLayout) (x : Float) :
    ∃ c ∈ (double layout x).toList, isIntegerChar c = false := by
  cases hnan : x.isNaN with
  | true => exact ⟨'N', by rw [toList_double_of_isNaN hnan]; simp, rfl⟩
  | false =>
    obtain ⟨c, hc, hmark⟩ := exists_mark_unsigned layout x
    exact ⟨c, by rw [toList_double hnan]; exact List.mem_append_right _ hc, hmark⟩

theorem unsigned_ne_minus (layout : DecimalLayout) (x : Float) :
    ∀ c ∈ (unsigned layout x).head?, (c == '-') = false := by
  intro c hc
  cases h : x.isInf with
  | true =>
    rw [unsigned_of_isInf h] at hc
    cases hc
    rfl
  | false =>
    obtain ⟨d, ds, hds, hdigit⟩ := exists_digit_unsigned h
    rw [hds] at hc
    cases hc
    exact beq_false_of_ne (fun he => nomatch he ▸ hdigit)

/-- Infinity has a name, which is not the text of a finite number. -/
theorem isInf_of_unsigned_eq (h : unsigned layout x = unsigned layout y) : x.isInf = y.isInf := by
  have hne {x y : Float} (hx : x.isInf = true) (hy : y.isInf = false) :
      unsigned layout x ≠ unsigned layout y := by
    obtain ⟨d, ds, hds, hdigit⟩ := exists_digit_unsigned hy
    rw [unsigned_of_isInf hx, hds]
    intro he
    cases (List.cons.inj he).1
    cases hdigit
  cases hx : x.isInf <;> cases hy : y.isInf
  · rfl
  · exact absurd h.symm (hne hy hx)
  · exact absurd h (hne hx hy)
  · rfl

theorem magnitude_of_unsigned_eq (hx : x.isNaN = false) (hy : y.isNaN = false)
    (h : unsigned layout x = unsigned layout y) :
    x.toBits.toNat % Word.signedBound = y.toBits.toNat % Word.signedBound := by
  have hinf := isInf_of_unsigned_eq h
  cases hxinf : x.isInf with
  | true =>
    rw [Double.toBits_of_isInf hx hxinf, Double.toBits_of_isInf hy (hinf ▸ hxinf)]
  | false =>
    rw [unsigned, unsigned, ← hinf, hxinf, if_neg Bool.false_ne_true,
      if_neg Bool.false_ne_true] at h
    exact Magnitude.shortest_injective (Nat.mod_lt _ (by decide)) (Nat.mod_lt _ (by decide))
      (DecimalLayout.value_of_write_eq h)

/-- No two numbers are written alike, not even the two zeros. -/
theorem double_injective (hx : x.isNaN = false) (hy : y.isNaN = false)
    (h : double layout x = double layout y) : x = y := by
  have hchars := congrArg String.toList h
  rw [toList_double hx, toList_double hy] at hchars
  obtain ⟨hsigns, hunsigned⟩ := run_unique minus_of_mem_signChars minus_of_mem_signChars
    (unsigned_ne_minus layout x) (unsigned_ne_minus layout y) hchars
  have hmagnitude := magnitude_of_unsigned_eq hx hy hunsigned
  have hbits : x.toBits = y.toBits := by
    apply UInt64.toNat_inj.mp
    have hxlt : x.toBits.toNat < 2 ^ 64 := x.toBits.toNat_lt
    have hylt : y.toBits.toNat < 2 ^ 64 := y.toBits.toNat_lt
    unfold signChars at hsigns
    unfold Word.signedBound at hmagnitude hsigns
    split at hsigns <;> split at hsigns
    · omega
    · cases hsigns
    · cases hsigns
    · omega
  rw [← Float.ofBits_toBits x, hbits, Float.ofBits_toBits y]

end BinaryQuadratic.Text
