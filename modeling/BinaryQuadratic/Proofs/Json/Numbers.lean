import BinaryQuadratic.Proofs.Json.Tokens
import BinaryQuadratic.Proofs.Text.Nearest
import BinaryQuadratic.Proofs.Text.Real

namespace BinaryQuadratic.Json.Reader

/-- Digits are read up to the first other character. -/
theorem digits?_append {ds rest : List Char} (hne : ds ≠ []) (hds : ∀ c ∈ ds, c.isDigit = true)
    (hrest : ∀ c ∈ rest.head?, c.isDigit = false) : digits? (ds ++ rest) = some (ds, rest) := by
  have hstop : rest.takeWhile Char.isDigit = [] ∧ rest.dropWhile Char.isDigit = rest := by
    cases rest with
    | nil => exact ⟨rfl, rfl⟩
    | cons c cs =>
      have hc : c.isDigit = false := hrest c rfl
      simp [hc]
  have htake : (ds ++ rest).takeWhile Char.isDigit = ds := by
    rw [List.takeWhile_append_of_pos hds, hstop.1, List.append_nil]
  have hdrop : (ds ++ rest).dropWhile Char.isDigit = rest := by
    rw [List.dropWhile_append_of_pos hds, hstop.2]
  simp [digits?, htake, hdrop, hne]

theorem isDigit_of_mem_toDigits (n : Nat) : ∀ c ∈ Nat.toDigits 10 n, c.isDigit = true :=
  fun _ hc => Nat.isDigit_of_mem_toDigits (by decide) (by decide) hc

theorem digits?_toDigits (n : Nat) :
    digits? (Nat.toDigits 10 n) = some (Nat.toDigits 10 n, []) := by
  have hread : digits? (Nat.toDigits 10 n ++ []) = some (Nat.toDigits 10 n, []) :=
    digits?_append Nat.toDigits_ne_nil (isDigit_of_mem_toDigits n) (by simp)
  rwa [List.append_nil] at hread

theorem ofDigits_eq (ds : List Char) : ofDigits ds = Nat.ofDigitChars 10 ds 0 := by
  rw [Nat.ofDigitChars_eq_foldl]
  simp only [ofDigits, Nat.mul_comm]

theorem ofDigits_toDigits (n : Nat) : ofDigits (Nat.toDigits 10 n) = n := by
  rw [ofDigits_eq, Nat.ofDigitChars_ten_toDigits]

/-- Only a single digit before the point may be a zero at the front. -/
theorem whole?_append {ds rest : List Char} (hne : ds ≠ []) (hds : ∀ c ∈ ds, c.isDigit = true)
    (hleading : ds = ['0'] ∨ ds.head? ≠ some '0') (hrest : ∀ c ∈ rest.head?, c.isDigit = false) :
    whole? (ds ++ rest) = some (ds, rest) := by
  rcases hleading with rfl | hleading
  · have hnone : rest.head?.any Char.isDigit = false := by
      cases rest with
      | nil => rfl
      | cons c cs => simpa using hrest c rfl
    simp [whole?, hnone]
  · rw [whole?]
    · exact digits?_append hne hds hrest
    · intro tail he
      obtain ⟨d, ds, rfl⟩ := List.exists_cons_of_ne_nil hne
      exact hleading (congrArg some (List.cons.inj he).1)

/-- The digits of an integer may stand at the front of a number. -/
theorem leading_toDigits (n : Nat) :
    Nat.toDigits 10 n = ['0'] ∨ (Nat.toDigits 10 n).head? ≠ some '0' := by
  by_cases hn : n = 0
  · exact .inl (by rw [hn]; rfl)
  · exact .inr (Text.head_toDigits hn)

theorem exponent?_toString (k : Int) :
    exponent? ('e' :: (toString k).toList) = some (some k, []) := by
  cases k with
  | ofNat n =>
    have hhead {c : Char} (hc : c.isDigit = false) : ∀ tail, Nat.toDigits 10 n ≠ c :: tail := by
      intro tail he
      have hdigit := isDigit_of_mem_toDigits n c (he ▸ List.mem_cons_self)
      simp [hc] at hdigit
    rw [Text.toList_ofNat, exponent?]
    · simp [digits?_toDigits, ofDigits_toDigits]
    · exact hhead rfl
    · exact hhead rfl
  | negSucc n =>
    rw [Text.toList_negSucc, exponent?]
    simp [digits?_toDigits, ofDigits_toDigits, Int.negSucc_eq]

/-- Digits alone make an integer, as far as 64 bits reach. -/
theorem magnitude?_toDigits (negative : Bool) (n : Nat) :
    magnitude? negative (Nat.toDigits 10 n) = some (integer negative n, []) := by
  have hwhole : whole? (Nat.toDigits 10 n ++ []) = some (Nat.toDigits 10 n, []) :=
    whole?_append Nat.toDigits_ne_nil (isDigit_of_mem_toDigits n) (leading_toDigits n) (by simp)
  rw [List.append_nil] at hwhole
  simp [magnitude?, hwhole, fraction?, exponent?, ofDigits_toDigits]

/-- The decimal that is read from a numeral. -/
def decimalOf (n : Text.Numeral) : Text.Decimal :=
  ⟨ofDigits (n.whole ++ n.fraction.getD []), n.exponent.getD 0 - (n.fraction.getD []).length⟩

theorem value_decimalOf (n : Text.Numeral) : (decimalOf n).value = n.value := by
  rw [Text.Decimal.value, Text.Numeral.value, Text.spelled, decimalOf, ofDigits_eq]
  congr 2
  rw [List.length_append]
  push_cast
  ring

theorem fraction?_append {fraction : Option (List Char)}
    (hfraction : ∀ c ∈ fraction.getD [], c.isDigit = true) (hne : fraction ≠ some [])
    (k : Option Int) : fraction? (fraction.elim [] ('.' :: ·) ++
      k.elim [] (fun k => 'e' :: (toString k).toList)) =
        some (fraction.getD [], k.elim [] (fun k => 'e' :: (toString k).toList)) := by
  cases fraction with
  | none => cases k <;> rfl
  | some ds =>
    exact digits?_append (fun he => hne (congrArg some he)) hfraction
      (Text.Numeral.not_isDigit_exponent k)

/-- A numeral is read as a real, by its point or its exponent. -/
theorem magnitude?_chars (negative : Bool) {n : Text.Numeral} (hn : n.Proper) :
    magnitude? negative n.chars = some (real negative (decimalOf n), []) := by
  have hwhole : whole? n.chars = some (n.whole, _) :=
    whole?_append hn.nonempty hn.whole hn.leading n.not_isDigit_after_whole
  have hexponent : exponent? (n.exponent.elim [] (fun k => 'e' :: (toString k).toList)) =
      some (n.exponent, []) := by
    cases n.exponent with
    | none => rfl
    | some k => exact exponent?_toString k
  have hreal : ((n.fraction.getD []).isEmpty && n.exponent.isNone) = false := by
    have hmarked := hn.marked
    have hfractional := hn.fractional
    cases hf : n.fraction <;> cases hk : n.exponent <;> simp_all
  simp only [magnitude?, hwhole, bind, Option.bind_some,
    fraction?_append hn.fraction hn.fractional, hexponent, hreal]
  rfl

/-- What begins with a digit has no sign. -/
theorem number?_of_head {cs : List Char} (h : ∀ c ∈ cs.head?, c.isDigit = true) :
    number? cs = magnitude? false cs := by
  rw [number?]
  intro tail he
  have hdigit := h '-' (by rw [he]; rfl)
  exact absurd hdigit (by decide)

/-- What is written for an integer of 64 bits, signed or not, is read as that integer. -/
theorem number?_toString {n : Int} (hlow : -Word.signedBound ≤ n) (hhigh : n < Word.bound) :
    number? (toString n).toList = some (.int n, []) := by
  cases n with
  | ofNat m =>
    have hm : m < Word.bound := Int.ofNat_lt.mp hhigh
    have hdigit : ∀ c ∈ (Nat.toDigits 10 m).head?, c.isDigit = true :=
      fun c hc => isDigit_of_mem_toDigits m c (List.mem_of_mem_head? hc)
    rw [Text.toList_ofNat, number?_of_head hdigit, magnitude?_toDigits, integer]
    simp [hm]
  | negSucc m =>
    have hm : m + 1 ≤ Word.signedBound := by omega
    rw [Text.toList_negSucc, number?, magnitude?_toDigits, integer]
    simp [hm, Int.negSucc_eq]

/-- A decimal that reads as the magnitude of a finite double is read as that double, if the sign is
the same. -/
theorem real_eq {x : Float} (h : x.isFinite = true) {d : Text.Decimal}
    (hd : (Text.Magnitude.ofBits (x.toBits.toNat % Word.signedBound)).Inside d.value) :
    real (decide (Word.signedBound ≤ x.toBits.toNat)) d = float x := by
  have hnearest : d.nearest = x.toBits.toNat % Word.signedBound :=
    Text.Decimal.nearest_eq hd (Nat.mod_lt _ (by decide))
  have hbits : (if decide (Word.signedBound ≤ x.toBits.toNat) = true
      then Word.signedBound + x.toBits.toNat % Word.signedBound
      else x.toBits.toNat % Word.signedBound) = x.toBits.toNat := by
    have hword : x.toBits.toNat < 2 ^ 64 := x.toBits.toNat_lt
    unfold Word.signedBound
    split <;> rename_i hsign <;> rw [decide_eq_true_eq] at hsign <;> omega
  have hfinite : x.toBits.toNat % Word.signedBound < Text.Magnitude.infinite :=
    Double.toBits_of_isFinite h
  simp only [real, hnearest, hfinite, ↓reduceIte, hbits]
  rw [UInt64.ofNat_toNat, Float.ofBits_toBits]

/-- What is written for a finite double is read as that double, down to the sign of a zero. -/
theorem number?_double {layout : Text.DecimalLayout} {x : Float} (h : x.isFinite = true) :
    number? (Text.double layout x).toList = some (float x, []) := by
  obtain ⟨n, hn, hchars, hvalue⟩ := layout.isNumeralOf_write
    (Text.Magnitude.ofBits (x.toBits.toNat % Word.signedBound)).shortest
  have hread : real (decide (Word.signedBound ≤ x.toBits.toNat)) (decimalOf n) = float x := by
    apply real_eq h
    rw [value_decimalOf, hvalue]
    exact Text.Magnitude.inside_shortest
      (Text.Magnitude.ofDouble_ofBits (Nat.mod_lt _ (by decide)))
  have hdigit : ∀ c ∈ n.chars.head?, c.isDigit = true := by
    obtain ⟨c, tail, hwhole⟩ := List.exists_cons_of_ne_nil hn.nonempty
    have hc := hn.whole c (by simp [hwhole])
    simpa [Text.Numeral.chars, hwhole] using hc
  rw [Text.toList_double (Coefficient.isNaN_of_isFinite h), Text.unsigned,
    if_neg (by simp [Double.isInf_of_isFinite h]), hchars, Text.signChars]
  split
  · rename_i hsign
    rw [decide_eq_false (not_le.mpr hsign)] at hread
    rw [List.nil_append, number?_of_head hdigit, magnitude?_chars false hn, hread]
  · rename_i hsign
    rw [decide_eq_true (not_lt.mp hsign)] at hread
    rw [List.singleton_append, number?, magnitude?_chars true hn, hread]

end BinaryQuadratic.Json.Reader
