import BinaryQuadratic.Size
import Mathlib

namespace BinaryQuadratic.PositiveSize

/-- Digits that can be appended to `n` within 64 bits. -/
structure Fits (n : Nat) (ds : List Char) : Prop where
  digits : ∀ d ∈ ds, d.isDigit = true
  bound : Nat.ofDigitChars 10 ds n < Word.bound

/-- Numbers do not get smaller as they are read. -/
theorem le_ofDigitChars (n : Nat) (ds : List Char) : n ≤ Nat.ofDigitChars 10 ds n := by
  induction ds generalizing n with
  | nil => simp
  | cons d ds ih =>
    rw [Nat.ofDigitChars_cons]
    exact le_trans (by omega) (ih _)

theorem fits_nil {n : Nat} : Fits n [] ↔ n < Word.bound :=
  ⟨fun h => by simpa using h.bound, fun h => ⟨by simp, by simpa using h⟩⟩

theorem fits_cons {n : Nat} {d : Char} {ds : List Char} :
    Fits n (d :: ds) ↔ d.isDigit = true ∧ Fits (10 * n + (d.toNat - '0'.toNat)) ds := by
  constructor
  · intro h
    exact ⟨h.digits d (by simp), fun c hc => h.digits c (by simp [hc]),
      by simpa [Nat.ofDigitChars_cons] using h.bound⟩
  · rintro ⟨hd, h⟩
    exact ⟨List.forall_mem_cons.mpr ⟨hd, h.digits⟩,
      by simpa [Nat.ofDigitChars_cons] using h.bound⟩

theorem appendDigits_cons {n : Nat} {d : Char} (hd : d.isDigit = true) (cs : List Char) :
    appendDigits n (d :: cs) =
      if 10 * n + (d.toNat - '0'.toNat) < Word.bound
        then appendDigits (10 * n + (d.toNat - '0'.toNat)) cs else .error .overflow := by
  rw [appendDigits, if_pos hd, Nat.mul_comm]

/-- What fits is read, and the rest is appended to it. -/
theorem appendDigits_append {n : Nat} {ds : List Char} (h : Fits n ds) (cs : List Char) :
    appendDigits n (ds ++ cs) = appendDigits (Nat.ofDigitChars 10 ds n) cs := by
  induction ds generalizing n with
  | nil => simp
  | cons d ds ih =>
    obtain ⟨hd, hds⟩ := fits_cons.mp h
    have hn := (le_ofDigitChars _ ds).trans_lt hds.bound
    rw [List.cons_append, appendDigits_cons hd, if_pos hn, ih hds, Nat.ofDigitChars_cons]

/-- Why `c` cannot be appended to what has been read before it. -/
inductive Fault (n : Nat) (read : List Char) (c : Char) : DigitError → Prop
  | invalidDigit (other : c.isDigit = false) : Fault n read c .invalidDigit
  | overflow (digit : c.isDigit = true)
      (large : Word.bound ≤ Nat.ofDigitChars 10 (read ++ [c]) n) : Fault n read c .overflow

theorem fault_cons {n : Nat} {d c : Char} {read : List Char} {e : DigitError}
    (h : Fault (10 * n + (d.toNat - '0'.toNat)) read c e) : Fault n (d :: read) c e := by
  cases h with
  | invalidDigit other => exact .invalidDigit other
  | overflow digit large => exact .overflow digit (by rwa [List.cons_append, Nat.ofDigitChars_cons])

/-- Unless all of a text fits, there is a first character of it that does not. -/
theorem fits_or_fault {n : Nat} (hn : n < Word.bound) (cs : List Char) :
    Fits n cs ∨ ∃ read c rest e, cs = read ++ c :: rest ∧ Fits n read ∧ Fault n read c e := by
  induction cs generalizing n with
  | nil => exact .inl (fits_nil.mpr hn)
  | cons c cs ih =>
    cases hc : c.isDigit with
    | false => exact .inr ⟨[], c, cs, _, rfl, fits_nil.mpr hn, .invalidDigit hc⟩
    | true =>
      by_cases hlt : 10 * n + (c.toNat - '0'.toNat) < Word.bound
      · rcases ih hlt with h | ⟨read, c', rest, e, rfl, hread, hfault⟩
        · exact .inl (fits_cons.mpr ⟨hc, h⟩)
        · exact .inr ⟨c :: read, c', rest, e, rfl, fits_cons.mpr ⟨hc, hread⟩, fault_cons hfault⟩
      · refine .inr ⟨[], c, cs, _, rfl, fits_nil.mpr hn, .overflow hc ?_⟩
        simpa [Nat.ofDigitChars_cons] using hlt

theorem appendDigits_of_fits {n : Nat} {cs : List Char} (h : Fits n cs) :
    appendDigits n cs = .ok (Nat.ofDigitChars 10 cs n) := by
  have hall := appendDigits_append h []
  rwa [List.append_nil] at hall

theorem appendDigits_of_fault {n : Nat} {read : List Char} {c : Char} {e : DigitError}
    (h : Fits n read) (hfault : Fault n read c e) (rest : List Char) :
    appendDigits n (read ++ c :: rest) = .error e := by
  rw [appendDigits_append h]
  cases hfault with
  | invalidDigit other => simp [appendDigits, other]
  | overflow digit large =>
    rw [Nat.ofDigitChars_append, Nat.ofDigitChars_cons, Nat.ofDigitChars_nil] at large
    rw [appendDigits_cons digit, if_neg (by omega)]

theorem appendDigits_eq_ok {n m : Nat} (hn : n < Word.bound) {cs : List Char} :
    appendDigits n cs = .ok m ↔ Fits n cs ∧ Nat.ofDigitChars 10 cs n = m := by
  constructor
  · intro h
    rcases fits_or_fault hn cs with hfits | ⟨read, c, rest, e, rfl, hread, hfault⟩
    · rw [appendDigits_of_fits hfits] at h
      exact ⟨hfits, Except.ok.inj h⟩
    · rw [appendDigits_of_fault hread hfault] at h
      cases h
  · rintro ⟨hfits, rfl⟩
    exact appendDigits_of_fits hfits

theorem appendDigits_eq_error {n : Nat} (hn : n < Word.bound) {cs : List Char} {e : DigitError} :
    appendDigits n cs = .error e ↔
      ∃ read c rest, cs = read ++ c :: rest ∧ Fits n read ∧ Fault n read c e := by
  constructor
  · intro h
    rcases fits_or_fault hn cs with hfits | ⟨read, c, rest, e', rfl, hread, hfault⟩
    · rw [appendDigits_of_fits hfits] at h
      cases h
    · rw [appendDigits_of_fault hread hfault] at h
      cases h
      exact ⟨read, c, rest, rfl, hread, hfault⟩
  · rintro ⟨read, c, rest, rfl, hread, hfault⟩
    exact appendDigits_of_fault hread hfault rest

/-- One plus sign or none. -/
def IsSign (cs : List Char) : Prop :=
  cs = [] ∨ cs = ['+']

/-- One or more digits, of which zeros may lead, after one plus sign or none. -/
def Denotes (cs : List Char) (n : Nat) : Prop :=
  ∃ sign ds, cs = sign ++ ds ∧ IsSign sign ∧ ds ≠ [] ∧ (∀ d ∈ ds, d.isDigit = true) ∧
    Nat.ofDigitChars 10 ds 0 = n

/-- What can be read without a fault: nothing yet, a sign, or a number of 64 bits. -/
def Begun (cs : List Char) : Prop :=
  IsSign cs ∨ ∃ n < Word.bound, Denotes cs n

theorem fits_zero_nil : Fits 0 [] :=
  fits_nil.mpr (by decide)

theorem begun_iff {cs : List Char} :
    Begun cs ↔ ∃ sign ds, cs = sign ++ ds ∧ IsSign sign ∧ Fits 0 ds := by
  constructor
  · rintro (hsign | ⟨n, hn, sign, ds, rfl, hsign, -, hdigits, rfl⟩)
    · exact ⟨cs, [], by simp, hsign, fits_zero_nil⟩
    · exact ⟨sign, ds, rfl, hsign, hdigits, hn⟩
  · rintro ⟨sign, ds, rfl, hsign, hfits⟩
    by_cases hds : ds = []
    · exact .inl (by simpa [hds] using hsign)
    · exact .inr ⟨_, hfits.bound, sign, ds, rfl, hsign, hds, hfits.digits, rfl⟩

/-- A plus sign is no digit, so that it is told apart from the digits after it. -/
theorem sign_unique {sign sign' ds ds' : List Char} (hsign : IsSign sign) (hsign' : IsSign sign')
    (hds : ∀ d ∈ ds, d.isDigit = true) (hds' : ∀ d ∈ ds', d.isDigit = true)
    (h : sign ++ ds = sign' ++ ds') : sign = sign' ∧ ds = ds' := by
  have hplus : '+'.isDigit = false := rfl
  rcases hsign with rfl | rfl <;> rcases hsign' with rfl | rfl
  · exact ⟨rfl, h⟩
  · have hd := hds '+' (by rw [List.nil_append] at h; simp [h])
    simp [hplus] at hd
  · have hd := hds' '+' (by rw [List.nil_append] at h; simp [← h])
    simp [hplus] at hd
  · exact ⟨rfl, List.append_cancel_left h⟩

theorem digits_append {sign ds : List Char} (hsign : IsSign sign) (hne : ds ≠ [])
    (hplus : sign = [] → ds.head? ≠ some '+') : digits (sign ++ ds) = appendDigits 0 ds := by
  obtain _ | ⟨d, ds⟩ := ds
  · exact absurd rfl hne
  rcases hsign with rfl | rfl
  · have hd : d ≠ '+' := by simpa using hplus rfl
    simp [digits, hd]
  · simp [digits]

/-- A number starts after the sign. -/
theorem digits_cases (cs : List Char) : cs = [] ∨ cs = ['+'] ∨
    ∃ sign ds, cs = sign ++ ds ∧ IsSign sign ∧ ds ≠ [] ∧ (sign = [] → ds.head? ≠ some '+') := by
  rcases cs with _ | ⟨c, _ | ⟨d, cs⟩⟩
  · exact .inl rfl
  · by_cases hc : c = '+'
    · exact .inr (.inl (by rw [hc]))
    · exact .inr (.inr ⟨[], [c], rfl, .inl rfl, by simp, by simpa using hc⟩)
  · by_cases hc : c = '+'
    · exact .inr (.inr ⟨['+'], d :: cs, by simp [hc], .inr rfl, by simp, by simp⟩)
    · exact .inr (.inr ⟨[], c :: d :: cs, rfl, .inl rfl, by simp, by simpa using hc⟩)

theorem head?_append_ne_plus {ds : List Char} {c : Char} (hds : ∀ d ∈ ds, d.isDigit = true)
    (hc : ds = [] → c ≠ '+') (rest : List Char) : (ds ++ c :: rest).head? ≠ some '+' := by
  cases ds with
  | nil => simpa using hc
  | cons d ds =>
    intro hd
    have hdigit := hds d (by simp)
    rw [Option.some.inj hd] at hdigit
    cases hdigit

theorem digits_eq_ok {cs : List Char} {n : Nat} :
    digits cs = .ok n ↔ Denotes cs n ∧ n < Word.bound := by
  constructor
  · intro h
    rcases digits_cases cs with rfl | rfl | ⟨sign, ds, rfl, hsign, hne, hplus⟩
    · cases h
    · cases h
    · rw [digits_append hsign hne hplus] at h
      obtain ⟨hfits, rfl⟩ := (appendDigits_eq_ok (by decide)).mp h
      exact ⟨⟨sign, ds, rfl, hsign, hne, hfits.digits, rfl⟩, hfits.bound⟩
  · rintro ⟨⟨sign, ds, rfl, hsign, hne, hds, rfl⟩, hn⟩
    rw [digits_append hsign hne (fun _ hd => nomatch hds _ (List.mem_of_head? hd))]
    exact appendDigits_of_fits ⟨hds, hn⟩

theorem digits_error_cases {cs : List Char} {e : DigitError} (h : digits cs = .error e) :
    (cs = [] ∧ e = .empty) ∨ (cs = ['+'] ∧ e = .invalidDigit) ∨
      ∃ sign read c rest, cs = sign ++ read ++ c :: rest ∧ IsSign sign ∧ Fits 0 read ∧
        (sign ++ read = [] → c ≠ '+') ∧ Fault 0 read c e := by
  rcases digits_cases cs with rfl | rfl | ⟨sign, ds, rfl, hsign, hne, hplus⟩
  · exact .inl ⟨rfl, (Except.error.inj h).symm⟩
  · exact .inr (.inl ⟨rfl, (Except.error.inj h).symm⟩)
  · rw [digits_append hsign hne hplus] at h
    obtain ⟨read, c, rest, rfl, hread, hfault⟩ := (appendDigits_eq_error (by decide)).mp h
    refine .inr (.inr ⟨sign, read, c, rest, by simp, hsign, hread, ?_, hfault⟩)
    rintro hnil rfl
    obtain ⟨rfl, rfl⟩ := List.append_eq_nil_iff.mp hnil
    exact hplus rfl rfl

theorem digits_eq_empty {cs : List Char} : digits cs = .error .empty ↔ cs = [] := by
  constructor
  · intro h
    rcases digits_error_cases h with ⟨hnil, _⟩ | ⟨_, he⟩ | ⟨_, _, _, _, _, _, _, _, hfault⟩
    · exact hnil
    · cases he
    · cases hfault
  · rintro rfl
    rfl

theorem digits_eq_overflow {cs : List Char} : digits cs = .error .overflow ↔
    ∃ read c rest, cs = read ++ c :: rest ∧ Begun read ∧
      ∃ n, Word.bound ≤ n ∧ Denotes (read ++ [c]) n := by
  constructor
  · intro h
    rcases digits_error_cases h with
      ⟨_, he⟩ | ⟨_, he⟩ | ⟨sign, read, c, rest, rfl, hsign, hread, _, hfault⟩
    · cases he
    · cases he
    · cases hfault with
      | overflow digit large =>
        have hdigits : ∀ d ∈ read ++ [c], d.isDigit = true :=
          List.forall_mem_append.mpr ⟨hread.digits, by simpa using digit⟩
        exact ⟨sign ++ read, c, rest, rfl, begun_iff.mpr ⟨sign, read, rfl, hsign, hread⟩,
          _, large, sign, read ++ [c], by simp, hsign, by simp, hdigits, rfl⟩
  · rintro ⟨read, c, rest, rfl, hbegun, _, large, sign', ds', heq, hsign', hne, hds', rfl⟩
    obtain ⟨sign, ds, rfl, hsign, hfits⟩ := begun_iff.mp hbegun
    obtain ⟨ds', c', rfl⟩ := (List.eq_nil_or_concat' ds').resolve_left hne
    rw [← List.append_assoc] at heq
    obtain ⟨hread, hc⟩ := List.append_inj' heq rfl
    obtain ⟨hread', hlast⟩ := List.forall_mem_append.mp hds'
    obtain ⟨rfl, rfl⟩ := sign_unique hsign hsign' hfits.digits hread' hread
    obtain rfl : c = c' := by simpa using hc
    have hdigit : c.isDigit = true := hlast c (by simp)
    rw [List.append_assoc, digits_append hsign (by simp) (fun _ =>
      head?_append_ne_plus hread' (fun _ hplus => nomatch hplus ▸ hdigit) rest)]
    exact appendDigits_of_fault hfits (.overflow hdigit large) rest

theorem digits_eq_invalidDigit {cs : List Char} : digits cs = .error .invalidDigit ↔
    ∃ read c rest, cs = read ++ c :: rest ∧ Begun read ∧ c.isDigit = false ∧
      (read = [] → c = '+' → rest = []) := by
  constructor
  · intro h
    rcases digits_error_cases h with
      ⟨_, he⟩ | ⟨rfl, _⟩ | ⟨sign, read, c, rest, rfl, hsign, hread, hplus, hfault⟩
    · cases he
    · exact ⟨[], '+', [], rfl, .inl (.inl rfl), rfl, fun _ _ => rfl⟩
    · cases hfault with
      | invalidDigit other =>
        exact ⟨sign ++ read, c, rest, rfl, begun_iff.mpr ⟨sign, read, rfl, hsign, hread⟩, other,
          fun hnil hc => absurd hc (hplus hnil)⟩
  · rintro ⟨read, c, rest, rfl, hbegun, other, hplus⟩
    obtain ⟨sign, ds, rfl, hsign, hfits⟩ := begun_iff.mp hbegun
    by_cases halone : sign ++ ds = [] ∧ c = '+'
    · rw [halone.1, halone.2, hplus halone.1 halone.2]
      rfl
    · rw [List.append_assoc, digits_append hsign (by simp) ?_]
      · exact appendDigits_of_fault hfits (.invalidDigit other) rest
      · rintro rfl
        exact head?_append_ne_plus hfits.digits (fun hds hc => halone ⟨by simp [hds], hc⟩) rest

theorem eq_of_toNat_eq {k k' : PositiveSize} (h : k.toNat = k'.toNat) : k = k' := by
  obtain ⟨value, _⟩ := k
  obtain ⟨value', _⟩ := k'
  obtain rfl : value = value' := UInt64.toNat_inj.mp h
  rfl

/-- The number that was read is the size, unless it is zero. -/
theorem parse_cases (text : String) :
    (∃ e, digits text.toList = .error e ∧ parse text = .error (.notInteger e)) ∨
      (digits text.toList = .ok 0 ∧ parse text = .error (.outOfBounds (.belowBound 0))) ∨
      ∃ k, digits text.toList = .ok k.toNat ∧ parse text = .ok k := by
  cases hread : digits text.toList with
  | error e => exact .inl ⟨e, rfl, by simp only [parse, hread]⟩
  | ok n =>
    have hword : (UInt64.ofNat n).toNat = n := UInt64.toNat_ofNat_of_lt' (digits_eq_ok.mp hread).2
    have hparse : parse text = (ofUInt64 (UInt64.ofNat n)).mapError .outOfBounds := by
      simp only [parse, hread]
    by_cases hpos : 0 < UInt64.ofNat n
    · refine .inr (.inr ⟨⟨UInt64.ofNat n, hpos⟩, congrArg _ hword.symm, ?_⟩)
      rw [hparse, ofUInt64, dif_pos hpos]
      rfl
    · have hzero : n = 0 := by
        rw [UInt64.lt_iff_toNat_lt, hword] at hpos
        simpa using hpos
      subst hzero
      exact .inr (.inl ⟨rfl, hparse⟩)

theorem parse_eq_ok {text : String} {k : PositiveSize} :
    parse text = .ok k ↔ digits text.toList = .ok k.toNat := by
  rcases parse_cases text with ⟨e, hread, hparse⟩ | ⟨hread, hparse⟩ | ⟨k', hread, hparse⟩
  · simp [hread, hparse]
  · simp [hread, hparse, k.toNat_pos.ne]
  · rw [hread, hparse, Except.ok.injEq, Except.ok.injEq]
    exact ⟨congrArg _, eq_of_toNat_eq⟩

theorem parse_eq_outOfBounds {text : String} {e : Error} :
    parse text = .error (.outOfBounds e) ↔ digits text.toList = .ok 0 ∧ e = .belowBound 0 := by
  rcases parse_cases text with ⟨e', hread, hparse⟩ | ⟨hread, hparse⟩ | ⟨k, hread, hparse⟩
  · simp [hread, hparse]
  · simp [hread, hparse, eq_comm]
  · simp [hread, hparse, k.toNat_pos.ne']

theorem parse_eq_notInteger {text : String} {e : DigitError} :
    parse text = .error (.notInteger e) ↔ digits text.toList = .error e := by
  rcases parse_cases text with ⟨e', hread, hparse⟩ | ⟨hread, hparse⟩ | ⟨k, hread, hparse⟩
  · simp [hread, hparse]
  · simp [hread, hparse]
  · simp [hread, hparse]

theorem denotes_text (k : PositiveSize) : Denotes k.text.toList k.toNat := by
  have hdigits : k.text.toList = Nat.toDigits 10 k.toNat := by
    rw [text, Nat.toString_eq_repr, Nat.toList_repr]
  rw [hdigits]
  exact ⟨[], _, rfl, .inl rfl, Nat.toDigits_ne_nil,
    fun d hd => Nat.isDigit_of_mem_toDigits (by decide) (by decide) hd,
    Nat.ofDigitChars_ten_toDigits⟩

theorem toNat_lt (k : PositiveSize) : k.toNat < Word.bound :=
  k.value.toNat_lt

/-- A text is read as a size exactly if it denotes one of 64 bits that is not zero. Of what is no
integer the first fault is reported, unless there is no text at all. -/
theorem parse_by_first_fault (text : String) :
    (∀ n, (∃ k, parse text = .ok k ∧ k.toNat = n) ↔
        Denotes text.toList n ∧ 1 ≤ n ∧ n < Word.bound) ∧
      (∀ e, parse text = .error (.outOfBounds e) ↔
        Denotes text.toList 0 ∧ e = .belowBound 0) ∧
      (parse text = .error (.notInteger .overflow) ↔
        ∃ read c rest, text.toList = read ++ c :: rest ∧ Begun read ∧
          ∃ n, Word.bound ≤ n ∧ Denotes (read ++ [c]) n) ∧
      (parse text = .error (.notInteger .invalidDigit) ↔
        ∃ read c rest, text.toList = read ++ c :: rest ∧ Begun read ∧ c.isDigit = false ∧
          (read = [] → c = '+' → rest = [])) ∧
      (parse text = .error (.notInteger .empty) ↔ text = "") ∧
      ∀ k : PositiveSize, parse k.text = .ok k := by
  refine ⟨fun n => ?_, fun e => ?_, parse_eq_notInteger.trans digits_eq_overflow,
    parse_eq_notInteger.trans digits_eq_invalidDigit, ?_, fun k => ?_⟩
  · constructor
    · rintro ⟨k, hk, rfl⟩
      obtain ⟨hdenotes, hlt⟩ := digits_eq_ok.mp (parse_eq_ok.mp hk)
      exact ⟨hdenotes, k.toNat_pos, hlt⟩
    · rintro ⟨hdenotes, hpos, hlt⟩
      have hword : (UInt64.ofNat n).toNat = n := UInt64.toNat_ofNat_of_lt' hlt
      have hk : 0 < UInt64.ofNat n := by
        rw [UInt64.lt_iff_toNat_lt, hword]
        exact hpos
      exact ⟨⟨UInt64.ofNat n, hk⟩,
        parse_eq_ok.mpr (digits_eq_ok.mpr ⟨by rwa [toNat, hword], by rwa [toNat, hword]⟩), hword⟩
  · rw [parse_eq_outOfBounds, digits_eq_ok]
    simp
  · rw [parse_eq_notInteger, digits_eq_empty]
    simp
  · exact parse_eq_ok.mpr (digits_eq_ok.mpr ⟨denotes_text k, k.toNat_lt⟩)

/-- An empty text has neither a bad character nor too many digits. -/
theorem parse_nothing : (∀ n, ¬ Denotes "".toList n) ∧
    parse "" = .error (.notInteger .empty) ∧
    parse "" ≠ .error (.notInteger .overflow) ∧
    parse "" ≠ .error (.notInteger .invalidDigit) := by
  refine ⟨?_, by decide, by decide, by decide⟩
  rintro n ⟨sign, ds, hempty, _, hne, _⟩
  exact hne (List.append_eq_nil_iff.mp hempty.symm).2

end BinaryQuadratic.PositiveSize
