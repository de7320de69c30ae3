import BinaryQuadratic.Json.Reader
import BinaryQuadratic.Json.Writer
import Mathlib

namespace BinaryQuadratic.Json

/-- What can follow a value inside a text: nothing, or what separates or closes values. -/
def Ends (rest : List Char) : Prop :=
  ∀ c ∈ rest.head?, c = ',' ∨ c = ']' ∨ c = '}'

theorem Ends.nil : Ends [] :=
  fun _ hc => nomatch hc

theorem Ends.cons {c : Char} (h : c = ',' ∨ c = ']' ∨ c = '\x7d') (cs : List Char) :
    Ends (c :: cs) := by
  intro d hd
  cases hd
  exact h

namespace Reader

/-- Where a token is read, it is also read in front of `rest`, and no further. -/
def Stops (rest : List Char) (read : List Char → Option (α × List Char)) : Prop :=
  ∀ cs a left, read cs = some (a, left) → read (cs ++ rest) = some (a, left ++ rest)

theorem Stops.pure (rest : List Char) (a : α) : Stops rest (fun cs => some (a, cs)) := by
  intro cs b left h
  cases h
  rfl

theorem Stops.bind {rest : List Char} {read : List Char → Option (α × List Char)}
    {next : α × List Char → Option (β × List Char)} (hread : Stops rest read)
    (hnext : ∀ a, Stops rest (fun left => next (a, left))) :
    Stops rest (fun cs => read cs >>= next) := by
  intro cs b left h
  obtain ⟨⟨a, middle⟩, ha, hb⟩ := Option.bind_eq_some_iff.mp h
  exact Option.bind_eq_some_iff.mpr
    ⟨(a, middle ++ rest), hread _ _ _ ha, hnext a _ _ _ hb⟩

section
variable {rest : List Char} (h : Ends rest)
include h

/-- No character that a number can have ends a value. -/
theorem head_of_ends {p : Char → Bool} (hp : p ',' = false ∧ p ']' = false ∧ p '}' = false) :
    rest.head?.any p = false := by
  cases rest with
  | nil => rfl
  | cons c cs =>
    obtain ⟨hcomma, hbracket, hbrace⟩ := hp
    rcases h c rfl with rfl | rfl | rfl
    · exact hcomma
    · exact hbracket
    · exact hbrace

theorem span_append {p : Char → Bool} (hp : p ',' = false ∧ p ']' = false ∧ p '}' = false)
    (cs : List Char) : (cs ++ rest).takeWhile p = cs.takeWhile p ∧
      (cs ++ rest).dropWhile p = cs.dropWhile p ++ rest := by
  induction cs with
  | nil =>
    have hhead := head_of_ends h hp
    cases rest with
    | nil => exact ⟨rfl, rfl⟩
    | cons c cs =>
      have hc : p c = false := by simpa using hhead
      simp [hc]
  | cons c cs ih =>
    cases hc : p c with
    | true => simpa [hc] using ih
    | false => simp [hc]

theorem stops_digits : Stops rest digits? := by
  intro cs ds left hd
  obtain ⟨htake, hdrop⟩ := span_append h (p := Char.isDigit) ⟨rfl, rfl, rfl⟩ cs
  simp only [digits?, htake, hdrop] at hd ⊢
  split at hd
  · cases hd
  · rename_i hne
    cases hd
    rw [if_neg hne]

theorem stops_whole : Stops rest whole? := by
  intro cs ds left hw
  unfold whole? at hw
  split at hw
  · -- A leading zero must not have a digit after it, also not the first character of `rest`.
    rename_i tail
    split at hw
    · cases hw
    · rename_i hnone
      cases hw
      have hhead : ((left ++ rest).head?.any Char.isDigit) = false := by
        cases left with
        | nil => exact head_of_ends h ⟨rfl, rfl, rfl⟩
        | cons c cs => simpa using hnone
      simp only [List.cons_append, whole?, hhead]
      rfl
  · rename_i hzero
    cases cs with
    | nil => cases hw
    | cons c cs =>
      have hd := stops_digits h _ _ _ hw
      rw [List.cons_append] at hd ⊢
      rw [whole?]
      · exact hd
      · intro tail he
        exact hzero cs ((List.cons.inj he).1 ▸ rfl)

theorem stops_fraction : Stops rest fraction? := by
  intro cs ds left hf
  unfold fraction? at hf
  split at hf
  · exact stops_digits h _ _ _ hf
  · rename_i hpoint
    cases hf
    rw [fraction?]
    intro tail he
    cases cs with
    | nil =>
      have hhead := head_of_ends h (p := (· == '.')) ⟨rfl, rfl, rfl⟩
      rw [List.nil_append] at he
      simp [he] at hhead
    | cons c cs => exact hpoint cs ((List.cons.inj he).1 ▸ rfl)

/-- Digits that are read as one value. -/
theorem stops_digitsAs (f : List Char → α) :
    Stops rest (fun cs => digits? cs >>= fun (ds, left) => some (f ds, left)) :=
  Stops.bind (stops_digits h) (fun ds => Stops.pure rest (f ds))

theorem stops_exponent : Stops rest exponent? := by
  intro cs e left he
  cases cs with
  | nil =>
    cases he
    have hhead := head_of_ends h (p := fun c => c == 'e' || c == 'E') ⟨rfl, rfl, rfl⟩
    cases rest with
    | nil => rfl
    | cons c cs =>
      have hc : (c == 'e' || c == 'E') = false := by simpa using hhead
      simp [exponent?, hc]
  | cons c cs =>
    rw [List.cons_append]
    by_cases hc : (c == 'e' || c == 'E') = true
    · simp only [exponent?, hc, ↓reduceIte] at he ⊢
      split at he
      · exact stops_digitsAs h (fun ds => some (ofDigits ds : Int)) _ _ _ he
      · exact stops_digitsAs h (fun ds => some (-ofDigits ds : Int)) _ _ _ he
      · -- Without a sign there is a digit at once: `rest` is not where a sign could be found.
        rename_i hplus hminus
        have hread := stops_digitsAs h (fun ds => some (ofDigits ds : Int)) _ _ _ he
        cases cs with
        | nil => cases he
        | cons d cs =>
          rw [List.cons_append] at hread ⊢
          split
          · rename_i heq
            exact absurd ((List.cons.inj heq).1 ▸ rfl) (hplus cs)
          · rename_i heq
            exact absurd ((List.cons.inj heq).1 ▸ rfl) (hminus cs)
          · exact hread
    · simp only [exponent?, hc] at he ⊢
      cases he
      rfl

theorem stops_magnitude (negative : Bool) : Stops rest (magnitude? negative) := by
  refine Stops.bind (stops_whole h) (fun whole => ?_)
  refine Stops.bind (stops_fraction h) (fun fraction => ?_)
  refine Stops.bind (stops_exponent h) (fun e => ?_)
  by_cases hplain : (fraction.isEmpty && e.isNone) = true
  · simp only [hplain, ↓reduceIte]
    exact Stops.pure rest _
  · simp only [hplain]
    exact Stops.pure rest _

/-- A number ends where a value can end. -/
theorem stops_number : Stops rest number? := by
  intro cs x left hn
  unfold number? at hn
  split at hn
  · exact stops_magnitude h true _ _ _ hn
  · rename_i hminus
    cases cs with
    | nil => cases hn
    | cons c cs =>
      rw [List.cons_append, number?]
      · exact stops_magnitude h false _ _ _ hn
      · intro tail he
        exact hminus cs ((List.cons.inj he).1 ▸ rfl)

end

/-- Signs and digits, with which numbers start. -/
def startsNumber (c : Char) : Bool :=
  c == '-' || c.isDigit

theorem startsNumber_of_number {cs left : List Char} {x : Json}
    (h : number? cs = some (x, left)) : ∃ c tail, cs = c :: tail ∧ startsNumber c = true := by
  cases cs with
  | nil => cases h
  | cons c tail =>
    refine ⟨c, tail, rfl, ?_⟩
    by_contra hc
    obtain ⟨hminus, hdigit⟩ : c ≠ '-' ∧ c.isDigit = false := by simpa [startsNumber] using hc
    have hzero : c ≠ '0' := fun he => by simp [he] at hdigit
    have hwhole : whole? (c :: tail) = none := by
      simp [whole?, digits?, hdigit, hzero]
    simp [number?, hminus, magnitude?, hwhole] at h

theorem ne_of_startsNumber {c d : Char} (h : startsNumber c = true) (hd : startsNumber d = false) :
    c ≠ d := by
  rintro rfl
  simp [h] at hd

theorem isBlank_of_startsNumber {c : Char} (h : startsNumber c = true) : isBlank c = false := by
  have hspace : c ≠ ' ' := ne_of_startsNumber h rfl
  have htab : c ≠ '\t' := ne_of_startsNumber h rfl
  have hfeed : c ≠ '\n' := ne_of_startsNumber h rfl
  have hreturn : c ≠ '\r' := ne_of_startsNumber h rfl
  simp [isBlank, hspace, htab, hfeed, hreturn]

theorem skipBlanks_cons {c : Char} (h : isBlank c = false) (cs : List Char) :
    skipBlanks (c :: cs) = c :: cs :=
  List.dropWhile_cons_of_neg (by simp [h])

theorem value?_of_startsNumber {c : Char} (h : startsNumber c = true) (fuel : Nat)
    (cs : List Char) : value? (fuel + 1) (c :: cs) = number? (c :: cs) := by
  have hn : c ≠ 'n' := ne_of_startsNumber h rfl
  have ht : c ≠ 't' := ne_of_startsNumber h rfl
  have hf : c ≠ 'f' := ne_of_startsNumber h rfl
  have hquote : c ≠ '"' := ne_of_startsNumber h rfl
  have hbracket : c ≠ '[' := ne_of_startsNumber h rfl
  have hbrace : c ≠ '\x7b' := ne_of_startsNumber h rfl
  rw [value?, skipBlanks_cons (isBlank_of_startsNumber h)]
  split <;> simp_all

end Reader

open Reader

/-- A control character is written as a unit of four digits. -/
theorem unit?_control {n : Nat} (h : n < 0x20) :
    List.replicate (4 - (Nat.toDigits 16 n).length) '0' ++ Nat.toDigits 16 n =
        ['0', '0', Nat.digitChar (n / 16), Nat.digitChar (n % 16)] ∧
      unit? '0' '0' (Nat.digitChar (n / 16)) (Nat.digitChar (n % 16)) = some n := by
  revert n
  decide +kernel

/-- A unit below those of pairs is a character by itself. -/
theorem joinPieces_unit {n : Nat} (h : n < 0xd800) (ps : List Piece) :
    joinPieces (.unit n :: ps) = (joinPieces ps).map (Char.ofNat n :: ·) := by
  have hlow : ¬ (0xd800 ≤ n ∧ n < 0xdc00) := by omega
  have hhigh : ¬ (0xdc00 ≤ n ∧ n < 0xe000) := by omega
  rw [joinPieces.eq_def]
  simp only [if_neg hlow, if_neg hhigh]

/-- One piece is read for each character, however it is escaped. -/
theorem pieces?_escape (c : Char) {cs left : List Char} {ps : List Piece}
    (h : pieces? cs = some (ps, left)) : ∃ p, pieces? (Writer.escape c ++ cs) = some (p :: ps, left) ∧
      ∀ qs, joinPieces (p :: qs) = (joinPieces qs).map (c :: ·) := by
  unfold Writer.escape
  split
  · exact ⟨.char '"', by simp [pieces?, escaped?, h], fun qs => rfl⟩
  · exact ⟨.char '\\', by simp [pieces?, escaped?, h], fun qs => rfl⟩
  · exact ⟨.char '\x08', by simp [pieces?, escaped?, h], fun qs => rfl⟩
  · exact ⟨.char '\x0c', by simp [pieces?, escaped?, h], fun qs => rfl⟩
  · exact ⟨.char '\n', by simp [pieces?, escaped?, h], fun qs => rfl⟩
  · exact ⟨.char '\r', by simp [pieces?, escaped?, h], fun qs => rfl⟩
  · exact ⟨.char '\t', by simp [pieces?, escaped?, h], fun qs => rfl⟩
  · rename_i hquote hbackslash _ _ _ _ _
    split
    · rename_i hcontrol
      obtain ⟨hdigits, hunit⟩ := unit?_control hcontrol
      refine ⟨.unit c.toNat, ?_, fun qs => ?_⟩
      · simp [hdigits, pieces?, hunit, h]
      · rw [joinPieces_unit (by omega), Char.ofNat_toNat]
    · rename_i hplain
      refine ⟨.char c, ?_, fun qs => rfl⟩
      have hne : c ≠ '\\' := fun he => hbackslash he
      have hstays : (c == '\\' || c.toNat < 0x20) = false := by simp [hne, hplain]
      rw [List.singleton_append, pieces?]
      · simp [hstays, h]
      all_goals simp_all

theorem pieces?_string (s : List Char) (rest : List Char) :
    ∃ ps, pieces? (s.flatMap Writer.escape ++ '"' :: rest) = some (ps, rest) ∧
      joinPieces ps = some s := by
  induction s with
  | nil => exact ⟨[], rfl, rfl⟩
  | cons c s ih =>
    obtain ⟨ps, hread, hjoin⟩ := ih
    obtain ⟨p, hp, hfirst⟩ := pieces?_escape c hread
    refine ⟨p :: ps, ?_, ?_⟩
    · rw [List.flatMap_cons, List.append_assoc, hp]
    · rw [hfirst, hjoin]
      rfl

/-- A string is read back from between its quotes. -/
theorem string?_written (s : String) (rest : List Char) :
    string? (s.toList.flatMap Writer.escape ++ '"' :: rest) = some (some s, rest) := by
  obtain ⟨ps, hread, hjoin⟩ := pieces?_string s.toList rest
  simp [string?, hread, hjoin]

end BinaryQuadratic.Json
