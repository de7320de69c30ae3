import BinaryQuadratic.Proofs.Text.Quoted
import BinaryQuadratic.Proofs.Text.Real
import BinaryQuadratic.Proofs.Value.Json
import BinaryQuadratic.Value.Text

namespace BinaryQuadratic.Value
open Json

section
variable {α : Type} (write : α → List Char) (close : Char)

/-- What follows the first of several joined texts: the others, and the character that closes. -/
def further : List α → List Char → List Char
  | [], rest => close :: rest
  | x :: xs, rest => ',' :: ' ' :: (write x ++ further xs rest)

def joined : List α → List Char → List Char
  | [], rest => close :: rest
  | x :: xs, rest => write x ++ further write close xs rest

theorem intercalate_eq_joined (xs : List α) (rest : List Char) :
    [',', ' '].intercalate (xs.map write) ++ close :: rest = joined write close xs rest := by
  cases xs with
  | nil => rfl
  | cons x xs =>
    induction xs generalizing x with
    | nil => simp [joined, further]
    | cons y ys ih => simpa [joined, further] using ih y

variable {write close} {xs ys : List α} {s t : List Char}
  (hclose : close = ']' ∨ close = '\x7d')
include hclose

theorem ends_further (xs : List α) (rest : List Char) : Ends (further write close xs rest) := by
  cases xs with
  | nil => exact .cons (hclose.elim (fun h => .inr (.inl h)) (fun h => .inr (.inr h))) _
  | cons x xs => exact .cons (.inl rfl) _

variable (hunique : ∀ x ∈ xs, ∀ y ∈ ys, ∀ s t, Ends s → Ends t →
  write x ++ s = write y ++ t → x = y ∧ s = t)
include hunique

theorem further_unique (h : further write close xs s = further write close ys t) :
    xs = ys ∧ s = t := by
  have hcomma : close ≠ ',' := by rcases hclose with rfl | rfl <;> decide
  induction xs generalizing ys with
  | nil =>
    cases ys with
    | nil => exact ⟨rfl, (List.cons.inj h).2⟩
    | cons y ys => exact absurd (List.cons.inj h).1 hcomma
  | cons x xs ih =>
    cases ys with
    | nil => exact absurd (List.cons.inj h).1.symm hcomma
    | cons y ys =>
      obtain ⟨rfl, htail⟩ := hunique x (by simp) y (by simp) _ _ (ends_further hclose xs s)
        (ends_further hclose ys t) (List.cons.inj (List.cons.inj h).2).2
      obtain ⟨rfl, rfl⟩ := ih (fun x hx y hy => hunique x (by simp [hx]) y (by simp [hy])) htail
      exact ⟨rfl, rfl⟩

/-- Joined texts are told apart where each is, and none begins like the end of all. -/
theorem joined_unique (hfirst : ∀ x rest, (write x ++ rest).head? ≠ some close)
    (h : joined write close xs s = joined write close ys t) : xs = ys ∧ s = t := by
  cases xs with
  | nil =>
    cases ys with
    | nil => exact ⟨rfl, (List.cons.inj h).2⟩
    | cons y ys => exact absurd (congrArg List.head? h.symm) (hfirst y _)
  | cons x xs =>
    cases ys with
    | nil => exact absurd (congrArg List.head? h) (hfirst x _)
    | cons y ys =>
      obtain ⟨rfl, htail⟩ := hunique x (by simp) y (by simp) _ _ (ends_further hclose xs s)
        (ends_further hclose ys t) h
      obtain ⟨rfl, rfl⟩ := further_unique hclose
        (fun x hx y hy => hunique x (by simp [hx]) y (by simp [hy])) htail
      exact ⟨rfl, rfl⟩

end

theorem textItems_eq_map (items : List Value) : textItems items = items.map text := by
  induction items with
  | nil => rfl
  | cons x items ih => rw [textItems, ih, List.map_cons]

theorem textEntries_eq_map (entries : List (String × Value)) :
    textEntries entries = entries.map (fun e => Text.quoted e.1 ++ ": " ++ text e.2) := by
  induction entries with
  | nil => rfl
  | cons e entries ih => rw [textEntries, ih, List.map_cons]

def itemChars (v : Value) : List Char :=
  (text v).toList

def entryChars (e : String × Value) : List Char :=
  (Text.quoted e.1).toList ++ ':' :: ' ' :: (text e.2).toList

theorem toList_text_list (items : List Value) (rest : List Char) :
    (text (list items)).toList ++ rest = '[' :: joined itemChars ']' items rest := by
  rw [← intercalate_eq_joined, text, textItems_eq_map]
  simp [String.toList_append, String.toList_intercalate, Function.comp_def]
  rfl

theorem toList_text_map (entries : List (String × Value)) (rest : List Char) :
    (text (map entries)).toList ++ rest = '\x7b' :: joined entryChars '\x7d' entries rest := by
  rw [← intercalate_eq_joined, text, textEntries_eq_map]
  simp [String.toList_append, String.toList_intercalate, Function.comp_def]
  rfl

/-- The characters of numbers and of the two booleans. -/
def isWordChar (c : Char) : Bool :=
  Text.isRealChar c || c ∈ ['t', 'r', 'u', 'l', 's']

/-- What opens the text of a value that is more than one word. -/
def opening? : Value → Option Char
  | str _ => some '"'
  | list _ => some '['
  | map _ => some '\x7b'
  | _ => none

theorem not_isWordChar_opening {v : Value} {c : Char} (h : v.opening? = some c) :
    isWordChar c = false ∧ c ≠ ']' := by
  cases v with
  | str | list | map =>
    cases h
    decide
  | bool | int | uint | float => cases h

theorem text_of_integer? {v : Value} {k : Int} (h : v.integer? = some k) : text v = toString k := by
  cases v with
  | int n =>
    cases h
    rw [text]
  | uint n =>
    cases h
    rw [text]
    rfl
  | bool | float | str | list | map => cases h

theorem isIntegerChar_of_mem_text {v : Value} {k : Int} (h : v.integer? = some k) :
    ∀ c ∈ (text v).toList, Text.isIntegerChar c = true := by
  rw [text_of_integer? h]
  exact fun c hc => Text.isIntegerChar_of_mem_toString hc

theorem isWordChar_of_real {c : Char} (h : Text.isRealChar c = true) : isWordChar c = true := by
  simp [isWordChar, h]

theorem text_bool (b : Bool) : (text (bool b)).toList =
    if b then ['t', 'r', 'u', 'e'] else ['f', 'a', 'l', 's', 'e'] := by
  rw [text]
  cases b <;> rfl

/-- A value without an opening character is a word. -/
theorem isWord_text {v : Value} (h : v.opening? = none) :
    (text v).toList ≠ [] ∧ ∀ c ∈ (text v).toList, isWordChar c = true := by
  have hinteger {k : Int} (hk : v.integer? = some k) :
      (text v).toList ≠ [] ∧ ∀ c ∈ (text v).toList, isWordChar c = true := by
    refine ⟨by rw [text_of_integer? hk]; exact Text.toString_int_ne_nil k, fun c hc => ?_⟩
    exact isWordChar_of_real (Text.isRealChar_of_integer (isIntegerChar_of_mem_text hk c hc))
  cases v with
  | bool b =>
    rw [text_bool]
    cases b <;> simp [isWordChar, Text.isRealChar]
  | int n => exact hinteger rfl
  | uint n => exact hinteger rfl
  | float x =>
    obtain ⟨c, hc, _⟩ := Text.exists_mark_double Text.realLayout x
    rw [text]
    exact ⟨List.ne_nil_of_mem hc, fun c hc => isWordChar_of_real (Text.isRealChar_of_mem_double hc)⟩
  | str | list | map => cases h

theorem exists_first (v : Value) (rest : List Char) :
    ∃ c cs, (text v).toList ++ rest = c :: cs ∧
      (v.opening? = some c ∨ v.opening? = none ∧ isWordChar c = true) := by
  cases hopen : v.opening? with
  | none =>
    obtain ⟨hne, hword⟩ := isWord_text hopen
    obtain ⟨c, cs, hcs⟩ := List.exists_cons_of_ne_nil hne
    exact ⟨c, cs ++ rest, by rw [hcs]; rfl, .inr ⟨rfl, hword c (by simp [hcs])⟩⟩
  | some c =>
    refine ⟨c, ?_⟩
    cases v with
    | str s =>
      cases hopen
      exact ⟨_, by rw [text, Text.toList_quoted]; rfl, .inl rfl⟩
    | list items =>
      cases hopen
      exact ⟨_, toList_text_list items rest, .inl rfl⟩
    | map entries =>
      cases hopen
      exact ⟨_, toList_text_map entries rest, .inl rfl⟩
    | bool | int | uint | float => cases hopen

/-- The first character tells which kind a value is of. -/
theorem opening?_unique {a b : Value} {s t : List Char}
    (h : (text a).toList ++ s = (text b).toList ++ t) : a.opening? = b.opening? := by
  obtain ⟨c, cs, ha, hac⟩ := exists_first a s
  obtain ⟨d, ds, hb, hbd⟩ := exists_first b t
  obtain rfl : c = d := (List.cons.inj (ha.symm.trans (h.trans hb))).1
  rcases hac with hac | ⟨hac, hword⟩
  · rcases hbd with hbd | ⟨_, hword⟩
    · rw [hac, hbd]
    · rw [(not_isWordChar_opening hac).1] at hword
      cases hword
  · rcases hbd with hbd | ⟨hbd, _⟩
    · rw [(not_isWordChar_opening hbd).1] at hword
      cases hword
    · rw [hac, hbd]

theorem first_ne_close (v : Value) (rest : List Char) :
    ((text v).toList ++ rest).head? ≠ some ']' := by
  obtain ⟨c, cs, hcs, hc⟩ := exists_first v rest
  rw [hcs]
  rintro ⟨⟩
  rcases hc with hc | ⟨_, hword⟩
  · exact absurd rfl (not_isWordChar_opening hc).2
  · cases hword

/-- Integers, reals and booleans are told apart by the characters that they are written with. -/
theorem all_integer_text {v : Value} (h : v.opening? = none) :
    (text v).toList.all Text.isIntegerChar = v.integer?.isSome := by
  cases v with
  | int n => exact List.all_eq_true.mpr (isIntegerChar_of_mem_text rfl)
  | uint n => exact List.all_eq_true.mpr (isIntegerChar_of_mem_text rfl)
  | bool b =>
    rw [text_bool]
    cases b <;> rfl
  | float x =>
    obtain ⟨c, hc, hmark⟩ := Text.exists_mark_double Text.realLayout x
    rw [text]
    exact List.all_eq_false.mpr ⟨c, hc, by simp [hmark]⟩
  | str | list | map => cases h

theorem all_real_text {v : Value} (h : v.opening? = none) :
    (text v).toList.all Text.isRealChar = v.asBool?.isNone := by
  have hinteger {k : Int} (hk : v.integer? = some k) :
      (text v).toList.all Text.isRealChar = true :=
    List.all_eq_true.mpr (fun c hc => Text.isRealChar_of_integer (isIntegerChar_of_mem_text hk c hc))
  cases v with
  | int n => exact hinteger rfl
  | uint n => exact hinteger rfl
  | bool b =>
    rw [text_bool]
    cases b <;> rfl
  | float x =>
    rw [text]
    exact List.all_eq_true.mpr (fun c hc => Text.isRealChar_of_mem_double hc)
  | str | list | map => cases h

/-- An integer is of the one type that holds it, and of the signed one if both do. -/
theorem ofInt?_of_integer? {v : Value} {k : Int} (h : v.Canonical) (hk : v.integer? = some k) :
    ofInt? k = some v := by
  cases v with
  | int n =>
    cases hk
    exact ofInt?_toInt n
  | uint n =>
    cases hk
    rw [ofInt?_toNat, ofUInt64_of_le (h n (mem_parts_self _))]
  | bool | float | str | list | map => cases hk

theorem not_isWordChar_of_ends {rest : List Char} (h : Ends rest) :
    ∀ c ∈ rest.head?, isWordChar c = false := by
  intro c hc
  rcases h c hc with rfl | rfl | rfl <;> rfl

theorem entry_ne_close (e : String × Value) (rest : List Char) :
    (entryChars e ++ rest).head? ≠ some '\x7d' := by
  rw [entryChars, Text.toList_quoted]
  simp

/-- A name ends at its second quote, the value after it where values end. -/
theorem entry_unique {d e : String × Value} {s t : List Char}
    (hvalue : ∀ s t, Ends s → Ends t →
      (text d.2).toList ++ s = (text e.2).toList ++ t → d.2 = e.2 ∧ s = t)
    (hs : Ends s) (ht : Ends t) (h : entryChars d ++ s = entryChars e ++ t) : d = e ∧ s = t := by
  rw [entryChars, entryChars, List.append_assoc, List.append_assoc] at h
  obtain ⟨hname, hrest⟩ := Text.quoted_unique h
  obtain ⟨hd, rfl⟩ := hvalue s t hs ht (List.cons.inj (List.cons.inj hrest).2).2
  exact ⟨Prod.ext hname hd, rfl⟩

/-- What a value has to be for its text to say which it is. -/
structure Legible (v : Value) : Prop where
  canonical : v.Canonical
  withoutNaN : v.WithoutNaN

theorem Legible.item {x : Value} {items : List Value} (h : (list items).Legible) (hx : x ∈ items) :
    x.Legible :=
  ⟨fun n hn => h.canonical n (parts_subset_list hx hn),
    fun y hy => h.withoutNaN y (parts_subset_list hx hy)⟩

theorem Legible.entry {e : String × Value} {entries : List (String × Value)}
    (h : (map entries).Legible) (he : e ∈ entries) : e.2.Legible :=
  ⟨fun n hn => h.canonical n (parts_subset_map he hn),
    fun y hy => h.withoutNaN y (parts_subset_map he hy)⟩

section
variable {a b : Value} (ha : a.Legible) (hb : b.Legible)
include ha hb

theorem eq_of_words (haword : a.opening? = none) (hbword : b.opening? = none)
    (htext : text a = text b) : a = b := by
  have hinteger : a.integer?.isSome = b.integer?.isSome := by
    rw [← all_integer_text haword, ← all_integer_text hbword, htext]
  have hbool : a.asBool?.isNone = b.asBool?.isNone := by
    rw [← all_real_text haword, ← all_real_text hbword, htext]
  cases hk : a.integer? with
  | some k =>
    obtain ⟨l, hl⟩ := Option.isSome_iff_exists.mp (hinteger.symm.trans (by rw [hk]; rfl))
    rw [text_of_integer? hk, text_of_integer? hl] at htext
    obtain rfl := Text.toString_int_injective htext
    exact Option.some.inj
      ((ofInt?_of_integer? ha.canonical hk).symm.trans (ofInt?_of_integer? hb.canonical hl))
  | none =>
    rw [hk] at hinteger
    cases a with
    | bool m =>
      cases b with
      | bool n =>
        have hlist := congrArg String.toList htext
        rw [text_bool, text_bool] at hlist
        cases m <;> cases n <;> first | rfl | simp at hlist
      | int | uint | float | str | list | map => cases hbool
    | float x =>
      cases b with
      | float y =>
        rw [text, text] at htext
        rw [Text.double_injective (ha.withoutNaN x (mem_parts_self _))
          (hb.withoutNaN y (mem_parts_self _)) htext]
      | bool => cases hbool
      | int | uint => cases hinteger
      | str | list | map => cases hbword
    | int | uint => cases hk
    | str | list | map => cases haword

theorem eq_of_word (haword : a.opening? = none) {s t : List Char} (hs : Ends s) (ht : Ends t)
    (htext : (text a).toList ++ s = (text b).toList ++ t) : a = b ∧ s = t := by
  have hbword : b.opening? = none := (opening?_unique htext).symm.trans haword
  obtain ⟨heq, hrest⟩ := Text.run_unique (isWord_text haword).2 (isWord_text hbword).2
    (not_isWordChar_of_ends hs) (not_isWordChar_of_ends ht) htext
  exact ⟨eq_of_words ha hb haword hbword (String.toList_injective heq), hrest⟩

/-- A text is read in one way, wherever it stands in a longer one. -/
theorem eq_of_text {s t : List Char} (hs : Ends s) (ht : Ends t)
    (htext : (text a).toList ++ s = (text b).toList ++ t) : a = b ∧ s = t := by
  have hopening := opening?_unique htext
  induction a generalizing b s t with
  | bool => exact eq_of_word ha hb rfl hs ht htext
  | int => exact eq_of_word ha hb rfl hs ht htext
  | uint => exact eq_of_word ha hb rfl hs ht htext
  | float => exact eq_of_word ha hb rfl hs ht htext
  | str x =>
    cases b with
    | str y =>
      rw [text, text] at htext
      obtain ⟨rfl, rfl⟩ := Text.quoted_unique htext
      exact ⟨rfl, rfl⟩
    | bool | int | uint | float | list | map => cases hopening
  | list xs ih =>
    cases b with
    | list ys =>
      have hitems : ∀ x ∈ xs, ∀ y ∈ ys, ∀ s t, Ends s → Ends t →
          itemChars x ++ s = itemChars y ++ t → x = y ∧ s = t :=
        fun x hx y hy s t hs ht he =>
          ih x hx (ha.item hx) (hb.item hy) hs ht he (opening?_unique he)
      rw [toList_text_list, toList_text_list] at htext
      obtain ⟨rfl, rfl⟩ := joined_unique (.inl rfl) hitems first_ne_close (List.cons.inj htext).2
      exact ⟨rfl, rfl⟩
    | bool | int | uint | float | str | map => cases hopening
  | map ds ih =>
    cases b with
    | map es =>
      have hentries : ∀ d ∈ ds, ∀ e ∈ es, ∀ s t, Ends s → Ends t →
          entryChars d ++ s = entryChars e ++ t → d = e ∧ s = t :=
        fun d hd e he s t hs ht => entry_unique
          (fun s t hs ht hv => ih d hd (ha.entry hd) (hb.entry he) hs ht hv (opening?_unique hv))
          hs ht
      rw [toList_text_map, toList_text_map] at htext
      obtain ⟨rfl, rfl⟩ := joined_unique (.inr rfl) hentries entry_ne_close (List.cons.inj htext).2
      exact ⟨rfl, rfl⟩
    | bool | int | uint | float | str | list => cases hopening

end

/-- The text of a value says which it is, down to the kinds of its parts and the signs of its
zeros. -/
theorem text_tells_value (a b : Value) (ha : a.Canonical) (hb : b.Canonical) (hna : a.WithoutNaN)
    (hnb : b.WithoutNaN) (htext : a.text = b.text) : a = b ∧ a.beq b = true := by
  have hchars : (text a).toList ++ [] = (text b).toList ++ [] := by rw [htext]
  obtain ⟨rfl, _⟩ := eq_of_text ⟨ha, hna⟩ ⟨hb, hnb⟩ Ends.nil Ends.nil hchars
  exact ⟨rfl, hna.beq_self⟩

/-- Separators, brackets and quotes inside of texts, and an integer that only one type holds. -/
theorem text_tells_nested_value :
    let v : Value := map [("a\", \"b", list [uint 9223372036854775808, int (-1), float 0.5]),
      ("b", map [("c", list []), ("d", str "], \"\n")])]
    let w : Value := map [("a\", \"b", list [ofUInt64 9223372036854775808, int (-1), float 0.5]),
      ("b", map [("c", list []), ("d", str "], \"\n")])]
    v.Canonical ∧ w.Canonical ∧ v.WithoutNaN ∧ w.WithoutNaN ∧ v.text = w.text ∧ v = w ∧
      v.beq w = true := by
  intro v w
  have hcanonical : v.Canonical := by
    simp [v, Canonical, parts, partsOfItems, partsOfEntries]
  have hnan : v.WithoutNaN := by
    have hhalf : (0.5 : Float).isNaN = false := by decide +kernel
    simpa [v, WithoutNaN, parts, partsOfItems, partsOfEntries] using hhalf
  have htext : v.text = w.text := rfl
  exact ⟨hcanonical, hcanonical, hnan, hnan, htext,
    text_tells_value v w hcanonical hcanonical hnan hnan htext⟩

end BinaryQuadratic.Value
