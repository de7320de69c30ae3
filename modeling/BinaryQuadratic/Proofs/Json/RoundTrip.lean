import BinaryQuadratic.Json.Codec
import BinaryQuadratic.Proofs.Fallible
import BinaryQuadratic.Proofs.Json.Numbers

namespace BinaryQuadratic.Json
open Reader

theorem readable_ofFloat {x : Float} (h : x.isFinite = true) : (ofFloat x).Readable := by
  rw [ofFloat, if_pos h]
  exact .float h

theorem readable_ofNat {n : Nat} (h : n < Word.bound) : (ofNat n).Readable :=
  .int (by omega) (Int.ofNat_lt.mpr h)

theorem size?_ofNat {n : Nat} (h : n < Word.bound) : (ofNat n).size? = some n := by
  have hrange : (0 : Int) ≤ n ∧ (n : Int) ≤ Word.bound - 1 := by omega
  rw [size?, ofNat, intIn?, if_pos hrange, Option.map_some, Int.toNat_natCast]

theorem float?_ofFloat {x : Float} (hfinite : x.isFinite = true) : (ofFloat x).float? = some x := by
  rw [ofFloat, if_pos hfinite, float?]

/-- What is written for a tree, in front of whatever follows, is read as that tree. A list and the
value in it start at the same character, so reading takes up to two steps for each. -/
structure TextOf (j : Json) (text : List Char) : Prop where
  written : ∀ rest, Writer.value j rest = text ++ rest
  starts : ∃ c tail, text = c :: tail ∧ isBlank c = false ∧ c ≠ ']'
  read : ∀ {fuel rest}, Ends rest → 2 * text.length < fuel →
    value? fuel (text ++ rest) = some (j, rest)

theorem TextOf.number {j : Json} {token : List Char} (h : number? token = some (j, []))
    (hwritten : ∀ rest, Writer.value j rest = token ++ rest) : TextOf j token := by
  obtain ⟨c, tail, rfl, hc⟩ := startsNumber_of_number h
  refine ⟨hwritten, ⟨c, tail, rfl, isBlank_of_startsNumber hc, ne_of_startsNumber hc rfl⟩, ?_⟩
  intro fuel rest hrest hfuel
  obtain ⟨fuel, rfl⟩ : ∃ f, fuel = f + 1 := ⟨fuel - 1, by omega⟩
  rw [List.cons_append, value?_of_startsNumber hc]
  exact stops_number hrest _ _ _ h

/-- A text that is read in one step, whatever follows. -/
theorem TextOf.whole {j : Json} {c : Char} {tail : List Char} (hblank : isBlank c = false)
    (hclose : c ≠ ']') (hwritten : ∀ rest, Writer.value j rest = c :: tail ++ rest)
    (hread : ∀ fuel rest, value? (fuel + 1) (c :: tail ++ rest) = some (j, rest)) :
    TextOf j (c :: tail) := by
  refine ⟨hwritten, ⟨c, tail, rfl, hblank, hclose⟩, ?_⟩
  intro fuel rest _ hfuel
  obtain ⟨fuel, rfl⟩ : ∃ f, fuel = f + 1 := ⟨fuel - 1, by omega⟩
  exact hread fuel rest

theorem TextOf.str (s : String) :
    TextOf (str s) ('"' :: (s.toList.flatMap Writer.escape ++ ['"'])) := by
  refine .whole rfl (by decide) (fun rest => ?_) (fun fuel rest => ?_)
  · simp [Writer.value, Writer.string]
  · rw [List.cons_append, List.append_assoc, value?, skipBlanks_cons rfl]
    simp [string?_written]

/-- The items after the first are written from the comma, or the closing bracket, on. -/
theorem exists_itemsText {xs : List Json} (h : ∀ x ∈ xs, ∃ text, TextOf x text) :
    ∃ tail, (∀ rest, Writer.items xs rest = tail ++ rest) ∧
      ∀ {x text fuel rest}, TextOf x text → 2 * (text ++ tail).length + 1 < fuel →
        items? fuel (text ++ (tail ++ rest)) = some (x :: xs, rest) := by
  induction xs with
  | nil =>
    refine ⟨[']'], fun rest => rfl, ?_⟩
    intro x text fuel rest hx hfuel
    obtain ⟨fuel, rfl⟩ : ∃ f, fuel = f + 1 := ⟨fuel - 1, by omega⟩
    simp only [List.length_append, List.length_cons, List.length_nil] at hfuel
    have hvalue : value? fuel (text ++ ']' :: rest) = some (x, ']' :: rest) :=
      hx.read (.cons (.inr (.inl rfl)) rest) (by omega)
    simp [items?, hvalue, skipBlanks_cons, isBlank]
  | cons y ys ih =>
    obtain ⟨text', hy⟩ := h y (by simp)
    obtain ⟨tail, hwritten, hread⟩ := ih (fun x hx => h x (by simp [hx]))
    refine ⟨',' :: (text' ++ tail), fun rest => ?_, ?_⟩
    · simp [Writer.items, hwritten, hy.written]
    · intro x text fuel rest hx hfuel
      obtain ⟨fuel, rfl⟩ : ∃ f, fuel = f + 1 := ⟨fuel - 1, by omega⟩
      simp only [List.length_append, List.length_cons] at hfuel
      have hvalue : value? fuel (text ++ ',' :: (text' ++ (tail ++ rest))) =
          some (x, ',' :: (text' ++ (tail ++ rest))) :=
        hx.read (.cons (.inl rfl) _) (by omega)
      have hrest : items? fuel (text' ++ (tail ++ rest)) = some (y :: ys, rest) :=
        hread hy (by rw [List.length_append]; omega)
      simp [items?, hvalue, skipBlanks_cons, isBlank, hrest]

theorem TextOf.arr {x : Json} {xs : List Json} {text : List Char} (hx : TextOf x text)
    (hxs : ∀ y ∈ xs, ∃ text, TextOf y text) : ∃ text, TextOf (arr (x :: xs)) text := by
  obtain ⟨tail, hwritten, hread⟩ := exists_itemsText hxs
  refine ⟨'[' :: (text ++ tail), fun rest => ?_, ⟨'[', _, rfl, rfl, by decide⟩, ?_⟩
  · simp [Writer.value, hx.written, hwritten]
  · intro fuel rest hrest hfuel
    obtain ⟨fuel, rfl⟩ : ∃ f, fuel = f + 1 := ⟨fuel - 1, by omega⟩
    simp only [List.length_append, List.length_cons] at hfuel
    have hitems : items? fuel (text ++ (tail ++ rest)) = some (x :: xs, rest) :=
      hread hx (by rw [List.length_append]; omega)
    obtain ⟨c, cs, rfl, hblank, hclose⟩ := hx.starts
    simp only [List.cons_append] at hitems
    rw [List.cons_append, List.append_assoc, List.cons_append, value?, skipBlanks_cons rfl]
    simp [skipBlanks_cons hblank, hclose, hitems]

/-- A key with its colon. -/
def keyText (k : String) : List Char :=
  '"' :: (k.toList.flatMap Writer.escape ++ ['"', ':'])

theorem string_eq_keyText (k : String) (cs : List Char) :
    Writer.string k (':' :: cs) = keyText k ++ cs := by
  simp [Writer.string, keyText]

theorem members?_keyText (k : String) (fuel : Nat) (cs : List Char) :
    members? (fuel + 1) (keyText k ++ cs) = (do
      let (x, rest) ← value? fuel cs
      match skipBlanks rest with
      | '\x7d' :: rest => return ([(some k, x)], rest)
      | ',' :: rest =>
        let (ms, rest) ← members? fuel rest
        return ((some k, x) :: ms, rest)
      | _ => none) := by
  rw [keyText, List.cons_append, List.append_assoc, members?, skipBlanks_cons rfl]
  simp only [List.cons_append, List.nil_append, string?_written]
  rfl

/-- The members after the first are written like items, each with its key. -/
theorem exists_membersText {ms : List (String × Json)} (h : ∀ p ∈ ms, ∃ text, TextOf p.2 text) :
    ∃ tail, (∀ rest, Writer.members ms rest = tail ++ rest) ∧
      ∀ {k x text fuel rest}, TextOf x text → 2 * (keyText k ++ text ++ tail).length + 1 < fuel →
        members? fuel (keyText k ++ (text ++ (tail ++ rest))) =
          some (((k, x) :: ms).map (fun p => (some p.1, p.2)), rest) := by
  induction ms with
  | nil =>
    refine ⟨['\x7d'], fun rest => rfl, ?_⟩
    intro k x text fuel rest hx hfuel
    obtain ⟨fuel, rfl⟩ : ∃ f, fuel = f + 1 := ⟨fuel - 1, by omega⟩
    simp only [List.length_append, List.length_cons, List.length_nil] at hfuel
    have hvalue : value? fuel (text ++ '\x7d' :: rest) = some (x, '\x7d' :: rest) :=
      hx.read (.cons (.inr (.inr rfl)) rest) (by omega)
    simp [members?_keyText, hvalue, skipBlanks_cons, isBlank]
  | cons p ms ih =>
    obtain ⟨text', hy⟩ := h p (by simp)
    obtain ⟨tail, hwritten, hread⟩ := ih (fun x hx => h x (by simp [hx]))
    refine ⟨',' :: (keyText p.1 ++ text' ++ tail), fun rest => ?_, ?_⟩
    · simp [Writer.members, string_eq_keyText, hwritten, hy.written]
    · intro k x text fuel rest hx hfuel
      obtain ⟨fuel, rfl⟩ : ∃ f, fuel = f + 1 := ⟨fuel - 1, by omega⟩
      simp only [List.length_append, List.length_cons] at hfuel
      have hvalue : value? fuel (text ++ ',' :: (keyText p.1 ++ (text' ++ (tail ++ rest)))) =
          some (x, ',' :: (keyText p.1 ++ (text' ++ (tail ++ rest)))) :=
        hx.read (.cons (.inl rfl) _) (by omega)
      have hrest : members? fuel (keyText p.1 ++ (text' ++ (tail ++ rest))) =
          some ((p :: ms).map (fun p => (some p.1, p.2)), rest) :=
        hread hy (by simp only [List.length_append]; omega)
      simp [members?_keyText, hvalue, skipBlanks_cons, isBlank, hrest]

theorem object_of_keys (ms : List (String × Json)) :
    object (ms.map (fun p => (some p.1, p.2))) = obj ms := by
  have hback : (ms.map (fun p => (some p.1, p.2))).mapM (fun p => p.1.map (·, p.2)) = some ms := by
    rw [List.mapM_map]
    exact (mapM_eq_pure (fun p _ => rfl)).trans (congrArg some (List.map_id ms))
  unfold object
  split
  · rename_i members hmembers
    exact congrArg obj (Option.some.inj (hmembers.symm.trans hback))
  · rename_i hnone
    cases hnone.symm.trans hback

theorem TextOf.obj {k : String} {x : Json} {ms : List (String × Json)} {text : List Char}
    (hx : TextOf x text) (hms : ∀ p ∈ ms, ∃ text, TextOf p.2 text) :
    ∃ text, TextOf (obj ((k, x) :: ms)) text := by
  obtain ⟨tail, hwritten, hread⟩ := exists_membersText hms
  refine ⟨'\x7b' :: (keyText k ++ text ++ tail), fun rest => ?_,
    ⟨'\x7b', _, rfl, rfl, by decide⟩, ?_⟩
  · simp [Writer.value, string_eq_keyText, hx.written, hwritten]
  · intro fuel rest hrest hfuel
    obtain ⟨fuel, rfl⟩ : ∃ f, fuel = f + 1 := ⟨fuel - 1, by omega⟩
    simp only [List.length_append, List.length_cons] at hfuel
    have hmembers : members? fuel (keyText k ++ (text ++ (tail ++ rest))) =
        some (((k, x) :: ms).map (fun p => (some p.1, p.2)), rest) :=
      hread hx (by simp only [List.length_append]; omega)
    obtain ⟨cs, hcs⟩ : ∃ cs, keyText k ++ (text ++ (tail ++ rest)) = '"' :: cs := ⟨_, rfl⟩
    rw [hcs] at hmembers
    rw [List.cons_append, List.append_assoc, List.append_assoc, hcs, value?,
      skipBlanks_cons rfl]
    simp [skipBlanks_cons, isBlank, hmembers, ← object_of_keys]

/-- Every part of a readable tree has a text of its own. -/
theorem Readable.exists_textOf {j : Json} (h : Readable j) : ∃ text, TextOf j text := by
  -- The induction is on the evidence: it has the texts of all items and members at hand, where one
  -- on the tree would have to go through its lists side by side.
  induction h with
  | null => exact ⟨_, .whole rfl (by decide) (fun _ => rfl) (fun _ _ => rfl)⟩
  | bool b =>
    cases b with
    | true => exact ⟨_, .whole rfl (by decide) (fun _ => rfl) (fun _ _ => rfl)⟩
    | false => exact ⟨_, .whole rfl (by decide) (fun _ => rfl) (fun _ _ => rfl)⟩
  | int low high => exact ⟨_, .number (number?_toString low high) (fun _ => rfl)⟩
  | float finite => exact ⟨_, .number (number?_double finite) (fun _ => rfl)⟩
  | str s => exact ⟨_, .str s⟩
  | @arr items _ ih =>
    cases items with
    | nil => exact ⟨['[', ']'], .whole rfl (by decide) (fun _ => rfl) (fun _ _ => rfl)⟩
    | cons x xs =>
      obtain ⟨text, hx⟩ := ih x (by simp)
      exact TextOf.arr hx (fun y hy => ih y (by simp [hy]))
  | @obj members _ ih =>
    cases members with
    | nil =>
      exact ⟨['\x7b', '\x7d'], .whole rfl (by decide) (fun _ => rfl) (fun _ _ => rfl)⟩
    | cons p ms =>
      obtain ⟨text, hp⟩ := ih p (by simp)
      exact TextOf.obj hp (fun q hq => ih q (by simp [hq]))

/-- A tree is read back from its own text. -/
theorem parse?_write {j : Json} (h : Readable j) : parse? (write j) = some j := by
  obtain ⟨text, htext⟩ := h.exists_textOf
  have hwritten : (write j).toList = text := by
    rw [write, String.toList_ofList, htext.written, List.append_nil]
  have hread : value? (2 * text.length + 2) (text ++ []) = some (j, []) :=
    htext.read Ends.nil (by omega)
  rw [List.append_nil] at hread
  simp [parse?, hwritten, hread, skipBlanks]

/-- The reader and the writer of this library are such a pair. -/
@[simps write parse?]
def Codec.standard : Codec where
  write := Json.write
  parse? := Json.parse?
  parse?_write h _ := Json.parse?_write h
  write_int _ _ := by
    rw [Json.write, Writer.value, List.append_nil, String.ofList_toList]

theorem nesting_arr_le {items : List Json} {n : Nat} (h : ∀ x ∈ items, x.nesting ≤ n) :
    (arr items).nesting ≤ n + 1 := by
  have hitems : nestingItems items ≤ n := by
    induction items with
    | nil => exact Nat.zero_le _
    | cons x items ih =>
      obtain ⟨hx, hitems⟩ := List.forall_mem_cons.mp h
      exact max_le hx (ih hitems)
  rw [nesting]
  omega

theorem nesting_obj_le {members : List (String × Json)} {n : Nat}
    (h : ∀ p ∈ members, p.2.nesting ≤ n) : (obj members).nesting ≤ n + 1 := by
  have hmembers : nestingMembers members ≤ n := by
    induction members with
    | nil => exact Nat.zero_le _
    | cons p members ih =>
      obtain ⟨hp, hmembers⟩ := List.forall_mem_cons.mp h
      exact max_le hp (ih hmembers)
  rw [nesting]
  omega

theorem nesting_ofFloat (x : Float) : (ofFloat x).nesting = 0 := by
  unfold ofFloat
  split <;> rfl

theorem member?_cons_self {name : String} {x : Json} {ms : List (String × Json)}
    (h : name ∉ ms.map (·.1)) : member? name ((name, x) :: ms) = some x := by
  have hnone : ms.filter (·.1 == name) = [] := by
    refine List.filter_eq_nil_iff.mpr (fun p hp he => ?_)
    exact h (List.mem_map.mpr ⟨p, hp, by simpa using he⟩)
  simp [member?, hnone]

theorem member?_cons_ne {name k : String} (h : k ≠ name) (x : Json) (ms : List (String × Json)) :
    member? name ((k, x) :: ms) = member? name ms := by
  simp [member?, h]

theorem mapM_member? {names : List String} (hnames : names.Nodup) {xs : List Json}
    (hlength : names.length = xs.length) {ms : List (String × Json)}
    (h : ∀ name ∈ names, member? name ms = member? name (names.zip xs)) :
    names.mapM (member? · ms) = some xs := by
  induction names generalizing xs with
  | nil =>
    cases xs with
    | nil => rfl
    | cons x xs => cases hlength
  | cons name names ih =>
    cases xs with
    | nil => cases hlength
    | cons x xs =>
      obtain ⟨hnew, hrest⟩ := List.nodup_cons.mp hnames
      have hlength : names.length = xs.length := Nat.succ.inj hlength
      have hfirst : member? name ms = some x := by
        rw [h name (by simp), List.zip_cons_cons]
        exact member?_cons_self (by rwa [List.map_fst_zip hlength.le])
      have hothers : names.mapM (member? · ms) = some xs := by
        refine ih hrest hlength (fun other hother => ?_)
        have hne : name ≠ other := fun he => hnew (he ▸ hother)
        rw [h other (by simp [hother]), List.zip_cons_cons, member?_cons_ne hne]
      rw [List.mapM_cons, hfirst, hothers]
      rfl

/-- The parts of a record are found under their names. -/
theorem parts?_zip {names : List String} (hnames : names.Nodup) {xs : List Json}
    (hlength : names.length = xs.length) : parts? names (obj (names.zip xs)) = some xs :=
  mapM_member? hnames hlength (fun _ _ => rfl)

end BinaryQuadratic.Json
