import BinaryQuadratic.Params
import BinaryQuadratic.Proofs.Lists

namespace BinaryQuadratic

variable {α : Type}

/-- An entry after all others goes to the end. -/
theorem insertEntry_of_lt {k : String} {entries : List (String × α)}
    (h : ∀ e ∈ entries, e.1 < k) (x : α) : insertEntry k x entries = entries ++ [(k, x)] := by
  induction entries with
  | nil => rfl
  | cons e rest ih =>
    have he : e.1 < k := h e (by simp)
    rw [insertEntry, if_neg (String.lt_asymm he), if_pos he,
      ih (fun e' he' => h e' (by simp [he'])), List.cons_append]

theorem foldl_insertEntry {before entries : List (String × α)} (h : Ascending (before ++ entries)) :
    entries.foldl (fun es (k, x) => insertEntry k x es) before = before ++ entries := by
  induction entries generalizing before with
  | nil => simp
  | cons e entries ih =>
    obtain ⟨k, x⟩ := e
    have hlast : ∀ e ∈ before, e.1 < k := fun e he =>
      (List.pairwise_append.mp h).2.2 e he (k, x) (by simp)
    simp only [List.foldl_cons]
    rw [insertEntry_of_lt hlast, ih (by simpa using h), List.append_assoc, List.singleton_append]

/-- Entries in order stay as they are. -/
theorem sortEntries_of_ascending {entries : List (String × α)} (h : Ascending entries) :
    sortEntries entries = entries :=
  foldl_insertEntry (by simpa using h)

theorem mem_sortEntries {pairs : List (String × α)} {e : String × α} (h : e ∈ sortEntries pairs) :
    e ∈ pairs := by
  have hfold : ∀ (ps entries : List (String × α)),
      e ∈ ps.foldl (fun es (k, x) => insertEntry k x es) entries → e ∈ entries ∨ e ∈ ps := by
    intro ps
    induction ps with
    | nil => exact fun _ he => .inl he
    | cons p ps ih =>
      intro entries he
      rcases ih _ he with he | he
      · rcases mem_insertEntry he with rfl | he
        · exact .inr (by simp)
        · exact .inl he
      · exact .inr (by simp [he])
  exact (hfold pairs [] h).resolve_left (by simp)

theorem stored?_insertEntry (k : String) (x : α) (entries : List (String × α)) (name : String) :
    stored? name (insertEntry k x entries) = if name = k then some x else stored? name entries := by
  induction entries with
  | nil => simp [insertEntry, stored?, eq_comm]
  | cons e rest ih =>
    simp only [insertEntry]
    split
    · rw [stored?_cons]
      simp [eq_comm]
    split
    · rename_i hlt
      rw [stored?_cons, stored?_cons, ih]
      by_cases he : e.1 = name
      · have hk : name ≠ k := he ▸ String.ne_of_lt hlt
        simp [he, hk]
      · simp [he]
    · rename_i hge hle
      have hk : k = e.1 := eq_of_not_lt hge hle
      rw [stored?_cons, stored?_cons, hk]
      by_cases he : e.1 = name
      · simp [he]
      · have hname : name ≠ e.1 := fun h => he h.symm
        simp [he, hname]

namespace NameMap

theorem get?_eq_stored? (m : NameMap α) (name : String) : m.get? name = stored? name m.entries := by
  simp [get?, stored?, BEq.beq]

theorem get?_insert (m : NameMap α) (k : String) (x : α) (name : String) :
    (m.insert k x).get? name = if name = k then some x else m.get? name := by
  rw [get?_eq_stored?, get?_eq_stored?]
  exact stored?_insertEntry k x m.entries name

theorem contains_eq_isSome (m : NameMap α) (name : String) :
    m.contains name = (m.get? name).isSome := by
  rw [contains, get?, Option.isSome_map, List.isSome_find?]

theorem contains_insert (m : NameMap α) (k : String) (x : α) (name : String) :
    (m.insert k x).contains name = (k == name || m.contains name) := by
  rw [contains_eq_isSome, contains_eq_isSome, get?_insert]
  by_cases h : name = k
  · simp [h]
  · have hk : ¬ k = name := fun he => h he.symm
    simp [h, hk]

theorem get?_restrict (m : NameMap α) (p : String → Bool) (name : String) :
    (m.restrict p).get? name = if p name then m.get? name else none := by
  have hkey : ∀ e : String × α,
      decide (p e.1 = true ∧ (e.1 == name) = true) = (p name && e.1 == name) := by
    intro e
    by_cases he : e.1 = name <;> simp [he]
  simp only [NameMap.get?, restrict, List.find?_filter, hkey]
  cases p name <;> simp

theorem get?_erase (m : NameMap α) (k name : String) :
    (m.erase k).get? name = if name = k then none else m.get? name := by
  rw [erase, get?_restrict]
  by_cases h : name = k <;> simp [h]

theorem ofList_concat (pairs : List (String × α)) (k : String) (x : α) :
    ofList (pairs ++ [(k, x)]) = (ofList pairs).insert k x :=
  ext_entries (List.foldl_append ..)

/-- Of the values that a name is paired with, the last one counts. -/
theorem get?_ofList (pairs : List (String × α)) (name : String) :
    (ofList pairs).get? name = stored? name pairs.reverse := by
  induction pairs using List.reverseRecOn with
  | nil => rfl
  | append_singleton pairs e ih =>
    rw [ofList_concat, get?_insert, ih, List.reverse_append, List.reverse_singleton,
      List.singleton_append, stored?_cons]
    simp only [eq_comm]

theorem mem_names {m : NameMap α} {name : String} : name ∈ m.names ↔ m.contains name = true := by
  simp [names, contains]

/-- No name has two entries. -/
theorem nodup_names (m : NameMap α) : m.names.Nodup :=
  List.pairwise_map.mpr (m.ascending.imp (fun hlt => String.ne_of_lt hlt))

theorem get?_eq_some {m : NameMap α} {name : String} {x : α} :
    m.get? name = some x ↔ (name, x) ∈ m.entries := by
  rw [get?_eq_stored?, stored?_eq_some m.nodup_names]

/-- A map is known by its values, because its order is that of the names. -/
theorem ext_get? {m m' : NameMap α} (h : ∀ name, m.get? name = m'.get? name) : m = m' := by
  have hnodup : ∀ m : NameMap α, m.entries.Nodup := fun m =>
    m.ascending.imp (fun hlt heq => String.ne_of_lt hlt (congrArg Prod.fst heq))
  have hperm : m.entries.Perm m'.entries := by
    refine (List.perm_ext_iff_of_nodup (hnodup m) (hnodup m')).mpr (fun e => ?_)
    rw [← get?_eq_some, ← get?_eq_some, h]
  have hanti : ∀ a b : String × α, a.1 < b.1 → b.1 < a.1 → a = b :=
    fun _ _ hab hba => absurd hba (String.lt_asymm hab)
  exact ext_entries (hperm.eq_of_pairwise (fun a b _ _ => hanti a b) m.ascending m'.ascending)

/-- There are as many entries as names with a value. -/
theorem size_eq_ncard (m : NameMap α) :
    m.size = {name | (m.get? name).isSome = true}.ncard := by
  have hnames : {name | (m.get? name).isSome = true} = (m.names.toFinset : Set String) := by
    ext name
    simp [get?, names]
  rw [hnames, Set.ncard_coe_finset, List.toFinset_card_of_nodup m.nodup_names, names,
    List.length_map, size]

end NameMap

/-- An integer that is not too great has a word of 64 bits. -/
theorem toNat_ofNat_word {k : Int} (hpos : 0 ≤ k) (hlt : k < Word.bound) :
    ((UInt64.ofNat k.toNat).toNat : Int) = k := by
  have hword : k.toNat < UInt64.size := by
    change k.toNat < Word.bound
    omega
  rw [UInt64.toNat_ofNat_of_lt' hword, Int.toNat_of_nonneg hpos]

theorem toNat_lt_word (n : UInt64) : (n.toNat : Int) < Word.bound :=
  Int.ofNat_lt.mpr n.toNat_lt

theorem toInt_lt_word (n : Int64) : n.toInt < Word.bound :=
  n.toInt_lt.trans (by decide)

namespace Value

/-- The integer that a value is, in either representation. -/
def integer? : Value → Option Int
  | int n => some n.toInt
  | uint n => some n.toNat
  | _ => none

/-- Integers are read as words if they are such. -/
theorem asUInt64?_eq_some {x : Value} {n : UInt64} :
    x.asUInt64? = some n ↔ x.integer? = some (n.toNat : Int) := by
  cases x with
  | int k =>
    by_cases hpos : 0 ≤ k.toInt
    · have hword := toNat_ofNat_word hpos (toInt_lt_word k)
      simp only [asUInt64?, if_pos hpos, integer?, Option.some.injEq, ← UInt64.toNat_inj]
      omega
    · simp only [asUInt64?, if_neg hpos, integer?, Option.some.injEq, reduceCtorEq, false_iff]
      omega
  | uint k => simp [asUInt64?, integer?, ← UInt64.toNat_inj]
  | bool | float | str | list | map => simp [asUInt64?, integer?]

theorem integer?_lt_word {x : Value} {k : Int} (h : x.integer? = some k) : k < Word.bound := by
  cases x with
  | int n =>
    cases h
    exact toInt_lt_word n
  | uint n =>
    cases h
    exact toNat_lt_word n
  | bool | float | str | list | map => cases h

theorem asUInt64?_eq_none {x : Value} :
    x.asUInt64? = none ↔ ∀ k, x.integer? = some k → ¬ (0 ≤ k ∧ k < Word.bound) := by
  constructor
  · rintro hnone k hk ⟨hpos, hlt⟩
    have hsome := asUInt64?_eq_some.mpr (hk.trans (congrArg some (toNat_ofNat_word hpos hlt).symm))
    rw [hnone] at hsome
    cases hsome
  · intro h
    cases hx : x.asUInt64? with
    | none => rfl
    | some n =>
      exact absurd ⟨Int.natCast_nonneg _, toNat_lt_word n⟩ (h _ (asUInt64?_eq_some.mp hx))

/-- No value holds an integer above the words. -/
theorem asUInt64?_eq_none_iff_neg {x : Value} :
    x.asUInt64? = none ↔ ∀ k, x.integer? = some k → k < 0 := by
  rw [asUInt64?_eq_none]
  constructor
  · intro h k hk
    have hout := h k hk
    have hlt := integer?_lt_word hk
    omega
  · intro h k hk hin
    exact (h k hk).not_ge hin.1

theorem asBool?_eq_some {x : Value} {b : Bool} : x.asBool? = some b ↔ x = .bool b := by
  cases x <;> simp [asBool?]

theorem asBool?_eq_none {x : Value} : x.asBool? = none ↔ ∀ b, x ≠ .bool b := by
  cases x <;> simp [asBool?]

end Value

namespace Params

theorem get?_known (p : Params) (declared : Parameters) (name : String) :
    (p.known declared).get? name = if declared.contains name then p.get? name else none :=
  p.values.get?_restrict declared.contains name

theorem get?_erase (p : Params) (k name : String) :
    (p.erase k).get? name = if name = k then none else p.get? name :=
  p.values.get?_erase k name

theorem get?_insert (p : Params) (k : String) (x : Value) (name : String) :
    (p.insert k x).get? name = if name = k then some x else p.get? name :=
  p.values.get?_insert k x name

theorem ext_get? {p q : Params} (h : ∀ name, p.get? name = q.get? name) : p = q := by
  cases p
  cases q
  exact congrArg mk (NameMap.ext_get? h)

theorem mem_names {p : Params} {name : String} : name ∈ p.names ↔ p.contains name = true :=
  NameMap.mem_names

theorem names_ascending (p : Params) : p.names.Pairwise (· < ·) :=
  List.pairwise_map.mpr p.values.ascending

theorem isSome_get? {p : Params} {name : String} :
    (p.get? name).isSome = true ↔ name ∈ p.names := by
  simp [get?, names, NameMap.get?, NameMap.names]

/-- No warning is due where every name with a value is declared. -/
theorem unknown_eq_nil {p : Params} {declared : Parameters} : p.unknown declared = [] ↔
    ∀ name, (p.get? name).isSome = true → declared.contains name = true := by
  rw [unknown, List.map_eq_nil_iff, List.filter_eq_nil_iff]
  simp [isSome_get?]

theorem known_known (p : Params) (declared : Parameters) :
    (p.known declared).known declared = p.known declared := by
  refine ext_get? (fun name => ?_)
  rw [get?_known]
  split
  · rfl
  · rename_i hname
    rw [get?_known, if_neg hname]

/-- Nothing that is left is unknown. -/
theorem unknown_known (p : Params) (declared : Parameters) :
    (p.known declared).unknown declared = [] := by
  refine unknown_eq_nil.mpr (fun name hname => ?_)
  rw [get?_known] at hname
  split at hname
  · assumption
  · cases hname

/-- Warnings are logged one by one, after those that are logged already. -/
theorem run_warnUnknown (p : Params) (declared : Parameters) (log : List Warning) :
    (p.warnUnknown declared).run log = ((), log ++ p.unknown declared) := by
  have hlog (ws log : List Warning) : (ws.forM Logging.warn).run log = ((), log ++ ws) := by
    induction ws generalizing log with
    | nil => exact congrArg _ (List.append_nil log).symm
    | cons w ws ih =>
      calc ((w :: ws).forM Logging.warn).run log
        _ = (ws.forM Logging.warn).run (log ++ [w]) := rfl
        _ = ((), log ++ w :: ws) := by rw [ih, List.append_assoc, List.singleton_append]
  exact hlog (p.unknown declared) log

theorem run_retainKnown (p : Params) (declared : Parameters) (log : List Warning) :
    (p.retainKnown declared).run log = (p.known declared, log ++ p.unknown declared) := by
  rw [retainKnown, StateT.run_bind, run_warnUnknown]
  rfl

/-- What is taken is the value of the name, whatever else there is. -/
theorem takeWith_congr {p q : Params} {name : String} {expected : Expectation}
    {read : Value → Option α} (h : p.get? name = q.get? name) :
    (p.takeWith name expected read).1 = (q.takeWith name expected read).1 := by
  simp only [takeWith, remove, h]

theorem takeUInt64_of_get? {p : Params} {name : String} {x : Value} {n : UInt64}
    (h : p.get? name = some x) (hn : x.asUInt64? = some n) :
    p.takeUInt64 name = (.ok (some n), p.erase name) := by
  simp [takeUInt64, takeWith, remove, h, hn]

section
variable (p : Params) (name : String) (expected : Expectation) (read : Value → Option α)

/-- What is taken is nothing, a value that is refused, or one that is read. -/
theorem takeWith_cases :
    (p.get? name = none ∧ (p.takeWith name expected read).1 = .ok none) ∨
    (∃ x, p.get? name = some x ∧ read x = none ∧
      (p.takeWith name expected read).1 = .error ⟨name, expected, x⟩) ∨
    ∃ x a, p.get? name = some x ∧ read x = some a ∧
      (p.takeWith name expected read).1 = .ok (some a) := by
  unfold takeWith remove
  cases hget : p.get? name with
  | none => exact .inl ⟨rfl, rfl⟩
  | some x =>
    cases hx : read x with
    | none => exact .inr (.inl ⟨x, rfl, hx, by simp [hx]⟩)
    | some a => exact .inr (.inr ⟨x, a, rfl, hx, by simp [hx]⟩)

theorem takeWith_eq_some (a : α) : (p.takeWith name expected read).1 = .ok (some a) ↔
    ∃ x, p.get? name = some x ∧ read x = some a := by
  rcases p.takeWith_cases name expected read with
    ⟨hget, htaken⟩ | ⟨x, hget, hx, htaken⟩ | ⟨x, b, hget, hx, htaken⟩
  · simp [hget, htaken]
  · simp [hget, hx, htaken]
  · simp [hget, hx, htaken]

theorem takeWith_eq_none : (p.takeWith name expected read).1 = .ok none ↔ p.get? name = none := by
  rcases p.takeWith_cases name expected read with
    ⟨hget, htaken⟩ | ⟨x, hget, _, htaken⟩ | ⟨x, b, hget, _, htaken⟩
  · simp [hget, htaken]
  · simp [hget, htaken]
  · simp [hget, htaken]

theorem takeWith_eq_error (e : ParamError) : (p.takeWith name expected read).1 = .error e ↔
    ∃ x, p.get? name = some x ∧ read x = none ∧ e = ⟨name, expected, x⟩ := by
  rcases p.takeWith_cases name expected read with
    ⟨hget, htaken⟩ | ⟨x, hget, hx, htaken⟩ | ⟨x, b, hget, hx, htaken⟩
  · simp [hget, htaken]
  · simp [hget, hx, htaken, eq_comm]
  · simp [hget, hx, htaken]

end

/-- What is taken as a word of 64 bits is nothing, no such word, or a word. -/
theorem take_word_cases (p : Params) (name : String) (expected : Expectation) :
    (p.get? name = none ∧ (p.takeWith name expected Value.asUInt64?).1 = .ok none) ∨
    (∃ x, p.get? name = some x ∧ (∀ k, x.integer? = some k → ¬ (0 ≤ k ∧ k < Word.bound)) ∧
      (p.takeWith name expected Value.asUInt64?).1 = .error ⟨name, expected, x⟩) ∨
    ∃ x n, p.get? name = some x ∧ x.integer? = some (n.toNat : Int) ∧
      (p.takeWith name expected Value.asUInt64?).1 = .ok (some n) := by
  simpa only [Value.asUInt64?_eq_none, Value.asUInt64?_eq_some] using
    p.takeWith_cases name expected Value.asUInt64?

end Params
end BinaryQuadratic
