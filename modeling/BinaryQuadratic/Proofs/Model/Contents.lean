import BinaryQuadratic.Model.Basic
import BinaryQuadratic.Proofs.Coefficient
import BinaryQuadratic.Proofs.Lists
import BinaryQuadratic.Proofs.Model.WellFormed
import Mathlib

namespace BinaryQuadratic

/-- Adds to the value at `k`, or to zero where there is none. -/
def credit [DecidableEq K] (f : K → Option Rat) (k : K) (x : Rat) : K → Option Rat :=
  Function.update f k (some ((f k).getD 0 + x))

theorem credit_comm [DecidableEq K] (f : K → Option Rat) (j k : K) (x y : Rat) :
    credit (credit f j x) k y = credit (credit f k y) j x := by
  by_cases hjk : j = k
  · subst hjk
    simp [credit, add_right_comm]
  · have hkj : k ≠ j := fun h => hjk h.symm
    simp [credit, hjk, hkj, Function.update_comm hkj]

theorem stored?_accumulate [DecidableEq K] (k : K) (x : Rat) (es : List (K × Rat)) :
    (stored? · (accumulate k x es)) = credit (stored? · es) k x := by
  funext k'
  by_cases hk : k' = k
  · subst hk
    rw [credit, Function.update_self]
    induction es with
    | nil =>
      rw [accumulate, stored?_cons, if_pos rfl]
      rfl
    | cons e es ih =>
      by_cases he : e.1 = k'
      · simp [accumulate, stored?_cons, he]
      · simp [accumulate, stored?_cons, he, ih]
  · rw [credit, Function.update_of_ne hk]
    have hk' : k ≠ k' := fun h => hk h.symm
    induction es with
    | nil => simp [accumulate, stored?_cons, hk']
    | cons e es ih =>
      by_cases he : e.1 = k
      · simp [accumulate, stored?_cons, he, hk']
      · simp [accumulate, stored?_cons, he, ih]

namespace Model

variable {V : Type} [DecidableEq V]

section
variable {R : Type}

theorem pairKey_comm (i j : Nat) : pairKey i j = pairKey j i := by
  rw [pairKey, pairKey, Nat.min_comm, Nat.max_comm]

theorem interaction?_eq_stored? (m : Model V R) (u v : V) :
    m.interaction? u v = (m.indexOf? u).bind (fun i => (m.indexOf? v).bind (fun j =>
      stored? (pairKey i j) m.quadratic)) := by
  simp only [stored?, Option.map_eq_bind]
  rfl

theorem interaction?_comm (m : Model V R) (u v : V) : m.interaction? u v = m.interaction? v u := by
  rw [interaction?_eq_stored?, interaction?_eq_stored?]
  cases m.indexOf? u with
  | none => cases m.indexOf? v <;> rfl
  | some i =>
    cases m.indexOf? v with
    | none => rfl
    | some j => simp only [Option.bind_some, pairKey_comm i j]

/-- The interaction of two variables, whichever comes first. -/
def pair? (m : Model V R) : Sym2 V → Option R :=
  Sym2.lift ⟨m.interaction?, m.interaction?_comm⟩

omit [DecidableEq V] in
theorem mem_interactions {m : Model V R} {u v : V} {b : R} :
    ((u, v), b) ∈ m.interactions ↔
      ∃ i j, m.labels[i]? = some u ∧ m.labels[j]? = some v ∧ ((i, j), b) ∈ m.quadratic := by
  simp only [interactions, List.mem_filterMap, label?]
  constructor
  · rintro ⟨⟨⟨i, j⟩, b'⟩, hq, h⟩
    simp only [Option.bind_eq_bind, Option.bind_eq_some_iff] at h
    obtain ⟨u', hu, v', hv, he⟩ := h
    cases he
    exact ⟨i, j, hu, hv, hq⟩
  · rintro ⟨i, j, hu, hv, hq⟩
    exact ⟨((i, j), b), hq, by simp [hu, hv]⟩

/-- Labels that stand at two positions are equal only if the positions are. -/
theorem WellFormed.label_inj {m : Model V R} (h : m.WellFormed) {i j : Nat} {u v : V}
    (hu : m.labels[i]? = some u) (hv : m.labels[j]? = some v) : u = v ↔ i = j := by
  constructor
  · rintro rfl
    exact Option.some.inj ((h.indexOf?_eq_some.mpr hu).symm.trans (h.indexOf?_eq_some.mpr hv))
  · rintro rfl
    exact Option.some.inj (hu.symm.trans hv)

theorem pairKey_eq_iff {i j i' j' : Nat} : pairKey i j = pairKey i' j' ↔ s(i, j) = s(i', j') := by
  simp only [pairKey, Prod.mk.injEq, Sym2.eq_iff]
  omega

/-- Two pairs of variables are the same when they are filed under one key. -/
theorem WellFormed.pair_eq_iff {m : Model V R} (h : m.WellFormed) {i j i' j' : Nat} {u v u' v' : V}
    (hu : m.labels[i]? = some u) (hv : m.labels[j]? = some v) (hu' : m.labels[i']? = some u')
    (hv' : m.labels[j']? = some v') : s(u, v) = s(u', v') ↔ pairKey i j = pairKey i' j' := by
  rw [pairKey_eq_iff, Sym2.eq_iff, Sym2.eq_iff, h.label_inj hu hu', h.label_inj hv hv',
    h.label_inj hu hv', h.label_inj hv hu']

theorem WellFormed.pair?_of_labels {m : Model V R} (h : m.WellFormed) {i j : Nat} {u v : V}
    (hu : m.labels[i]? = some u) (hv : m.labels[j]? = some v) :
    m.pair? s(u, v) = stored? (pairKey i j) m.quadratic := by
  change m.interaction? u v = _
  rw [interaction?_eq_stored?, h.indexOf?_eq_some.mpr hu, h.indexOf?_eq_some.mpr hv]
  rfl

/-- Only two variables of the model have an interaction. -/
theorem WellFormed.pair?_eq_some {m : Model V R} (h : m.WellFormed) {u v : V} {b : R} :
    m.pair? s(u, v) = some b ↔
      ∃ i j, m.labels[i]? = some u ∧ m.labels[j]? = some v ∧
        stored? (pairKey i j) m.quadratic = some b := by
  constructor
  · intro hb
    change m.interaction? u v = some b at hb
    simp only [interaction?_eq_stored?, Option.bind_eq_some_iff] at hb
    obtain ⟨i, hu, j, hv, hb⟩ := hb
    exact ⟨i, j, h.indexOf?_eq_some.mp hu, h.indexOf?_eq_some.mp hv, hb⟩
  · rintro ⟨i, j, hu, hv, hb⟩
    rw [h.pair?_of_labels hu hv, hb]

theorem WellFormed.mem_labels_of_pair? {m : Model V R} (h : m.WellFormed) {u v : V} {b : R}
    (hb : m.pair? s(u, v) = some b) : u ∈ m.labels ∧ v ∈ m.labels := by
  obtain ⟨i, j, hu, hv, _⟩ := h.pair?_eq_some.mp hb
  exact ⟨List.mem_of_getElem? hu, List.mem_of_getElem? hv⟩

omit [DecidableEq V] in
/-- Both variables of a filed interaction have a label. -/
theorem WellFormed.lt_of_pairKey {m : Model V R} (h : m.WellFormed) {i j : Nat} {b : R}
    (hb : stored? (pairKey i j) m.quadratic = some b) : i < m.numVariables ∧ j < m.numVariables := by
  have hkey : pairKey i j ∈ m.keys := isSome_stored?.mp (by simp [hb])
  have hlt : max i j < m.numVariables := (h.ordered _ hkey).2
  omega

end

variable {m : Model V Rat}

/-- A new variable has no interactions, and leaves the others theirs. -/
theorem WellFormed.pair?_addVariable (h : m.WellFormed) (v : V) (x : Rat) :
    (m.addVariable v x).1.pair? = m.pair? := by
  have h' := h.addVariable v x
  funext p
  induction p with | h a b => ?_
  apply Option.ext
  intro c
  rw [h'.pair?_eq_some, h.pair?_eq_some]
  refine exists_congr (fun i => exists_congr (fun j => ?_))
  change _ ∧ _ ∧ stored? (pairKey i j) m.quadratic = some c ↔ _
  by_cases hc : stored? (pairKey i j) m.quadratic = some c
  · obtain ⟨hi, hj⟩ := h.lt_of_pairKey hc
    rw [labels_addVariable_of_lt v x hi, labels_addVariable_of_lt v x hj]
  · simp [hc]

theorem WellFormed.pair?_addInteractionAt (h : m.WellFormed) {i j : Nat} {u v : V}
    (hu : m.labels[i]? = some u) (hv : m.labels[j]? = some v) (hne : i ≠ j) (x : Rat) :
    (m.addInteractionAt i j x).pair? = credit m.pair? s(u, v) x := by
  have h' := h.addInteractionAt x (lt_of_label hu) (lt_of_label hv) hne
  funext p
  induction p with | h a b => ?_
  by_cases hlabels : a ∈ m.labels ∧ b ∈ m.labels
  · obtain ⟨k, ha⟩ := List.mem_iff_getElem?.mp hlabels.1
    obtain ⟨l, hb⟩ := List.mem_iff_getElem?.mp hlabels.2
    have hfiled := congrFun (stored?_accumulate (pairKey i j) x m.quadratic) (pairKey k l)
    rw [h'.pair?_of_labels ha hb]
    refine hfiled.trans ?_
    simp only [credit, Function.update_apply, h.pair_eq_iff ha hb hu hv, h.pair?_of_labels hu hv,
      h.pair?_of_labels ha hb]
  · have hnone : ∀ {m' : Model V Rat}, m'.WellFormed → m'.labels = m.labels →
        m'.pair? s(a, b) = none := by
      intro m' hm' hl
      rw [Option.eq_none_iff_forall_ne_some]
      intro c hc
      exact hlabels (hl ▸ hm'.mem_labels_of_pair? hc)
    have hpair : s(a, b) ≠ s(u, v) := by
      intro he
      have hmem : ∀ w ∈ s(a, b), w ∈ m.labels := by
        rw [he]
        simp [List.mem_of_getElem? hu, List.mem_of_getElem? hv]
      exact hlabels ⟨hmem a (by simp), hmem b (by simp)⟩
    rw [credit, Function.update_of_ne hpair, hnone h rfl]
    exact hnone h' rfl

theorem bias?_addVariable (m : Model V Rat) (v : V) (x : Rat) :
    (m.addVariable v x).1.bias? = credit m.bias? v x :=
  stored?_accumulate v x m.linear

theorem bias?_join (m : Model V Rat) (u v : V) (x : Rat) :
    (m.join u v x).bias? = credit (credit m.bias? u 0) v 0 := by
  rw [← bias?_addVariable m u 0, ← bias?_addVariable _ v 0]
  rfl

theorem WellFormed.pair?_join (h : m.WellFormed) {u v : V} (hne : u ≠ v) (x : Rat) :
    (m.join u v x).pair? = credit m.pair? s(u, v) x := by
  obtain ⟨i, j, hu, hv, he⟩ := join_eq_addInteractionAt m u v x
  have hplaces : i ≠ j := fun hij => hne (((h.mention u v).label_inj hu hv).mpr hij)
  rw [he, (h.mention u v).pair?_addInteractionAt hu hv hplaces]
  congr 1
  exact ((h.addVariable u _).pair?_addVariable v _).trans (h.pair?_addVariable u _)

end Model

/-- The biases of a model, without the order in which they came. -/
@[ext]
structure Contents (V : Type) where
  bias : V → Option Rat
  pair : Sym2 V → Option Rat

variable {V : Type} [DecidableEq V]

/-- Adds to the interaction of a pair, or to the bias of a variable paired with itself. Variables
that are named get a bias of zero if they had none. -/
def Contents.record (c : Contents V) (e : Sym2 V × Rat) : Contents V where
  bias w := if w ∈ e.1 then some ((c.bias w).getD 0 + if e.1.IsDiag then e.2 else 0) else c.bias w
  pair := if e.1.IsDiag then c.pair else credit c.pair e.1 e.2

theorem Contents.record_comm (c : Contents V) (e e' : Sym2 V × Rat) :
    (c.record e).record e' = (c.record e').record e := by
  apply Contents.ext
  · funext w
    by_cases he : w ∈ e.1
    · by_cases he' : w ∈ e'.1
      · simp [record, he, he', add_right_comm]
      · simp [record, he, he']
    · by_cases he' : w ∈ e'.1 <;> simp [record, he, he']
  · by_cases he : e.1.IsDiag
    · by_cases he' : e'.1.IsDiag <;> simp [record, he, he']
    · by_cases he' : e'.1.IsDiag
      · simp [record, he, he']
      · simp [record, he, he', credit_comm]

theorem Contents.isSome_bias_foldl (es : List (Sym2 V × Rat)) (c : Contents V) (w : V) :
    ((es.foldl record c).bias w).isSome = true ↔
      (c.bias w).isSome = true ∨ ∃ e ∈ es, w ∈ e.1 := by
  induction es generalizing c with
  | nil => simp
  | cons e es ih =>
    rw [List.foldl_cons, ih]
    by_cases he : w ∈ e.1 <;> simp [record, he]

namespace Model

def contents (m : Model V Rat) : Contents V :=
  ⟨m.bias?, m.pair?⟩

/-- An entry of a list from which a model is built: an interaction, or a bias on the diagonal. -/
def file {R : Type} [Coefficient R] (m : Model V R) (e : (V × V) × R) : Model V R :=
  if e.1.1 = e.1.2 then (m.addVariable e.1.1 e.2).1 else m.join e.1.1 e.1.2 e.2

theorem WellFormed.file {R : Type} [Coefficient R] {m : Model V R} (h : m.WellFormed)
    (e : (V × V) × R) : (m.file e).WellFormed := by
  unfold Model.file
  split
  · exact h.addVariable _ _
  · rename_i hne
    exact h.join _ hne

theorem offset_file {R : Type} [Coefficient R] (m : Model V R) (e : (V × V) × R) :
    (m.file e).offset = m.offset := by
  unfold file
  split <;> rfl

theorem vartype_file {R : Type} [Coefficient R] (m : Model V R) (e : (V × V) × R) :
    (m.file e).vartype = m.vartype := by
  unfold file
  split <;> rfl

/-- The entry with its two variables in no order. -/
def unordered {R : Type} (e : (V × V) × R) : Sym2 V × R :=
  (s(e.1.1, e.1.2), e.2)

theorem WellFormed.contents_file {m : Model V Rat} (h : m.WellFormed) (e : (V × V) × Rat) :
    (m.file e).contents = m.contents.record (unordered e) := by
  obtain ⟨⟨u, v⟩, x⟩ := e
  by_cases huv : u = v
  · subst huv
    apply Contents.ext
    · funext w
      by_cases hw : w = u <;>
        simp [Model.file, contents, bias?_addVariable, credit, Contents.record, unordered, hw]
    · simp [Model.file, contents, h.pair?_addVariable, Contents.record, unordered]
  · have hvu : v ≠ u := fun h => huv h.symm
    apply Contents.ext
    · funext w
      by_cases hu : w = u <;> by_cases hv : w = v <;>
        simp [Model.file, contents, bias?_join, credit, Contents.record, unordered, hu,
          hv, huv, hvu]
    · simp [Model.file, contents, h.pair?_join huv, Contents.record, unordered, huv]

section
variable {R : Type}

theorem isSome_bias? {m : Model V R} {v : V} : (m.bias? v).isSome = true ↔ v ∈ m.labels :=
  isSome_stored?

theorem WellFormed.bias?_of_mem {m : Model V R} (h : m.WellFormed) {v : V} {b : R}
    (hb : (v, b) ∈ m.linear) : m.bias? v = some b :=
  (stored?_eq_some h.labels).mpr hb

theorem WellFormed.pair?_of_mem {m : Model V R} (h : m.WellFormed) {u v : V} {b : R}
    (hb : ((u, v), b) ∈ m.interactions) : m.pair? s(u, v) = some b := by
  obtain ⟨i, j, hu, hv, hq⟩ := mem_interactions.mp hb
  have hij : i < j := (h.ordered (i, j) (List.mem_map.mpr ⟨_, hq, rfl⟩)).1
  have hkey : pairKey i j = (i, j) := by
    simp only [pairKey, Prod.mk.injEq]
    omega
  rw [h.pair?_of_labels hu hv, hkey]
  exact (stored?_eq_some h.keys).mpr hq

/-- The pairs of variables that interact. -/
def pairs (m : Model V R) : List (Sym2 V) :=
  m.interactions.map (fun e => s(e.1.1, e.1.2))

theorem WellFormed.mem_pairs {m : Model V R} (h : m.WellFormed) {p : Sym2 V} :
    p ∈ m.pairs ↔ (m.pair? p).isSome = true := by
  constructor
  · intro hp
    obtain ⟨⟨⟨u, v⟩, b⟩, hb, rfl⟩ := List.mem_map.mp hp
    simp [h.pair?_of_mem hb]
  · induction p with | h u v => ?_
    intro hp
    obtain ⟨b, hb⟩ := Option.isSome_iff_exists.mp hp
    obtain ⟨i, j, hu, hv, hq⟩ := h.pair?_eq_some.mp hb
    have hq := (stored?_eq_some h.keys).mp hq
    -- The interaction lists first the variable that came first.
    rcases Nat.le_total i j with hij | hji
    · rw [pairKey, Nat.min_eq_left hij, Nat.max_eq_right hij] at hq
      exact List.mem_map.mpr ⟨((u, v), b), mem_interactions.mpr ⟨i, j, hu, hv, hq⟩, rfl⟩
    · rw [pairKey, Nat.min_eq_right hji, Nat.max_eq_left hji] at hq
      exact List.mem_map.mpr ⟨((v, u), b), mem_interactions.mpr ⟨j, i, hv, hu, hq⟩, Sym2.eq_swap⟩

/-- No pair is listed twice, since no key is. -/
theorem WellFormed.pairs_nodup {m : Model V R} (h : m.WellFormed) : m.pairs.Nodup := by
  refine List.pairwise_map.mpr (List.pairwise_filterMap.mpr ?_)
  refine (List.pairwise_map.mp h.keys).imp_of_mem ?_
  rintro ⟨⟨i, j⟩, b⟩ ⟨⟨i', j'⟩, b'⟩ hq hq' hne ⟨⟨u, v⟩, c⟩ he ⟨⟨u', v'⟩, c'⟩ he' hpair
  simp only [label?, Option.bind_eq_bind, Option.bind_eq_some_iff] at he he'
  obtain ⟨_, hu, _, hv, he⟩ := he
  obtain ⟨_, hu', _, hv', he'⟩ := he'
  cases he
  cases he'
  have hkey := (h.pair_eq_iff hu hv hu' hv').mp hpair
  have hij : i < j := (h.ordered (i, j) (List.mem_map.mpr ⟨_, hq, rfl⟩)).1
  have hij' : i' < j' := (h.ordered (i', j') (List.mem_map.mpr ⟨_, hq', rfl⟩)).1
  apply hne
  simp only [pairKey, Prod.mk.injEq] at hkey ⊢
  omega

end

end Model
end BinaryQuadratic
