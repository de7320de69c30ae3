import BinaryQuadratic.Model.Json
import BinaryQuadratic.Model.Transform
import BinaryQuadratic.Proofs.Fallible

namespace BinaryQuadratic

/-- A key that is not there yet goes last. -/
def appendNew [DecidableEq K] (k : K) (ks : List K) : List K :=
  if k ∈ ks then ks else ks ++ [k]

theorem prefix_appendNew [DecidableEq K] (k : K) (ks : List K) : ks <+: appendNew k ks := by
  unfold appendNew
  split <;> simp

theorem mem_appendNew [DecidableEq K] {k k' : K} {ks : List K} :
    k' ∈ appendNew k ks ↔ k' = k ∨ k' ∈ ks := by
  unfold appendNew
  split
  · rename_i hk
    constructor
    · exact .inr
    · rintro (rfl | h)
      · exact hk
      · exact h
  · simp [or_comm]

theorem nodup_appendNew [DecidableEq K] {ks : List K} (k : K) (h : ks.Nodup) :
    (appendNew k ks).Nodup := by
  unfold appendNew
  split
  · exact h
  · rename_i hk
    refine List.nodup_append.mpr ⟨h, by simp, ?_⟩
    intro a ha b hb he
    simp only [List.mem_singleton] at hb
    exact hk (hb ▸ he ▸ ha)

theorem eraseDups_concat [BEq K] [LawfulBEq K] [DecidableEq K] (ks : List K) (k : K) :
    (ks ++ [k]).eraseDups = appendNew k ks.eraseDups := by
  rw [List.eraseDups_append]
  by_cases hk : k ∈ ks <;> simp [appendNew, hk, List.removeAll, List.eraseDups_cons]

/-- The first occurrences in a longer list: elements that are new go last. -/
theorem eraseDups_append_eq_foldl [BEq K] [LawfulBEq K] [DecidableEq K] (ks new : List K) :
    (ks ++ new).eraseDups = new.foldl (fun ks k => appendNew k ks) ks.eraseDups := by
  induction new generalizing ks with
  | nil => simp
  | cons k new ih => rw [List.append_cons, ih, eraseDups_concat, List.foldl_cons]

theorem nodup_eraseDups [BEq K] [LawfulBEq K] [DecidableEq K] (ks : List K) :
    ks.eraseDups.Nodup := by
  induction ks using List.reverseRecOn with
  | nil => simp
  | append_singleton ks k ih =>
    rw [eraseDups_concat]
    exact nodup_appendNew k ih

theorem keys_accumulate [DecidableEq K] [Coefficient R] (k : K) (x : R) (es : List (K × R)) :
    (accumulate k x es).map (·.1) = appendNew k (es.map (·.1)) := by
  unfold appendNew
  induction es with
  | nil => simp [accumulate]
  | cons e es ih =>
    by_cases he : e.1 = k
    · simp [accumulate, he]
    · have hk : k ≠ e.1 := fun h => he h.symm
      simp only [accumulate, he, ↓reduceIte, List.map_cons, ih, List.mem_cons, hk, false_or]
      split <;> simp

namespace Model

variable {V R : Type}

theorem labels_assignBias [DecidableEq V] (v : V) (b : R) (l : List (V × R)) :
    (assignBias v b l).map (·.1) = appendNew v (l.map (·.1)) := by
  unfold appendNew
  induction l with
  | nil => simp [assignBias]
  | cons e l ih =>
    by_cases he : e.1 = v
    · simp [assignBias, he]
    · have hv : v ≠ e.1 := fun h => he h.symm
      simp only [assignBias, he, ↓reduceIte, List.map_cons, ih, List.mem_cons, hv, false_or]
      split <;> simp

/-- Where the interactions are filed, in their order. -/
def keys (m : Model V R) : List (Nat × Nat) :=
  m.quadratic.map (·.1)

/-- No label and no key stands twice, and a key names two variables of the model, the one further
left first. In particular no variable interacts with itself. -/
structure WellFormed (m : Model V R) : Prop where
  labels : m.labels.Nodup
  keys : m.keys.Nodup
  ordered : ∀ k ∈ m.keys, k.1 < k.2 ∧ k.2 < m.numVariables

theorem isEmpty_eq_false {m : Model V R} : m.isEmpty = false ↔ m.numVariables ≠ 0 := by
  simp [Model.isEmpty, Model.numVariables]

theorem isEmpty_iff {m : Model V R} : m.isEmpty = true ↔ m.numVariables = 0 := by
  simp [Model.isEmpty, Model.numVariables]

@[simp] theorem length_labels (m : Model V R) : m.labels.length = m.numVariables := by
  simp [labels, numVariables]

theorem lt_of_label {m : Model V R} {i : Nat} {v : V} (h : m.labels[i]? = some v) :
    i < m.numVariables := by
  rw [← length_labels]
  exact (List.getElem?_eq_some_iff.mp h).1

/-- The invariant speaks of labels and keys only, whatever becomes of biases, offset and domain. -/
theorem WellFormed.of_same {m m' : Model V R} (h : m.WellFormed) (hl : m'.labels = m.labels)
    (hk : m'.keys = m.keys) : m'.WellFormed := by
  refine ⟨hl ▸ h.labels, hk ▸ h.keys, ?_⟩
  intro k hm
  rw [← length_labels, hl, length_labels]
  exact h.ordered k (hk ▸ hm)

/-- Both positions of a key have a label. -/
theorem WellFormed.labels_of_key {m : Model V R} (h : m.WellFormed) {k : Nat × Nat}
    (hk : k ∈ m.keys) : ∃ u v, m.label? k.1 = some u ∧ m.label? k.2 = some v := by
  obtain ⟨hlt, hn⟩ := h.ordered k hk
  rw [← length_labels] at hn
  exact ⟨_, _, List.getElem?_eq_getElem (Nat.lt_trans hlt hn), List.getElem?_eq_getElem hn⟩

/-- The listing by label leaves out no interaction. -/
theorem WellFormed.length_interactions {m : Model V R} (h : m.WellFormed) :
    m.interactions.length = m.numInteractions := by
  unfold interactions numInteractions
  rw [List.filterMap_length_eq_length]
  intro q hq
  obtain ⟨u, v, hu, hv⟩ := h.labels_of_key (List.mem_map.mpr ⟨q, hq, rfl⟩)
  simp [hu, hv]

section
variable [DecidableEq V]

/-- Since no label repeats, the position of a label is the only one where it stands. -/
theorem WellFormed.indexOf?_eq_some {m : Model V R} (h : m.WellFormed) {v : V} {i : Nat} :
    m.indexOf? v = some i ↔ m.labels[i]? = some v := by
  constructor
  · intro hv
    obtain ⟨hi, he, _⟩ := List.findIdx?_eq_some_iff_getElem.mp hv
    rw [List.getElem?_eq_getElem hi]
    simpa using he
  · intro hv
    obtain ⟨hi, he⟩ := List.getElem?_eq_some_iff.mp hv
    refine List.findIdx?_eq_some_iff_getElem.mpr ⟨hi, by simpa using he, ?_⟩
    intro j hj
    have hne : m.labels[j] ≠ m.labels[i] := List.pairwise_iff_getElem.mp h.labels j i _ _ hj
    simpa [he] using hne

theorem WellFormed.places {m : Model V R} (h : m.WellFormed) :
    m.labels.map m.place = List.range m.numVariables := by
  apply List.ext_getElem?
  intro i
  cases hv : m.labels[i]? with
  | none =>
    rw [List.getElem?_eq_none_iff, length_labels] at hv
    simp [hv, length_labels]
  | some v =>
    have hi := (List.getElem?_eq_some_iff.mp hv).1
    rw [length_labels] at hi
    rw [List.getElem?_map, hv, List.getElem?_range hi]
    simp [place, h.indexOf?_eq_some.mpr hv]

end

theorem wellFormed_ofEntries [DecidableEq V] (entries : List (V × R)) (offset : R) (t : Vartype) :
    (ofEntries entries offset t).WellFormed := by
  refine ⟨?_, .nil, by simp [Model.keys, ofEntries]⟩
  apply List.foldlRecOn (motive := fun l : List (V × R) => (l.map (·.1)).Nodup) entries
  · exact .nil
  intro l hl e _
  rw [labels_assignBias]
  exact nodup_appendNew e.1 hl

section
variable [Coefficient R]

theorem wellFormed_empty (t : Vartype) : (empty t : Model V R).WellFormed :=
  ⟨.nil, .nil, by simp [Model.keys, empty]⟩

theorem WellFormed.addOffset {m : Model V R} (h : m.WellFormed) (x : R) :
    (m.addOffset x).WellFormed :=
  h.of_same rfl rfl

theorem WellFormed.addInteractionAt {m : Model V R} (h : m.WellFormed) {i j : Nat} (x : R)
    (hi : i < m.numVariables) (hj : j < m.numVariables) (hne : i ≠ j) :
    (m.addInteractionAt i j x).WellFormed := by
  have hkeys : (m.addInteractionAt i j x).keys = appendNew (pairKey i j) m.keys :=
    keys_accumulate _ x m.quadratic
  refine ⟨h.labels, hkeys ▸ nodup_appendNew _ h.keys, ?_⟩
  intro k hk
  rw [hkeys] at hk
  rcases mem_appendNew.mp hk with rfl | hk
  · change min i j < max i j ∧ max i j < m.numVariables
    omega
  · exact h.ordered k hk

variable [DecidableEq V]

theorem labels_addVariable (m : Model V R) (v : V) (x : R) :
    (m.addVariable v x).1.labels = appendNew v m.labels :=
  keys_accumulate v x m.linear

/-- Variables that are there keep their positions. -/
theorem labels_addVariable_of_lt {m : Model V R} (v : V) (x : R) {i : Nat}
    (hi : i < m.numVariables) : (m.addVariable v x).1.labels[i]? = m.labels[i]? := by
  obtain ⟨tail, ht⟩ := prefix_appendNew v m.labels
  rw [labels_addVariable, ← ht, List.getElem?_append_left (by rwa [length_labels])]

theorem WellFormed.addVariable {m : Model V R} (h : m.WellFormed) (v : V) (x : R) :
    (m.addVariable v x).1.WellFormed := by
  have hlabels := labels_addVariable m v x
  refine ⟨hlabels ▸ nodup_appendNew v h.labels, h.keys, ?_⟩
  intro k hk
  obtain ⟨hlt, hn⟩ := h.ordered k hk
  have hle := (hlabels ▸ prefix_appendNew v m.labels).length_le
  rw [length_labels, length_labels] at hle
  exact ⟨hlt, by omega⟩

/-- The position that adding a variable tells is where its label then stands. -/
theorem label_place (m : Model V R) (v : V) (x : R) :
    (m.addVariable v x).1.labels[m.place v]? = some v := by
  rw [labels_addVariable, appendNew]
  cases hf : m.indexOf? v with
  | none =>
    have hv : v ∉ m.labels := by
      intro hv
      have := List.findIdx?_eq_none_iff.mp hf v hv
      simp at this
    simp [place, hf, hv, ← length_labels]
  | some i =>
    obtain ⟨hi, hv, _⟩ := List.findIdx?_eq_some_iff_getElem.mp hf
    have he : m.labels[i] = v := by simpa using hv
    have hm : v ∈ m.labels := he ▸ List.getElem_mem hi
    simp [place, hf, hm, List.getElem?_eq_getElem hi, he]

/-- The model with both variables in it. -/
def mention (m : Model V R) (u v : V) : Model V R :=
  ((m.addVariable u Coefficient.zero).1.addVariable v Coefficient.zero).1

theorem WellFormed.mention {m : Model V R} (h : m.WellFormed) (u v : V) :
    (m.mention u v).WellFormed :=
  (h.addVariable u _).addVariable v _

/-- Joining two variables files an interaction at their positions. -/
theorem join_eq_addInteractionAt (m : Model V R) (u v : V) (x : R) :
    ∃ i j, (m.mention u v).labels[i]? = some u ∧ (m.mention u v).labels[j]? = some v ∧
      m.join u v x = (m.mention u v).addInteractionAt i j x := by
  let m₁ := (m.addVariable u Coefficient.zero).1
  have hu : m₁.labels[m.place u]? = some u := label_place m u Coefficient.zero
  exact ⟨m.place u, m₁.place v, (labels_addVariable_of_lt v _ (lt_of_label hu)).trans hu,
    label_place m₁ v Coefficient.zero, rfl⟩

/-- Labels that differ have positions that differ, so that a joined pair has a proper key. -/
theorem WellFormed.join {m : Model V R} (h : m.WellFormed) {u v : V} (x : R) (hne : u ≠ v) :
    (m.join u v x).WellFormed := by
  obtain ⟨i, j, hu, hv, he⟩ := join_eq_addInteractionAt m u v x
  have hplaces : i ≠ j := by
    rintro rfl
    exact hne (Option.some.inj (hu.symm.trans hv))
  rw [he]
  exact (h.mention u v).addInteractionAt x (lt_of_label hu) (lt_of_label hv) hplaces

theorem WellFormed.addInteraction {m m' : Model V R} (h : m.WellFormed) {u v : V} {x : R}
    (ha : m.addInteraction u v x = .ok m') : m'.WellFormed := by
  unfold Model.addInteraction at ha
  split at ha
  · cases ha
  · rename_i hne
    cases ha
    exact h.join x hne

theorem wellFormed_ofIsing {h : List (V × R)} {j : List ((V × V) × R)} {offset : R}
    {m : Model V R} (hm : ofIsing h j offset = .ok m) : m.WellFormed := by
  obtain ⟨m₁, hj, he⟩ := bind_ok.mp hm
  cases he
  have hlinear : (h.foldl (fun m e => (m.addVariable e.1 e.2).1) (empty .spin)).WellFormed :=
    List.foldlRecOn h _ (wellFormed_empty _) (fun m hm e _ => hm.addVariable e.1 e.2)
  exact (foldlM_keeps (fun _ _ _ hm ha => hm.addInteraction ha) hlinear hj).addOffset offset

theorem wellFormed_ofQubo (q : List ((V × V) × R)) (offset : R) : (ofQubo q offset).WellFormed := by
  refine WellFormed.addOffset (List.foldlRecOn q _ (wellFormed_empty _) ?_) offset
  intro m hm e _
  by_cases he : e.1.1 = e.1.2
  · simpa [he] using hm.addVariable e.1.2 e.2
  · simpa [he] using hm.join e.2 he

end

theorem labels_modifyBias (i : Nat) (f : R → R) (l : List (V × R)) :
    (modifyBias i f l).map (·.1) = l.map (·.1) := by
  apply List.ext_getElem?
  intro k
  by_cases hk : i = k <;> simp [modifyBias, hk, Function.comp_def]

theorem labels_foldl {A : Type} {step : List (V × R) → A → List (V × R)}
    (hstep : ∀ l a, (step l a).map (·.1) = l.map (·.1)) (as : List A) (l : List (V × R)) :
    (as.foldl step l).map (·.1) = l.map (·.1) :=
  List.foldlRecOn (motive := fun l' => l'.map (·.1) = l.map (·.1)) as step rfl
    (fun l' hl a _ => (hstep l' a).trans hl)

section
variable [Coefficient R]

/-- No rewriting touches labels or keys. -/
@[simp] theorem labels_changeVartype (m : Model V R) (t : Vartype) :
    (m.changeVartype t).labels = m.labels := by
  unfold changeVartype
  split
  · refine (labels_foldl (fun l q => ?_) _ _).trans (by simp [labels])
    simp only [labels_modifyBias]
  · refine (labels_foldl (fun l q => ?_) _ _).trans (by simp [labels])
    simp only [labels_modifyBias]
  · rfl

@[simp] theorem numVariables_changeVartype (m : Model V R) (t : Vartype) :
    (m.changeVartype t).numVariables = m.numVariables := by
  rw [← length_labels, labels_changeVartype, length_labels]

@[simp] theorem isEmpty_changeVartype (m : Model V R) (t : Vartype) :
    (m.changeVartype t).isEmpty = m.isEmpty := by
  rw [Bool.eq_iff_iff, isEmpty_iff, isEmpty_iff, numVariables_changeVartype]

@[simp] theorem vartype_changeVartype (m : Model V R) (t : Vartype) :
    (m.changeVartype t).vartype = t := by
  cases hm : m.vartype <;> cases t <;> simp [changeVartype, hm, toSpin, toBinary]

@[simp] theorem keys_changeVartype (m : Model V R) (t : Vartype) :
    (m.changeVartype t).keys = m.keys := by
  unfold changeVartype
  split <;> simp [keys, toSpin, toBinary]

@[simp] theorem labels_flipAt (m : Model V R) (k : Nat) : (m.flipAt k).labels = m.labels := by
  unfold flipAt
  split
  · exact labels_modifyBias k _ m.linear
  · refine (labels_foldl (fun l q => ?_) _ _).trans (labels_modifyBias k _ m.linear)
    dsimp only
    split
    · exact labels_modifyBias _ _ l
    · split
      · exact labels_modifyBias _ _ l
      · rfl

@[simp] theorem numVariables_flipAt (m : Model V R) (k : Nat) :
    (m.flipAt k).numVariables = m.numVariables := by
  rw [← length_labels, labels_flipAt, length_labels]

@[simp] theorem vartype_flipAt (m : Model V R) (k : Nat) : (m.flipAt k).vartype = m.vartype := by
  unfold flipAt
  split <;> simp [*]

@[simp] theorem keys_flipAt (m : Model V R) (k : Nat) : (m.flipAt k).keys = m.keys := by
  unfold flipAt
  split <;> simp [keys]

theorem WellFormed.changeVartype {m : Model V R} (h : m.WellFormed) (t : Vartype) :
    (m.changeVartype t).WellFormed :=
  h.of_same (labels_changeVartype m t) (keys_changeVartype m t)

theorem WellFormed.flipAt {m : Model V R} (h : m.WellFormed) (k : Nat) : (m.flipAt k).WellFormed :=
  h.of_same (labels_flipAt m k) (keys_flipAt m k)

theorem flipVariable_ok [DecidableEq V] {m m' : Model V R} {v : V} :
    m.flipVariable v = .ok m' ↔ ∃ k, m.indexOf? v = some k ∧ m' = m.flipAt k := by
  unfold flipVariable
  cases m.indexOf? v with
  | none => simp
  | some k => simp [eq_comm]

theorem WellFormed.flipVariable_of_label [DecidableEq V] {m : Model V R} (h : m.WellFormed) {v : V}
    {k : Nat} (hk : m.labels[k]? = some v) : m.flipVariable v = .ok (m.flipAt k) :=
  flipVariable_ok.mpr ⟨k, h.indexOf?_eq_some.mpr hk, rfl⟩

theorem WellFormed.flipVariable [DecidableEq V] {m m' : Model V R} (h : m.WellFormed) {v : V}
    (hf : m.flipVariable v = .ok m') : m'.WellFormed := by
  obtain ⟨k, _, rfl⟩ := flipVariable_ok.mp hf
  exact h.flipAt k

/-- Flipping variables of a model succeeds, in whatever order and however often. -/
theorem WellFormed.flips [DecidableEq V] {m : Model V R} (h : m.WellFormed) {vs : List V}
    (hvs : ∀ v ∈ vs, v ∈ m.labels) : ∃ m', vs.foldlM Model.flipVariable m = .ok m' ∧
      m'.WellFormed ∧ m'.labels = m.labels ∧ m'.vartype = m.vartype := by
  refine foldlM_succeeds (P := fun m' : Model V R =>
    m'.WellFormed ∧ m'.labels = m.labels ∧ m'.vartype = m.vartype) ?_ ⟨h, rfl, rfl⟩
  rintro m₁ v hv ⟨hm₁, hlabels, hvartype⟩
  obtain ⟨k, hk⟩ := List.mem_iff_getElem?.mp (hlabels ▸ hvs v hv)
  exact ⟨m₁.flipAt k, hm₁.flipVariable_of_label hk, hm₁.flipAt k,
    (labels_flipAt m₁ k).trans hlabels, (vartype_flipAt m₁ k).trans hvartype⟩

end
end Model
end BinaryQuadratic
