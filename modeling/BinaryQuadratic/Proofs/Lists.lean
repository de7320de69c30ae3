import BinaryQuadratic.SampleSet.Matrix
import Mathlib

namespace BinaryQuadratic

theorem pick_eq_filterMap (indices : List Nat) (xs : List α) :
    pick indices xs = indices.filterMap (xs[·]?) := by
  simp [pick]

theorem pick_map (f : α → β) (indices : List Nat) (xs : List α) :
    pick indices (xs.map f) = (pick indices xs).map f := by
  simp [pick_eq_filterMap, List.map_filterMap]

/-- As many elements are picked as there are positions inside the list. -/
theorem length_pick (indices : List Nat) (xs : List α) :
    (pick indices xs).length = (indices.filter (· < xs.length)).length := by
  rw [pick_eq_filterMap]
  induction indices with
  | nil => rfl
  | cons i indices ih =>
    by_cases hi : i < xs.length
    · simp [hi, ih]
    · simp [hi, ih]

theorem mem_pick {indices : List Nat} {xs : List α} {i : Nat} {x : α} (hi : i ∈ indices)
    (hx : xs[i]? = some x) : x ∈ pick indices xs := by
  rw [pick_eq_filterMap]
  exact List.mem_filterMap.mpr ⟨i, hi, hx⟩

theorem pick_zip {xs : List α} {ys : List β} (h : xs.length = ys.length) (indices : List Nat) :
    pick indices (xs.zip ys) = (pick indices xs).zip (pick indices ys) := by
  simp only [pick_eq_filterMap]
  induction indices with
  | nil => rfl
  | cons i indices ih =>
    by_cases hi : i < xs.length
    · have hi' : i < ys.length := h ▸ hi
      simp [hi, hi', ih]
    · have hi' : ¬ i < ys.length := h ▸ hi
      simp [hi, hi', ih]

theorem pick_eq_map {indices : List Nat} {xs : List α} (h : ∀ i ∈ indices, i < xs.length) :
    (pick indices xs).map some = indices.map (xs[·]?) := by
  induction indices with
  | nil => simp [pick]
  | cons i indices ih =>
    have hi : i < xs.length := h i (by simp)
    have hrest := ih (fun j hj => h j (by simp [hj]))
    rw [pick_eq_filterMap] at hrest ⊢
    simp [hi, hrest]

/-- Positions inside the list are picked one for one. -/
theorem pick_take {indices : List Nat} {xs : List α} (h : ∀ i ∈ indices, i < xs.length) (n : Nat) :
    pick (indices.take n) xs = (pick indices xs).take n := by
  apply List.map_injective_iff.mpr (Option.some_injective α)
  rw [List.map_take, pick_eq_map h, pick_eq_map (fun i hi => h i (List.mem_of_mem_take hi)),
    List.map_take]

theorem pick_range_eq_take (xs : List α) (n : Nat) : pick (List.range n) xs = xs.take n := by
  induction n with
  | zero => simp [pick]
  | succ n ih =>
    rw [pick_eq_filterMap] at ih ⊢
    rw [List.range_succ, List.filterMap_append, ih, List.take_add_one]
    cases hn : xs[n]? <;> simp [hn]

theorem pick_range (xs : List α) : pick (List.range xs.length) xs = xs := by
  rw [pick_range_eq_take, List.take_length]

theorem getElem?_pick {indices : List Nat} {xs : List α} (h : ∀ i ∈ indices, i < xs.length)
    (j : Nat) : (pick indices xs)[j]? = indices[j]?.bind (xs[·]?) := by
  have hpicked := congrArg (·[j]?) (pick_eq_map h)
  simp only [List.getElem?_map] at hpicked
  cases hj : indices[j]? with
  | none => simpa [hj] using hpicked
  | some i => cases hp : (pick indices xs)[j]? <;> simp_all

/-- Positions among those picked stand for positions of the list. -/
theorem pick_pick {indices : List Nat} {xs : List α} (h : ∀ i ∈ indices, i < xs.length)
    (chosen : List Nat) : pick chosen (pick indices xs) = pick (pick chosen indices) xs := by
  rw [pick_eq_filterMap, pick_eq_filterMap (pick chosen indices), pick_eq_filterMap chosen indices,
    List.filterMap_filterMap]
  exact List.filterMap_congr (fun j _ => getElem?_pick h j)

/-- Each position once, in whatever order, picks each element once. -/
theorem pick_perm {order : List Nat} {xs : List α} (h : order.Perm (List.range xs.length)) :
    (pick order xs).Perm xs := by
  have hpicked := h.filterMap (xs[·]?)
  rwa [← pick_eq_filterMap, ← pick_eq_filterMap, pick_range] at hpicked

/-- No element is picked twice from a list in which none stands twice. -/
theorem nodup_pick {indices : List Nat} {xs : List α} (hi : indices.Nodup) (hx : xs.Nodup) :
    (pick indices xs).Nodup := by
  rw [pick_eq_filterMap]
  refine List.pairwise_filterMap.mpr (hi.imp ?_)
  rintro i j hne a ha b hb rfl
  exact hne ((List.getElem?_inj (List.getElem?_eq_some_iff.mp ha).1 hx).mp (ha.trans hb.symm))

theorem mem_modify {xs : List α} {k : Nat} {f : α → α} {y : α} (h : y ∈ xs.modify k f) :
    ∃ x ∈ xs, y = x ∨ y = f x := by
  obtain ⟨i, hi⟩ := List.mem_iff_getElem?.mp h
  rw [List.getElem?_modify] at hi
  obtain ⟨x, hx, he⟩ := Option.map_eq_some_iff.mp hi
  refine ⟨x, List.mem_of_getElem? hx, ?_⟩
  split at he
  · exact .inr he.symm
  · exact .inl he.symm

theorem modify_involution {f : α → α} (hf : ∀ x, f (f x) = x) (xs : List α) (k : Nat) :
    (xs.modify k f).modify k f = xs := by
  have hid : f ∘ f = id := funext hf
  rw [List.modify_modify_eq, hid, List.modify_id]

theorem modify_comm (xs : List α) (j k : Nat) (f : α → α) :
    (xs.modify j f).modify k f = (xs.modify k f).modify j f := by
  by_cases hjk : j = k
  · subst hjk
    rfl
  · apply List.ext_getElem?
    intro i
    simp only [List.getElem?_modify]
    cases xs[i]? with
    | none => rfl
    | some x => by_cases hj : j = i <;> by_cases hk : k = i <;> simp_all

/-- The value at `k`. -/
def stored? [DecidableEq K] (k : K) (es : List (K × R)) : Option R :=
  (es.find? (·.1 = k)).map (·.2)

theorem stored?_cons [DecidableEq K] (k : K) (e : K × R) (es : List (K × R)) :
    stored? k (e :: es) = if e.1 = k then some e.2 else stored? k es := by
  by_cases he : e.1 = k <;> simp [stored?, he]

theorem isSome_stored? [DecidableEq K] {k : K} {es : List (K × R)} :
    (stored? k es).isSome = true ↔ k ∈ es.map (·.1) := by
  simp [stored?]

theorem stored?_eq_some [DecidableEq K] {k : K} {x : R} {es : List (K × R)}
    (h : (es.map (·.1)).Nodup) : stored? k es = some x ↔ (k, x) ∈ es := by
  induction es with
  | nil => simp [stored?]
  | cons e es ih =>
    obtain ⟨hnew, hrest⟩ := List.nodup_cons.mp h
    rw [stored?_cons, List.mem_cons]
    by_cases he : e.1 = k
    · subst he
      have hm : (e.1, x) ∉ es := fun hm => hnew (List.mem_map.mpr ⟨_, hm, rfl⟩)
      simp [hm, Prod.ext_iff, eq_comm]
    · have hne : (k, x) ≠ e := fun hk => he (hk ▸ rfl)
      simp [he, hne, ih hrest]

theorem stored?_perm [DecidableEq K] {es es' : List (K × R)} (h : es.Perm es')
    (hn : (es.map (·.1)).Nodup) (k : K) : stored? k es = stored? k es' := by
  apply Option.ext
  intro x
  rw [stored?_eq_some hn, stored?_eq_some ((h.map _).nodup_iff.mp hn)]
  exact h.mem_iff

theorem stored?_zip [DecidableEq K] {ks : List K} {k : K} (h : k ∈ ks) (xs : List α) :
    stored? k (ks.zip xs) = xs[ks.idxOf k]? := by
  induction ks generalizing xs with
  | nil => cases h
  | cons k' ks ih =>
    cases xs with
    | nil => rfl
    | cons x xs =>
      rw [List.zip_cons_cons, stored?_cons]
      by_cases hk : k' = k
      · subst hk
        simp
      · have hrest := ih ((List.mem_cons.mp h).resolve_left (fun he => hk he.symm)) xs
        simp [hk, hrest, List.idxOf_cons_ne]

/-- Entries under the same keys are the same if their values are. -/
theorem ext_values {es es' : List (K × R)} (hkeys : es'.map (·.1) = es.map (·.1))
    (hvalues : ∀ (i : Nat) k x x', es[i]? = some (k, x) → es'[i]? = some (k, x') → x' = x) :
    es' = es := by
  have hlength : es'.length = es.length := by simpa using congrArg List.length hkeys
  refine List.ext_getElem hlength (fun i hi' hi => ?_)
  have hkey : es'[i].1 = es[i].1 := by
    simpa [hi, hi'] using congrArg (fun ks : List K => ks[i]?) hkeys
  refine Prod.ext hkey (hvalues i es[i].1 _ _ (List.getElem?_eq_getElem hi) ?_)
  rw [List.getElem?_eq_getElem hi', ← hkey]

/-- Among distinct keys, only the entry of `k` counts. -/
theorem sum_at_key [DecidableEq K] {k : K} {x : Rat} {es : List (K × Rat)}
    (h : (es.map (·.1)).Nodup) (hx : (k, x) ∈ es) :
    (es.map (fun e => if e.1 = k then e.2 else 0)).sum = x := by
  induction es with
  | nil => cases hx
  | cons e es ih =>
    obtain ⟨hnew, hrest⟩ := List.nodup_cons.mp h
    rcases List.mem_cons.mp hx with rfl | hx
    · have hzero : es.map (fun e => if e.1 = k then e.2 else 0) = es.map (fun _ => 0) := by
        refine List.map_congr_left (fun e he => if_neg ?_)
        rintro rfl
        exact hnew (List.mem_map.mpr ⟨e, he, rfl⟩)
      simp [hzero]
    · have hne : e.1 ≠ k := by
        rintro rfl
        exact hnew (List.mem_map.mpr ⟨_, hx, rfl⟩)
      simp [hne, ih hrest hx]

theorem idxOf_map [DecidableEq α] [DecidableEq β] {f : α → β} {xs : List α} {a : α}
    (h : ∀ x ∈ xs, f x = f a → x = a) : (xs.map f).idxOf (f a) = xs.idxOf a := by
  induction xs with
  | nil => rfl
  | cons x xs ih =>
    obtain ⟨hx, hxs⟩ := List.forall_mem_cons.mp h
    by_cases he : x = a
    · subst he
      simp
    · have hne : f x ≠ f a := fun hf => he (hx hf)
      rw [List.map_cons, List.idxOf_cons_ne _ hne, List.idxOf_cons_ne _ he, ih hxs]

/-- Of values that are set at distinct places, each stays where it was set. -/
theorem getElem?_foldl_set {f : Nat → α} {ts : List Nat} (h : ts.Nodup) (n : Nat) (out : List α)
    (j : Nat) :
    ((ts.zipIdx n).foldl (fun placed p => placed.set p.1 (f p.2)) out)[j]? =
      if j ∈ ts then out[j]?.map (fun _ => f (n + ts.idxOf j)) else out[j]? := by
  induction ts generalizing n out with
  | nil => simp
  | cons t ts ih =>
    obtain ⟨ht, hts⟩ := List.nodup_cons.mp h
    rw [List.zipIdx_cons, List.foldl_cons, ih hts]
    by_cases he : t = j
    · subst he
      by_cases hlt : t < out.length <;> simp [ht, hlt]
    · have hne : j ≠ t := fun h => he h.symm
      have hindex : (t :: ts).idxOf j = ts.idxOf j + 1 := List.idxOf_cons_ne _ he
      have hshift : n + 1 + ts.idxOf j = n + (ts.idxOf j + 1) := by omega
      simp [he, hne, hindex, hshift]

namespace Matrix

theorem ext_rows {a b : Matrix} (hncols : a.ncols = b.ncols) (hrows : a.rows = b.rows) : a = b := by
  cases a
  cases b
  simp_all

theorem cut_flatten {n : Nat} {rows : List (List α)} (h : ∀ row ∈ rows, row.length = n) :
    cut n rows.length rows.flatten = rows := by
  induction rows with
  | nil => rfl
  | cons row rows ih =>
    have hrow : row.length = n := h row (by simp)
    have hrest := ih (fun r hr => h r (by simp [hr]))
    simp [cut, ← hrow] at hrest ⊢
    exact hrest

/-- There is a value for each place. -/
theorem length_values (a : Matrix) : a.values.length = a.nrows * a.ncols := by
  have hwidth : a.rows.map List.length = List.replicate a.nrows a.ncols :=
    List.eq_replicate_iff.mpr ⟨List.length_map .., List.forall_mem_map.mpr a.width⟩
  rw [values, List.length_flatten, hwidth, List.sum_replicate, smul_eq_mul]

/-- A matrix is cut out of its values, also where it has no columns and the values are none. -/
theorem reshape?_values (a : Matrix) : reshape? a.nrows a.ncols a.values = some a := by
  rw [reshape?, dif_pos a.length_values]
  exact congrArg some (ext_rows rfl (cut_flatten a.width))

end Matrix
end BinaryQuadratic
