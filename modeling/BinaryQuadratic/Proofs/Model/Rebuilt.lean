import BinaryQuadratic.Proofs.Model.Contents
import BinaryQuadratic.Proofs.Model.Identity

namespace BinaryQuadratic

section
variable {K : Type} [DecidableEq K]

theorem accumulate_of_not_mem {k : K} {es : List (K × Rat)} (h : k ∉ es.map (·.1)) (x : Rat) :
    accumulate k x es = es ++ [(k, x)] := by
  induction es with
  | nil =>
    have hzero : (Coefficient.zero : Rat) + x = x := zero_add x
    rw [accumulate, hzero, List.nil_append]
  | cons e es ih =>
    obtain ⟨hne, hes⟩ := not_or.mp (fun hk => h (List.mem_cons.mpr hk))
    rw [accumulate, if_neg (fun he => hne he.symm), ih hes, List.cons_append]

/-- Mentioning a key that is there changes nothing. -/
theorem accumulate_zero {k : K} {es : List (K × Rat)} (h : k ∈ es.map (·.1)) :
    accumulate k Coefficient.zero es = es := by
  induction es with
  | nil => cases h
  | cons e es ih =>
    by_cases he : e.1 = k
    · have hzero : e.2 + Coefficient.zero = e.2 := add_zero e.2
      rw [accumulate, if_pos he, hzero]
    · have hes : k ∈ es.map (·.1) := (List.mem_cons.mp h).resolve_left (fun hk => he hk.symm)
      rw [accumulate, if_neg he, ih hes]

end

namespace Model

section
variable {V R : Type}

/-- The model with `f` applied to each of its coefficients. -/
def mapCoefficients (f : R → R) (m : Model V R) : Model V R :=
  { m with
    linear := m.linear.map (fun (v, b) => (v, f b))
    quadratic := m.quadratic.map (fun (k, b) => (k, f b))
    offset := f m.offset }

/-- An interaction as it is listed. -/
def listed? (m : Model V R) (q : (Nat × Nat) × R) : Option ((V × V) × R) := do
  return ((← m.label? q.1.1, ← m.label? q.1.2), q.2)

/-- A model put together from what another one lists by label, with `f` applied to each of the
coefficients. -/
def rebuild [DecidableEq V] [Coefficient R] (f : R → R) (m : Model V R) :
    Except (ModelError V) (Model V R) := do
  let biased := m.linear.foldl (fun m' (v, b) => (m'.addVariable v (f b)).1) (empty m.vartype)
  let joined ← m.interactions.foldlM (fun m' ((u, v), b) => m'.addInteraction u v (f b)) biased
  return joined.addOffset (f m.offset)

@[simp] theorem labels_mapCoefficients (f : R → R) (m : Model V R) :
    (m.mapCoefficients f).labels = m.labels := by
  simp [labels, mapCoefficients]

@[simp] theorem keys_mapCoefficients (f : R → R) (m : Model V R) :
    (m.mapCoefficients f).keys = m.keys := by
  simp [keys, mapCoefficients]

theorem interactions_mapCoefficients (f : R → R) (m : Model V R) :
    (m.mapCoefficients f).interactions = m.interactions.map (fun (p, b) => (p, f b)) := by
  simp only [interactions, label?, labels_mapCoefficients, List.map_filterMap]
  simp only [mapCoefficients, List.filterMap_map]
  refine List.filterMap_congr (fun q _ => ?_)
  simp [Option.map_bind]

theorem fits_mapCoefficients {f : R → R} {m : Model V R} {x : List Int} :
    (m.mapCoefficients f).Fits x ↔ m.Fits x := by
  simp [Fits, numVariables, mapCoefficients]

/-- Fewer interactions of the same variables. -/
theorem WellFormed.of_append {m : Model V R} {qs qs' : List ((Nat × Nat) × R)}
    (h : WellFormed { m with quadratic := qs ++ qs' }) : WellFormed { m with quadratic := qs } := by
  have hkeys : (qs.map (·.1)).Sublist ((qs ++ qs').map (·.1)) :=
    (List.sublist_append_left qs qs').map _
  exact ⟨h.labels, hkeys.nodup h.keys, fun k hk => h.ordered k (hkeys.subset hk)⟩

/-- Coefficients may be changed before the model is listed. -/
theorem rebuild_mapCoefficients [DecidableEq V] [Coefficient R] (f : R → R) (m : Model V R) :
    (m.mapCoefficients f).rebuild id = m.rebuild f := by
  simp only [rebuild, interactions_mapCoefficients]
  simp only [mapCoefficients, List.foldl_map, List.foldlM_map, id]

end

variable {V : Type} [DecidableEq V] {m : Model V Rat}

/-- Biases of distinct variables are added one after another. -/
theorem foldl_addVariable {entries : List (V × Rat)} (h : ((m.linear ++ entries).map (·.1)).Nodup) :
    entries.foldl (fun m' (v, b) => (m'.addVariable v b).1) m =
      { m with linear := m.linear ++ entries } := by
  induction entries generalizing m with
  | nil => simp
  | cons e entries ih =>
    obtain ⟨v, b⟩ := e
    have hnew : v ∉ m.linear.map (·.1) := by
      rw [List.map_append, List.map_cons, List.nodup_append] at h
      exact fun hm => h.2.2 v hm v (by simp) rfl
    have hstep : (m.addVariable v b).1 = { m with linear := m.linear ++ [(v, b)] } :=
      congrArg (fun l => { m with linear := l }) (accumulate_of_not_mem hnew b)
    simp only [List.foldl_cons]
    rw [hstep, ih (by simpa using h), List.append_assoc, List.singleton_append]

/-- An interaction of two variables of the model that is new goes last, under their positions. -/
theorem WellFormed.addInteraction_new {i j : Nat} {x : Rat}
    (h : WellFormed { m with quadratic := m.quadratic ++ [((i, j), x)] }) {u v : V}
    (hu : m.label? i = some u) (hv : m.label? j = some v) :
    m.addInteraction u v x = .ok { m with quadratic := m.quadratic ++ [((i, j), x)] } := by
  have hm : m.WellFormed := h.of_append
  have hij : i < j := (h.ordered (i, j) (by simp [Model.keys])).1
  have huv : u ≠ v := fun he => hij.ne ((hm.label_inj hu hv).mp he)
  have hmention : ∀ w ∈ m.labels, m.addVariable w Coefficient.zero = (m, m.place w) := by
    intro w hw
    have hlinear : accumulate w Coefficient.zero m.linear = m.linear := accumulate_zero hw
    rw [Model.addVariable, hlinear]
  have hplaces : m.place u = i ∧ m.place v = j := by
    simp [place, hm.indexOf?_eq_some.mpr hu, hm.indexOf?_eq_some.mpr hv]
  have hkey : pairKey i j = (i, j) := by
    rw [pairKey, Nat.min_eq_left hij.le, Nat.max_eq_right hij.le]
  have hnew : (i, j) ∉ m.quadratic.map (·.1) := by
    have hkeys := h.keys
    rw [Model.keys, List.map_append, List.nodup_append] at hkeys
    exact fun hk => hkeys.2.2 _ hk _ (by simp) rfl
  have hfiled := accumulate_of_not_mem hnew x
  rw [Model.addInteraction, if_neg huv, Model.join, hmention u (List.mem_of_getElem? hu)]
  dsimp only
  rw [hmention v (List.mem_of_getElem? hv), hplaces.1, hplaces.2, Model.addInteractionAt, hkey,
    hfiled]

/-- What is listed by label is filed where it came from. -/
theorem foldlM_addInteraction_new {qs : List ((Nat × Nat) × Rat)}
    (h : WellFormed { m with quadratic := m.quadratic ++ qs }) :
    (qs.filterMap m.listed?).foldlM (fun m' ((u, v), b) => m'.addInteraction u v b) m =
      .ok { m with quadratic := m.quadratic ++ qs } := by
  induction qs generalizing m with
  | nil => simp [pure, Except.pure]
  | cons q qs ih =>
    let m₁ : Model V Rat := { m with quadratic := m.quadratic ++ [q] }
    have h₁ : WellFormed { m₁ with quadratic := m₁.quadratic ++ qs } := by
      simpa [m₁] using h
    have hm₁ : m₁.WellFormed := h₁.of_append
    obtain ⟨u, v, hu, hv⟩ : ∃ u v, m.label? q.1.1 = some u ∧ m.label? q.1.2 = some v :=
      hm₁.labels_of_key (by simp [Model.keys, m₁])
    have hlisted : m.listed? q = some ((u, v), q.2) := by
      simp [listed?, hu, hv]
    have hstep : m.addInteraction u v q.2 = .ok m₁ := hm₁.addInteraction_new hu hv
    rw [List.filterMap_cons_some hlisted, List.foldlM_cons]
    dsimp only
    rw [hstep]
    refine (ih h₁).trans ?_
    simp [m₁]

/-- The listing of a model tells all that is in it. -/
theorem WellFormed.rebuild_id (h : m.WellFormed) : m.rebuild id = .ok m := by
  let unjoined : Model V Rat := { m with quadratic := [], offset := Coefficient.zero }
  have hbiased : m.linear.foldl (fun m' (v, b) => (m'.addVariable v (id b)).1) (empty m.vartype) =
      unjoined := foldl_addVariable (m := empty m.vartype) h.labels
  have hjoined : m.interactions.foldlM (fun m' ((u, v), b) => m'.addInteraction u v (id b))
      unjoined = .ok { m with offset := Coefficient.zero } :=
    foldlM_addInteraction_new (m := unjoined) (h.of_same rfl rfl)
  have hoffset : Coefficient.zero + m.offset = m.offset := zero_add m.offset
  rw [rebuild, hbiased, hjoined]
  exact congrArg (fun c => Except.ok { m with offset := c }) hoffset

/-- With its coefficients changed on the way, a model becomes the one with these coefficients. -/
theorem WellFormed.rebuild_eq (h : m.WellFormed) (f : Rat → Rat) :
    m.rebuild f = .ok (m.mapCoefficients f) := by
  rw [← rebuild_mapCoefficients]
  exact (h.of_same (labels_mapCoefficients f m) (keys_mapCoefficients f m)).rebuild_id

omit [DecidableEq V] in
theorem energy_scaled (c : Rat) {x : List Int} (hx : m.Fits x) :
    (m.mapCoefficients (c * ·)).energy x = .ok (c * m.evaluate x) := by
  have hlength : x.length = (m.mapCoefficients (c * ·)).numVariables :=
    (fits_mapCoefficients.mpr hx).1
  have hlinear : ∀ y, linearPart (m.mapCoefficients (c * ·)).linear y = c * linearPart m.linear y :=
    fun y => linearPart_scale m.linear y (fun _ => rfl)
  have hquadratic : ∀ y,
      quadraticPart (m.mapCoefficients (c * ·)).quadratic y = c * quadraticPart m.quadratic y :=
    fun y => sum_scale (fun k b => by ring) (fun _ => rfl) m.quadratic
  refine energy_ok.mpr ⟨fits_mapCoefficients.mpr hx, ?_⟩
  rw [evaluate_eq_polynomial hlength, evaluate_eq_polynomial hx.1, polynomial, polynomial, hlinear,
    hquadratic, mul_add, mul_add]
  rfl

/-- A model put together from what another one lists, with all coefficients multiplied, always
comes about: it has the variables and the interactions of the other in their order, and its energies
times the factor. So a model lists all that is in it, and negating what it lists negates it. -/
theorem rebuilt_from_listing (m : Model V Rat) (hm : m.Reachable) (c : Rat) :
    ∃ m', m.rebuild (c * ·) = .ok m' ∧ m'.vartype = m.vartype ∧ m'.labels = m.labels ∧
      m'.interactions.map (·.1) = m.interactions.map (·.1) ∧
      (∀ x, m.Fits x → ∃ e, m.energy x = .ok e ∧ m'.energy x = .ok (c * e)) ∧
      (c = 1 → m' = m) ∧ (c = -1 → m.rebuild (- ·) = .ok m') := by
  have h := hm.wellFormed
  refine ⟨_, h.rebuild_eq (c * ·), rfl, labels_mapCoefficients _ m, ?_, fun x hx => ?_, ?_, ?_⟩
  · exact labels_interactions_of_same (labels_mapCoefficients _ m) (keys_mapCoefficients _ m)
  · exact ⟨m.evaluate x, energy_ok.mpr ⟨hx, rfl⟩, energy_scaled c hx⟩
  · intro hc
    subst hc
    simp [mapCoefficients]
  · intro hc
    subst hc
    rw [h.rebuild_eq]
    simp [mapCoefficients]

/-- Three bits, two pairs of which are given in both orders or from the right, negated and as they
are. -/
theorem rebuilt_of_three_bits :
    let q : List ((String × String) × Rat) :=
      [(("a", "b"), 3), (("c", "a"), 5), (("b", "b"), 7), (("b", "a"), 1)]
    let m := ofQubo q (1 / 2)
    m.Reachable ∧ m.Fits [1, 1, 0] ∧
      (∃ m', m.rebuild (- ·) = .ok m' ∧ m'.labels = ["a", "b", "c"] ∧
        m'.interactions.map (·.1) = [("a", "b"), ("a", "c")] ∧
        ∃ e, m.energy [1, 1, 0] = .ok e ∧ m'.energy [1, 1, 0] = .ok (-1 * e)) ∧
      m.rebuild (1 * ·) = .ok m := by
  intro q m
  have hm : m.Reachable := .ofQubo _ _
  have hx : m.Fits [1, 1, 0] := ⟨rfl, by decide⟩
  obtain ⟨m', _, _, hlabels, hpairs, henergy, _, hnegated⟩ := rebuilt_from_listing m hm (-1)
  obtain ⟨same, hsame, _, _, _, _, hback, _⟩ := rebuilt_from_listing m hm 1
  refine ⟨hm, hx, ⟨m', hnegated rfl, hlabels.trans rfl, hpairs.trans rfl, henergy _ hx⟩, ?_⟩
  rw [hsame, hback rfl]

end Model
end BinaryQuadratic
