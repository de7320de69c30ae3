import BinaryQuadratic.Proofs.SampleSet.WellFormed

namespace BinaryQuadratic

theorem modify_eq_mapIdx (xs : List α) (k : Nat) (f : α → α) :
    xs.modify k f = xs.mapIdx (fun i => if i = k then f else id) := by
  apply List.ext_getElem?
  intro i
  rw [List.getElem?_modify, List.getElem?_mapIdx]
  by_cases hi : i = k
  · simp [hi]
  · have hk : k ≠ i := fun h => hi h.symm
    simp [hi, hk]

theorem mapIdx_const (f : α → β) (xs : List α) : xs.mapIdx (fun _ => f) = xs.map f := by
  apply List.ext_getElem?
  simp

/-- Where `a` stands, it is found if it is what is looked for and does not stand further left. -/
theorem idxOf_eq_iff [DecidableEq α] {xs : List α} {c : Nat} {a : α} (h : xs[c]? = some a) (b : α) :
    xs.idxOf b = c ↔ b = a ∧ a ∉ xs.take c := by
  obtain ⟨hc, ha⟩ := List.getElem?_eq_some_iff.mp h
  have hmem : a ∈ xs := List.mem_of_getElem? h
  rw [List.mem_take_iff_idxOf_lt hmem]
  constructor
  · intro hb
    have hba : b = a := by
      subst hb
      rw [← ha, List.getElem_idxOf]
    exact ⟨hba, hba ▸ hb.not_lt⟩
  · intro ⟨hba, hfirst⟩
    subst hba
    have hle : xs.idxOf b < c + 1 :=
      (List.mem_take_iff_idxOf_lt hmem).mp
        (List.mem_of_getElem? (by simpa using h : (xs.take (c + 1))[c]? = some b))
    omega

/-- Each column's values are rewritten in a way of its own. -/
def Matrix.mapColumns (a : Matrix) (f : Nat → Int → Int) : Matrix :=
  ⟨a.ncols, a.rows.map (·.mapIdx f), by
    intro row h
    obtain ⟨r, hr, rfl⟩ := List.mem_map.mp h
    rw [List.length_mapIdx, a.width r hr]⟩

namespace SampleSet

variable {V R : Type}

/-- The set with the values of column `c` rewritten by `f c`, as values of the domain `t`. -/
def recode (s : SampleSet V R) (t : Vartype) (f : Nat → Int → Int) : SampleSet V R :=
  { s with samples := s.samples.mapColumns f, vartype := t }

theorem recode_recode (s : SampleSet V R) (t t' : Vartype) (f g : Nat → Int → Int) :
    (s.recode t f).recode t' g = s.recode t' (fun c => g c ∘ f c) := by
  simp [recode, Matrix.mapColumns, List.mapIdx_mapIdx, Function.comp_def]

theorem recode_id (s : SampleSet V R) : s.recode s.vartype (fun _ => id) = s := by
  have hsamples : s.samples.mapColumns (fun _ => id) = s.samples := by
    refine Matrix.ext_rows rfl ?_
    simp [Matrix.mapColumns, mapIdx_const]
  rw [recode, hsamples]

theorem getElem?_recode {s : SampleSet V R} {i c : Nat} {row : List Int} {x : Int}
    (hrow : s.samples.rows[i]? = some row) (hx : row[c]? = some x) (t : Vartype)
    (f : Nat → Int → Int) :
    ∃ row', (s.recode t f).samples.rows[i]? = some row' ∧ row'[c]? = some (f c x) := by
  refine ⟨row.mapIdx f, ?_, by simp [hx]⟩
  simp [recode, Matrix.mapColumns, hrow]

theorem flipAt_eq_recode (s : SampleSet V R) (k : Nat) :
    s.flipAt k = s.recode s.vartype (fun c => if c = k then s.vartype.flip else id) := by
  simp only [flipAt, recode, Matrix.mapColumn, Matrix.mapColumns, modify_eq_mapIdx]

variable [DecidableEq V]

/-- How often column `c` is named. A label names the first column that has it. -/
def timesNamed (labels vs : List V) (c : Nat) : Nat :=
  vs.countP (fun v => labels.idxOf v = c)

/-- The set with each column flipped as often as it is named. -/
def flipNamed (s : SampleSet V R) (vs : List V) : SampleSet V R :=
  s.recode s.vartype (fun c => s.vartype.flip^[timesNamed s.labels vs c])

theorem flipVariable_of_mem {s : SampleSet V R} {v : V} (hv : v ∈ s.labels) :
    s.flipVariable v = .ok (s.flipAt (s.labels.idxOf v)) := by
  refine flipVariable_ok.mpr ⟨_, List.findIdx?_eq_some_iff_findIdx_eq.mpr ⟨?_, rfl⟩, rfl⟩
  exact List.idxOf_lt_length_of_mem hv

theorem flipVariable_of_not_mem {s : SampleSet V R} {v : V} (hv : v ∉ s.labels) :
    s.flipVariable v = .error (.unknownVariable v) := by
  have hnone : s.labels.findIdx? (· = v) = none := by
    simpa using fun u hu (he : u = v) => hv (he ▸ hu)
  rw [flipVariable, hnone]

theorem flipNamed_flipAt (s : SampleSet V R) (v : V) (vs : List V) :
    (s.flipAt (s.labels.idxOf v)).flipNamed vs = s.flipNamed (v :: vs) := by
  rw [flipAt_eq_recode, flipNamed, recode_recode, flipNamed]
  congr 1
  funext c
  by_cases hc : c = s.labels.idxOf v
  · have hnamed : timesNamed s.labels (v :: vs) c = timesNamed s.labels vs c + 1 :=
      List.countP_cons_of_pos (by simp [hc])
    rw [hnamed, Function.iterate_succ, if_pos hc]
    rfl
  · have hnamed : timesNamed s.labels (v :: vs) c = timesNamed s.labels vs c :=
      List.countP_cons_of_neg (by simpa using fun h => hc h.symm)
    rw [hnamed, if_neg hc]
    rfl

theorem flipVariables_eq (s : SampleSet V R) (vs : List V) :
    s.flipVariables vs =
      match vs.find? (· ∉ s.labels) with
      | some v => .error (.unknownVariable v)
      | none => .ok (s.flipNamed vs) := by
  induction vs generalizing s with
  | nil => exact congrArg Except.ok s.recode_id.symm
  | cons v vs ih =>
    rw [flipVariables, List.foldlM_cons]
    by_cases hv : v ∈ s.labels
    · rw [flipVariable_of_mem hv]
      refine (ih _).trans ?_
      rw [List.find?_cons_of_neg (by simpa using hv), flipNamed_flipAt]
      rfl
    · rw [flipVariable_of_not_mem hv, List.find?_cons_of_pos (by simpa using hv)]
      rfl

theorem timesNamed_of_label {labels : List V} {c : Nat} {v : V} (h : labels[c]? = some v)
    (vs : List V) : timesNamed labels vs c = if v ∈ labels.take c then 0 else vs.count v := by
  unfold timesNamed
  split
  · rename_i hv
    refine List.countP_eq_zero.mpr (fun w _ => ?_)
    simp [idxOf_eq_iff h, hv]
  · rename_i hv
    refine List.countP_congr (fun w _ => ?_)
    simp [idxOf_eq_iff h, hv]

theorem timesNamed_of_length_le {labels vs : List V} (hvs : ∀ v ∈ vs, v ∈ labels) {c : Nat}
    (hc : labels.length ≤ c) : timesNamed labels vs c = 0 := by
  refine List.countP_eq_zero.mpr (fun v hv => ?_)
  have hlt : labels.idxOf v < labels.length := List.idxOf_lt_length_of_mem (hvs v hv)
  simp only [decide_eq_true_eq]
  omega

/-- Two flips of one column undo each other. -/
theorem iterate_flip (t : Vartype) (n : Nat) :
    t.flip^[n] = if n % 2 = 1 then t.flip else id := by
  have hflip : Function.Involutive t.flip := t.flip_flip
  split
  · exact hflip.iterate_odd (Nat.odd_iff.mpr ‹_›)
  · exact hflip.iterate_even (Nat.even_iff.mpr (by omega))

theorem flipNamed_congr (s : SampleSet V R) {vs ws : List V} (hvs : ∀ v ∈ vs, v ∈ s.labels)
    (hws : ∀ w ∈ ws, w ∈ s.labels) (h : ∀ v ∈ s.labels, vs.count v % 2 = ws.count v % 2) :
    s.flipNamed vs = s.flipNamed ws := by
  unfold flipNamed
  congr 1
  funext c
  cases hc : s.labels[c]? with
  | none =>
    have hc := List.getElem?_eq_none_iff.mp hc
    rw [timesNamed_of_length_le hvs hc, timesNamed_of_length_le hws hc]
  | some v =>
    have hparity := h v (List.mem_of_getElem? hc)
    rw [iterate_flip, iterate_flip, timesNamed_of_label hc, timesNamed_of_label hc]
    split <;> simp [hparity]

theorem flipNamed_flipNamed (s : SampleSet V R) (vs : List V) :
    (s.flipNamed vs).flipNamed vs = s := by
  have hflip : Function.Involutive s.vartype.flip := s.vartype.flip_flip
  have htwice : ∀ n, s.vartype.flip^[n] ∘ s.vartype.flip^[n] = id := by
    intro n
    rw [← Function.iterate_add]
    exact hflip.iterate_even (Even.add_self n)
  calc (s.flipNamed vs).flipNamed vs = s.recode s.vartype (fun c =>
          s.vartype.flip^[timesNamed s.labels vs c] ∘ s.vartype.flip^[timesNamed s.labels vs c]) :=
        recode_recode ..
    _ = s.recode s.vartype (fun _ => id) := by simp only [htwice]
    _ = s := s.recode_id

theorem flipVariables_of_mem (s : SampleSet V R) {vs : List V} (hvs : ∀ v ∈ vs, v ∈ s.labels) :
    s.flipVariables vs = .ok (s.flipNamed vs) := by
  have hnone : vs.find? (· ∉ s.labels) = none := by simpa using hvs
  rw [flipVariables_eq, hnone]

theorem flipVariables_error {s : SampleSet V R} {vs : List V} {why : ModelError V} :
    s.flipVariables vs = .error why ↔ ∃ known v rest, vs = known ++ v :: rest ∧
      (∀ w ∈ known, w ∈ s.labels) ∧ v ∉ s.labels ∧ why = .unknownVariable v := by
  rw [flipVariables_eq]
  constructor
  · intro hwhy
    cases hfind : vs.find? (· ∉ s.labels) with
    | none =>
      rw [hfind] at hwhy
      cases hwhy
    | some v =>
      rw [hfind] at hwhy
      cases hwhy
      obtain ⟨hv, known, rest, hsplit, hknown⟩ := List.find?_eq_some_iff_append.mp hfind
      exact ⟨known, v, rest, hsplit, by simpa using hknown, by simpa using hv, rfl⟩
  · intro ⟨known, v, rest, hsplit, hknown, hv, hwhy⟩
    have hfind : vs.find? (· ∉ s.labels) = some v :=
      List.find?_eq_some_iff_append.mpr ⟨by simpa using hv, known, rest, hsplit,
        by simpa using hknown⟩
    rw [hfind, hwhy]

theorem getElem?_flipNamed {s : SampleSet V R} {i c : Nat} {row : List Int} {x : Int} {v : V}
    (hrow : s.samples.rows[i]? = some row) (hx : row[c]? = some x) (hv : s.labels[c]? = some v)
    (vs : List V) :
    ∃ row', (s.flipNamed vs).samples.rows[i]? = some row' ∧ row'[c]? =
      some (if v ∉ s.labels.take c ∧ vs.count v % 2 = 1 then s.vartype.flip x else x) := by
  obtain ⟨row', hrow', hx'⟩ := getElem?_recode hrow hx s.vartype
    (fun c => s.vartype.flip^[timesNamed s.labels vs c])
  refine ⟨row', hrow', ?_⟩
  rw [hx', iterate_flip, timesNamed_of_label hv]
  by_cases hfirst : v ∈ s.labels.take c
  · simp [hfirst]
  · by_cases hodd : vs.count v % 2 = 1 <;> simp [hfirst, hodd]

/-- Flips of variables fail for the first that is not there. Otherwise they change only values, and
of them only those in the first column of a label that is named an odd number of times: named twice
it is as if it were not named, and the same flips again give the set back. -/
theorem flips_by_parity {s : SampleSet V R} (h : s.WellFormed) (vs : List V) :
    (∀ why, s.flipVariables vs = .error why ↔ ∃ known v rest, vs = known ++ v :: rest ∧
      (∀ w ∈ known, w ∈ s.labels) ∧ v ∉ s.labels ∧ why = .unknownVariable v) ∧
    ((∀ v ∈ vs, v ∈ s.labels) → ∃ s', s.flipVariables vs = .ok s' ∧
      (s'.labels = s.labels ∧ s'.vartype = s.vartype ∧ s'.energies = s.energies ∧
        s'.occurrences = s.occurrences ∧ s'.size = s.size ∧
        s'.samples.ncols = s.samples.ncols) ∧
      (∀ (i c : Nat) (row : List Int) (x : Int),
        s.samples.rows[i]? = some row → row[c]? = some x →
        ∃ v row', s.labels[c]? = some v ∧ s'.samples.rows[i]? = some row' ∧ row'[c]? =
          some (if v ∉ s.labels.take c ∧ vs.count v % 2 = 1 then s.vartype.flip x else x)) ∧
      s'.flipVariables vs = .ok s ∧
      ∀ ws : List V, (∀ w ∈ ws, w ∈ s.labels) →
        (∀ v ∈ s.labels, ws.count v % 2 = vs.count v % 2) → s.flipVariables ws = .ok s') := by
  refine ⟨fun why => flipVariables_error, fun hvs => ⟨s.flipNamed vs, s.flipVariables_of_mem hvs,
    ⟨rfl, rfl, rfl, rfl, List.length_map .., rfl⟩, fun i c row x hrow hx => ?_, ?_,
    fun ws hws hparity => ?_⟩⟩
  · have hc : c < s.labels.length := by
      rw [← h.width, ← s.samples.width row (List.mem_of_getElem? hrow)]
      exact (List.getElem?_eq_some_iff.mp hx).1
    have hv : s.labels[c]? = some s.labels[c] := List.getElem?_eq_getElem hc
    obtain ⟨row', hrow', hx'⟩ := getElem?_flipNamed hrow hx hv vs
    exact ⟨s.labels[c], row', hv, hrow', hx'⟩
  · refine ((s.flipNamed vs).flipVariables_of_mem hvs).trans ?_
    rw [flipNamed_flipNamed]
  · rw [s.flipVariables_of_mem hws, s.flipNamed_congr hws hvs hparity]

/-- Of two columns of one label only the first is flipped, for the third time of being named. -/
theorem flips_of_repeated_label :
    let s : SampleSet String Rat :=
      ⟨["a", "b", "a"], ⟨3, [[1, 0, 1], [0, 0, 1]], by decide⟩, [5, 7], [1, 2], .binary⟩
    let s' : SampleSet String Rat :=
      ⟨["a", "b", "a"], ⟨3, [[0, 0, 1], [1, 0, 1]], by decide⟩, [5, 7], [1, 2], .binary⟩
    let vs := ["a", "b", "a", "b", "a"]
    s.WellFormed ∧ (∀ v ∈ vs, v ∈ s.labels) ∧ s.flipVariables vs = .ok s' ∧
      s'.flipVariables vs = .ok s ∧ s.flipVariables ["a"] = .ok s' ∧
      s.flipVariables ["b", "d", "c"] = .error (.unknownVariable "d") := by
  intro s s' vs
  have h : s.WellFormed := ⟨rfl, rfl, rfl, by decide⟩
  have hvs : ∀ v ∈ vs, v ∈ s.labels := by decide
  have hs' : s.flipVariables vs = .ok s' := rfl
  obtain ⟨_, hflips⟩ := flips_by_parity h vs
  obtain ⟨hfails, _⟩ := flips_by_parity h ["b", "d", "c"]
  obtain ⟨s₁, hs₁, _, _, htwice, hparity⟩ := hflips hvs
  cases hs'.symm.trans hs₁
  exact ⟨h, hvs, hs', htwice, hparity ["a"] (by decide) (by decide),
    (hfails _).mpr ⟨["b"], "d", ["c"], rfl, by decide, by decide, rfl⟩⟩

end SampleSet
end BinaryQuadratic
