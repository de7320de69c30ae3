import BinaryQuadratic.Proofs.Lists
import BinaryQuadratic.Proofs.Model.Energy
import BinaryQuadratic.Proofs.SampleSet.WellFormed

namespace BinaryQuadratic

theorem firstRepeat?_eq_none [DecidableEq α] {seen xs : List α} :
    firstRepeat? seen xs = none ↔ xs.Nodup ∧ ∀ x ∈ xs, x ∉ seen := by
  induction xs generalizing seen with
  | nil => simp [firstRepeat?]
  | cons x xs ih =>
    by_cases hx : x ∈ seen
    · simp [firstRepeat?, hx]
    · rw [firstRepeat?, if_neg hx, ih, List.nodup_cons, List.forall_mem_cons]
      simp only [List.mem_cons, not_or]
      constructor
      · rintro ⟨hn, hs⟩
        exact ⟨⟨fun hm => (hs x hm).1 rfl, hn⟩, hx, fun y hy => (hs y hy).2⟩
      · rintro ⟨⟨hm, hn⟩, _, hs⟩
        exact ⟨hn, fun y hy => ⟨fun he => hm (he ▸ hy), hs y hy⟩⟩

namespace SampleSet

variable {V R : Type} [DecidableEq V]

/-- The position of a label in a model that has it. -/
def position (m : Model V R) (v : V) : Except (ModelError V) Nat :=
  match m.indexOf? v with
  | some i => .ok i
  | none => .error (.unknownVariable v)

theorem position_of_mem {m : Model V R} (h : m.WellFormed) {v : V} (hv : v ∈ m.labels) :
    position m v = .ok (m.place v) := by
  obtain ⟨i, hi⟩ := List.mem_iff_getElem?.mp hv
  simp [position, Model.place, h.indexOf?_eq_some.mpr hi]

theorem mem_of_position {m : Model V R} (h : m.WellFormed) {v : V} {i : Nat}
    (hv : position m v = .ok i) : v ∈ m.labels := by
  cases hk : m.indexOf? v with
  | none => simp [position, hk] at hv
  | some k => exact List.mem_of_getElem? (h.indexOf?_eq_some.mp hk)

omit [DecidableEq V] in
theorem length_of_perm {m : Model V R} {labels : List V} (h : labels.Perm m.labels) :
    labels.length = m.numVariables :=
  h.length_eq.trans m.length_labels

/-- The number of labels is checked first, then each label, and then their being different. -/
theorem columnsOf_eq (m : Model V R) (labels : List V) : columnsOf m labels =
    if labels.length ≠ m.numVariables then .error (.sampleLength m.numVariables labels.length)
    else labels.mapM (position m) >>= fun columns =>
      match firstRepeat? [] labels with
      | some v => .error (.duplicateVariable v)
      | none => .ok columns := by
  unfold columnsOf
  by_cases hlength : labels.length ≠ m.numVariables
  · rw [if_pos hlength, if_pos hlength]
    rfl
  · rw [if_neg hlength, if_neg hlength]
    rfl

/-- Columns are found for the variables of the model, each once, and for nothing else. -/
theorem columnsOf_ok {m : Model V R} (h : m.WellFormed) {labels : List V} {columns : List Nat} :
    columnsOf m labels = .ok columns ↔ labels.Perm m.labels ∧ columns = labels.map m.place := by
  rw [columnsOf_eq]
  constructor
  · intro hc
    split at hc
    · cases hc
    rename_i hlength
    obtain ⟨is, his, hc⟩ := bind_ok.mp hc
    have hmem : ∀ v ∈ labels, v ∈ m.labels := by
      intro v hv
      obtain ⟨i, hi⟩ := exists_of_mapM_ok his v hv
      exact mem_of_position h hi
    rw [mapM_eq_pure (fun v hv => position_of_mem h (hmem v hv))] at his
    cases his
    split at hc
    · cases hc
    rename_i hrepeat
    cases hc
    have hnodup := (firstRepeat?_eq_none.mp hrepeat).1
    refine ⟨(hnodup.subperm hmem).perm_of_length_le ?_, rfl⟩
    rw [Model.length_labels, Decidable.not_not.mp hlength]
  · rintro ⟨hperm, rfl⟩
    have hlength := length_of_perm hperm
    have hrepeat : firstRepeat? [] labels = none :=
      firstRepeat?_eq_none.mpr ⟨hperm.nodup_iff.mpr h.labels, by simp⟩
    rw [mapM_eq_pure (fun v hv => position_of_mem h (hperm.mem_iff.mp hv)), hrepeat,
      if_neg (not_not_intro hlength)]
    rfl

/-- The value that a row holds under a label. -/
def valueUnder (labels : List V) (row : List Int) (v : V) : Int :=
  (stored? v (labels.zip row)).getD 0

/-- The row with its values in the order of a model's variables. -/
def arranged (m : Model V R) (labels : List V) (row : List Int) : List Int :=
  m.labels.map (valueUnder labels row)

theorem label_of_place {m : Model V R} (h : m.WellFormed) {v : V} (hv : v ∈ m.labels) :
    m.labels[m.place v]? = some v := by
  obtain ⟨i, hi⟩ := List.mem_iff_getElem?.mp hv
  simpa [Model.place, h.indexOf?_eq_some.mpr hi] using hi

theorem places_perm {m : Model V R} (h : m.WellFormed) {labels : List V}
    (hperm : labels.Perm m.labels) : (labels.map m.place).Perm (List.range m.numVariables) :=
  h.places ▸ hperm.map m.place

/-- The columns go where the labels are looked for. -/
theorem scatter_places {m : Model V R} (h : m.WellFormed) {samples : Matrix} {labels : List V}
    (hperm : labels.Perm m.labels) (hwidth : samples.ncols = m.numVariables) :
    (samples.scatter (labels.map m.place)).rows = samples.rows.map (arranged m labels) := by
  have hindex : ∀ v ∈ m.labels, (labels.map m.place).idxOf (m.place v) = labels.idxOf v := by
    intro v hv
    refine idxOf_map (fun u hu he => ?_)
    have hu' := label_of_place h (hperm.mem_iff.mp hu)
    rw [he, label_of_place h hv] at hu'
    exact (Option.some.inj hu').symm
  change samples.rows.map (fun row =>
    ((List.range samples.ncols).map (labels.map m.place).idxOf).map (row.getD · 0)) = _
  rw [hwidth, ← h.places]
  refine List.map_congr_left (fun row _ => ?_)
  rw [arranged, List.map_map, List.map_map]
  refine List.map_congr_left (fun v hv => ?_)
  rw [valueUnder, stored?_zip (hperm.mem_iff.mpr hv), ← hindex v hv]
  simp

/-- Read under its own labels, a row is what it was. -/
theorem map_valueUnder {labels : List V} (h : labels.Nodup) {row : List Int}
    (hrow : row.length = labels.length) : labels.map (valueUnder labels row) = row := by
  refine List.ext_getElem (by simp [hrow]) (fun i hi hi' => ?_)
  simp [valueUnder, stored?_zip, h.idxOf_getElem, hi']

/-- Rows in the order of the model are already arranged. -/
theorem map_arranged {m : Model V R} (h : m.WellFormed) {samples : Matrix}
    (hwidth : samples.ncols = m.numVariables) :
    samples.rows.map (arranged m m.labels) = samples.rows := by
  refine (List.map_congr_left (fun row hr => ?_)).trans (List.map_id _)
  exact map_valueUnder h.labels (by rw [samples.width row hr, hwidth, Model.length_labels])

theorem labels_of_columns {m : Model V R} (h : m.WellFormed) {labels : List V}
    (hperm : labels.Perm m.labels) (hcolumns : labels.map m.place = List.range m.numVariables) :
    labels = m.labels := by
  refine List.ext_getElem (hperm.length_eq) (fun i hi hi' => ?_)
  have hplace : m.place labels[i] = i := by
    have hat := congrArg (fun ns : List Nat => ns[i]?) hcolumns
    have hlt : i < m.numVariables := by rwa [Model.length_labels] at hi'
    simpa [hi, hlt] using hat
  have hlabel := label_of_place h (hperm.mem_iff.mp (List.getElem_mem hi))
  rw [hplace, List.getElem?_eq_getElem hi'] at hlabel
  exact (Option.some.inj hlabel).symm

/-- Columns for the variables of a model, each once, with values of its domain. -/
structure Suits (m : Model V R) (samples : Matrix) (labels : List V) : Prop where
  labels : labels.Perm m.labels
  width : samples.ncols = m.numVariables
  domain : ∀ row ∈ samples.rows, ∀ x ∈ row, m.vartype.contains x = true

theorem arranged_perm {m : Model V R} (h : m.WellFormed) {labels : List V}
    (hperm : labels.Perm m.labels) {row : List Int}
    (hrow : row.length = labels.length) : (arranged m labels row).Perm row := by
  have hnodup : labels.Nodup := hperm.nodup_iff.mpr h.labels
  exact (hperm.symm.map _).trans (List.Perm.of_eq (map_valueUnder hnodup hrow))

/-- Suitable samples fit the model once they are in its order. -/
theorem Suits.fits_arranged {m : Model V R} {samples : Matrix} {labels : List V}
    (hsuits : Suits m samples labels) (h : m.WellFormed) {row : List Int}
    (hr : row ∈ samples.rows) : m.Fits (arranged m labels row) := by
  have hlength := length_of_perm hsuits.labels
  have hrow : row.length = labels.length := by
    rw [samples.width row hr, hsuits.width, hlength]
  have hmoved := arranged_perm h hsuits.labels hrow
  refine ⟨?_, fun x hx => hsuits.domain row hr x (hmoved.mem_iff.mp hx)⟩
  rw [hmoved.length_eq, hrow, hlength]

section
variable [Coefficient R]

/-- The energies of rows in the order of a model's variables, if the rows are as wide as that. -/
def energiesByLabel (m : Model V R) (samples : Matrix) (labels : List V) :
    Except (ModelError V) (List R) :=
  if samples.ncols ≠ m.numVariables then .error (.sampleLength m.numVariables samples.ncols)
  else m.energies (samples.rows.map (arranged m labels))

variable {m : Model V R} {samples : Matrix} {labels : List V}

omit [DecidableEq V] in
/-- The first row of a wrong width is refused, if there is one. -/
theorem energies_of_width_ne (hwidth : samples.ncols ≠ m.numVariables) :
    m.energies samples.rows =
      if samples.rows = [] then .ok [] else .error (.sampleLength m.numVariables samples.ncols) := by
  cases hrows : samples.rows with
  | nil => rfl
  | cons row rows =>
    have hrow : row.length = samples.ncols := samples.width row (hrows ▸ List.mem_cons_self)
    rw [Model.energies, List.mapM_cons, Model.energy, hrow, if_pos hwidth]
    rfl

/-- The shortcut sees the same rows. Where they are not as wide as the model, the first of them is
refused, and where there is none, the set is. -/
theorem ofModel_of_perm (h : m.WellFormed) (hperm : labels.Perm m.labels) :
    ofModel samples labels m =
      energiesByLabel m samples labels >>= ofSamples samples labels m.vartype := by
  have hlength : (labels.map m.place).length = m.numVariables := by
    rw [List.length_map, length_of_perm hperm]
  unfold ofModel energiesByLabel
  rw [(columnsOf_ok h).mpr ⟨hperm, rfl⟩]
  simp only [bind, Except.bind, hlength]
  by_cases hshort : labels.map m.place = List.range m.numVariables
  · obtain rfl := labels_of_columns h hperm hshort
    rw [if_pos hshort]
    by_cases hwidth : samples.ncols = m.numVariables
    · simp [hwidth, map_arranged h hwidth]
    · rw [energies_of_width_ne hwidth, if_pos hwidth]
      by_cases hrows : samples.rows = []
      · simp [hrows, hwidth, ofSamples, Model.length_labels]
      · simp [hrows]
  · rw [if_neg hshort]
    by_cases hwidth : samples.ncols = m.numVariables
    · simp [hwidth, scatter_places h hperm hwidth]
    · simp [hwidth]

/-- What suits a model gets its energies, and what does not is refused. -/
theorem ofModel_ok (h : m.WellFormed) {s : SampleSet V R} :
    ofModel samples labels m = .ok s ↔ Suits m samples labels ∧
      s = ⟨labels, samples, samples.rows.map (fun row => m.evaluate (arranged m labels row)),
        List.replicate samples.nrows 1, m.vartype⟩ := by
  constructor
  · intro hs
    obtain ⟨columns, hcolumns, _⟩ := bind_ok.mp hs
    obtain ⟨hperm, _⟩ := (columnsOf_ok h).mp hcolumns
    rw [ofModel_of_perm h hperm] at hs
    obtain ⟨energies, henergies, hs⟩ := bind_ok.mp hs
    unfold energiesByLabel at henergies
    split at henergies
    · cases henergies
    rename_i hwidth
    obtain ⟨_, rfl⟩ := Model.energies_ok.mp henergies
    obtain ⟨_, _, hdomain, rfl⟩ := ofSamples_ok.mp hs
    rw [List.map_map]
    exact ⟨⟨hperm, Decidable.not_not.mp hwidth, hdomain⟩, rfl⟩
  · rintro ⟨hsuits, rfl⟩
    have hfits : ∀ x ∈ samples.rows.map (arranged m labels), m.Fits x :=
      List.forall_mem_map.mpr (fun _ hr => hsuits.fits_arranged h hr)
    have henergies : energiesByLabel m samples labels =
        .ok (samples.rows.map (fun row => m.evaluate (arranged m labels row))) := by
      rw [energiesByLabel, if_neg (not_not_intro hsuits.width), Model.energies_of_fits hfits,
        List.map_map]
      rfl
    rw [ofModel_of_perm h hsuits.labels, henergies]
    exact ofSamples_ok.mpr ⟨hsuits.width.trans (length_of_perm hsuits.labels).symm,
      List.length_map _, hsuits.domain, rfl⟩

/-- Rows that fit a model get the energies that it gives them, and one occurrence each. -/
theorem ofModel_labels (h : m.WellFormed) (hwidth : samples.ncols = m.numVariables)
    (hfit : ∀ row ∈ samples.rows, m.Fits row) :
    ofModel samples m.labels m = .ok ⟨m.labels, samples, samples.rows.map m.evaluate,
      List.replicate samples.rows.length 1, m.vartype⟩ := by
  have hsuits : Suits m samples m.labels :=
    ⟨.refl _, hwidth, fun row hr => (hfit row hr).2⟩
  have henergies := congrArg (List.map m.evaluate) (map_arranged h hwidth)
  rw [List.map_map] at henergies
  exact (ofModel_ok h).mpr ⟨hsuits, by rw [← henergies]; rfl⟩

end

end SampleSet
end BinaryQuadratic
