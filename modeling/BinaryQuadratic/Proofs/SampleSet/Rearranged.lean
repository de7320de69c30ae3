import BinaryQuadratic.Proofs.Model.Reachable
import BinaryQuadratic.Proofs.SampleSet.OfModel

namespace BinaryQuadratic

namespace Matrix

/-- Copies column `source` over column `target` of other rows. -/
def copyColumn (a : Matrix) (rows : List (List Int)) (target source : Nat) : List (List Int) :=
  List.zipWith (fun placed row => placed.set target (row.getD source 0)) rows a.rows

/-- Moves each column `i` to position `targets[i]`, one after the other, into rows of zeros. -/
def copyColumns (a : Matrix) (targets : List Nat) : List (List Int) :=
  targets.zipIdx.foldl (fun rows (target, source) => a.copyColumn rows target source)
    (a.rows.map (fun row => row.map (fun _ => 0)))

/-- Column after column in all rows is the same as row after row. -/
theorem foldl_copyColumn (a : Matrix) (ps : List (Nat × Nat)) (init : List Int → List Int) :
    ps.foldl (fun rows p => a.copyColumn rows p.1 p.2) (a.rows.map init) =
      a.rows.map (fun row =>
        ps.foldl (fun placed p => placed.set p.1 (row.getD p.2 0)) (init row)) := by
  induction ps generalizing init with
  | nil => rfl
  | cons p ps ih =>
    have hstep : a.copyColumn (a.rows.map init) p.1 p.2 =
        a.rows.map (fun row => (init row).set p.1 (row.getD p.2 0)) := by
      rw [copyColumn, List.zipWith_map_left, List.zipWith_self]
    rw [List.foldl_cons, hstep, ih]
    rfl

/-- Copying columns one by one moves each to its target, if the targets are a permutation. -/
theorem copyColumns_eq_scatter {a : Matrix} {targets : List Nat}
    (h : targets.Perm (List.range a.ncols)) : a.copyColumns targets = (a.scatter targets).rows := by
  rw [copyColumns, foldl_copyColumn, scatter]
  -- what is scattered is looked up from the targets, what is copied is set at them
  refine List.map_congr_left (fun row hr => ?_)
  have hwidth := a.width row hr
  refine List.ext_getElem? (fun j => ?_)
  rw [getElem?_foldl_set (f := (row.getD · 0)) (h.nodup_iff.mpr List.nodup_range)]
  by_cases hj : j < a.ncols
  · have hmem : j ∈ targets := h.mem_iff.mpr (List.mem_range.mpr hj)
    simp [hmem, hj, hwidth]
  · have hmem : j ∉ targets := fun hm => hj (List.mem_range.mp (h.mem_iff.mp hm))
    simp [hmem, hj, hwidth]

end Matrix

namespace SampleSet

variable {V R : Type}

/-- Columns that are moved together with their labels suit the same models. -/
theorem suits_pick {m : Model V R} {samples moved : Matrix} {labels : List V} {order : List Nat}
    (horder : order.Perm (List.range labels.length)) (hwidth : moved.ncols = samples.ncols)
    (hrows : moved.rows = samples.rows.map (pick order)) :
    Suits m moved (pick order labels) ↔ Suits m samples labels := by
  have hvalues : labels.length = samples.ncols →
      ((∀ row ∈ moved.rows, ∀ x ∈ row, m.vartype.contains x = true) ↔
        ∀ row ∈ samples.rows, ∀ x ∈ row, m.vartype.contains x = true) := by
    intro hlength
    rw [hrows, List.forall_mem_map]
    refine forall₂_congr (fun row hr => forall_congr' (fun x => ?_))
    have hsame : (pick order row).Perm row :=
      pick_perm (by rwa [samples.width row hr, ← hlength])
    rw [hsame.mem_iff]
  have hlabels : (pick order labels).Perm m.labels ↔ labels.Perm m.labels :=
    ⟨(pick_perm horder).symm.trans, (pick_perm horder).trans⟩
  constructor
  · rintro ⟨hperm, hncols, hdomain⟩
    have hperm := hlabels.mp hperm
    have hncols := hwidth ▸ hncols
    exact ⟨hperm, hncols, (hvalues ((length_of_perm hperm).trans hncols.symm)).mp hdomain⟩
  · rintro ⟨hperm, hncols, hdomain⟩
    exact ⟨hlabels.mpr hperm, hwidth.trans hncols,
      (hvalues ((length_of_perm hperm).trans hncols.symm)).mpr hdomain⟩

variable [DecidableEq V]

/-- A value that is moved together with its label is found where it was. -/
theorem valueUnder_pick {labels : List V} (hn : labels.Nodup) {order : List Nat}
    (horder : order.Perm (List.range labels.length)) {row : List Int}
    (hrow : labels.length = row.length) :
    valueUnder (pick order labels) (pick order row) = valueUnder labels row := by
  have hpairs : (pick order (labels.zip row)).Perm (labels.zip row) :=
    pick_perm (by rwa [List.length_zip, ← hrow, min_self])
  have hkeys : ((pick order (labels.zip row)).map (·.1)).Nodup := by
    rw [(hpairs.map _).nodup_iff, List.map_fst_zip hrow.le]
    exact hn
  funext v
  rw [valueUnder, ← pick_zip hrow, stored?_perm hpairs hkeys, valueUnder]

variable [Coefficient R]

/-- Samples with the energies that a model gives them, where columns are always moved, also if they
are in the order of the model already. -/
def ofModelMoving (samples : Matrix) (labels : List V) (m : Model V R) :
    Except (ModelError V) (SampleSet V R) := do
  let columns ← columnsOf m labels
  let energies ←
    if samples.ncols ≠ columns.length then
      .error (.sampleLength columns.length samples.ncols)
    else m.energies (samples.copyColumns columns)
  ofSamples samples labels m.vartype energies

theorem ofModelMoving_of_perm {m : Model V R} {samples : Matrix} {labels : List V}
    (h : m.WellFormed) (hperm : labels.Perm m.labels) :
    ofModelMoving samples labels m =
      energiesByLabel m samples labels >>= ofSamples samples labels m.vartype := by
  have hlength : (labels.map m.place).length = m.numVariables := by
    rw [List.length_map, length_of_perm hperm]
  have hmoved : samples.ncols = m.numVariables →
      samples.copyColumns (labels.map m.place) = samples.rows.map (arranged m labels) := by
    intro hwidth
    rw [Matrix.copyColumns_eq_scatter (hwidth ▸ places_perm h hperm),
      scatter_places h hperm hwidth]
  unfold ofModelMoving energiesByLabel
  rw [(columnsOf_ok h).mpr ⟨hperm, rfl⟩]
  simp only [bind, Except.bind, hlength]
  by_cases hwidth : samples.ncols = m.numVariables
  · simp [hwidth, hmoved hwidth]
  · simp [hwidth]

/-- The shortcut changes nothing, neither the result nor the error. -/
theorem ofModel_eq_moving {m : Model V R} {samples : Matrix} {labels : List V}
    (h : m.WellFormed) : ofModel samples labels m = ofModelMoving samples labels m := by
  cases hcolumns : columnsOf m labels with
  | error why =>
    rw [ofModel, ofModelMoving, hcolumns]
    rfl
  | ok columns =>
    obtain ⟨hperm, _⟩ := (columnsOf_ok h).mp hcolumns
    rw [ofModel_of_perm h hperm, ofModelMoving_of_perm h hperm]

/-- The order of the columns is of no matter to the energies, nor to there being any. -/
theorem energies_pick {m : Model V R} (h : m.WellFormed) {samples moved : Matrix}
    {labels : List V} {order : List Nat} (horder : order.Perm (List.range labels.length))
    (hwidth : moved.ncols = samples.ncols)
    (hrows : moved.rows = samples.rows.map (pick order)) :
    (ofModel moved (pick order labels) m).toOption.map (·.energies) =
      (ofModel samples labels m).toOption.map (·.energies) := by
  have hsuits := suits_pick (m := m) horder hwidth hrows
  by_cases hs : Suits m samples labels
  · rw [toOption_eq_some.mpr ((ofModel_ok h).mpr ⟨hs, rfl⟩),
      toOption_eq_some.mpr ((ofModel_ok h).mpr ⟨hsuits.mpr hs, rfl⟩)]
    simp only [Option.map_some, hrows, List.map_map]
    refine congrArg some (List.map_congr_left (fun row hr => ?_))
    have hrow : labels.length = row.length := by
      rw [length_of_perm hs.labels, samples.width row hr, hs.width]
    have hmoved := valueUnder_pick (hs.labels.nodup_iff.mpr h.labels) horder hrow
    simp only [Function.comp_apply, arranged, hmoved]
  · have hnone : ∀ {samples : Matrix} {labels : List V}, ¬ Suits m samples labels →
        (ofModel samples labels m).toOption = none := by
      intro samples labels hs
      refine Option.eq_none_iff_forall_not_mem.mpr (fun s hmem => hs ?_)
      exact ((ofModel_ok h).mp (toOption_eq_some.mp hmem)).1
    rw [hnone hs, hnone (fun hm => hs (hsuits.mp hm))]

/-- Samples get energies from a model exactly if their labels are its variables, in whatever order,
each row has a value for each of them and all values are in its domain. The energy of a row is that
of its values in the order of the model; samples and labels stay as they are. The shortcut for
columns in that order changes nothing, nor does moving columns together with their labels. -/
theorem samples_by_label (m : Model V R) (hm : m.Reachable) (samples : Matrix)
    (labels : List V) :
    ((∃ s, ofModel samples labels m = .ok s) ↔
      labels.Perm m.labels ∧ samples.ncols = m.numVariables ∧
        ∀ row ∈ samples.rows, ∀ x ∈ row, m.vartype.contains x = true) ∧
    (∀ s, ofModel samples labels m = .ok s →
      s.samples = samples ∧ s.labels = labels ∧ s.vartype = m.vartype ∧
        s.occurrences = List.replicate samples.nrows 1 ∧
        s.energies.map .ok =
          samples.rows.map (fun row => m.energy (m.labels.map (valueUnder labels row)))) ∧
    ofModel samples labels m = ofModelMoving samples labels m ∧
    ∀ (order : List Nat) (moved : Matrix), order.Perm (List.range labels.length) →
      moved.ncols = samples.ncols → moved.rows = samples.rows.map (pick order) →
      (ofModel moved (pick order labels) m).toOption.map (·.energies) =
        (ofModel samples labels m).toOption.map (·.energies) := by
  have h := hm.wellFormed
  refine ⟨⟨?_, ?_⟩, fun s hs => ?_, ofModel_eq_moving h, fun _ _ => energies_pick h⟩
  · rintro ⟨s, hs⟩
    obtain ⟨hsuits, _⟩ := (ofModel_ok h).mp hs
    exact ⟨hsuits.labels, hsuits.width, hsuits.domain⟩
  · rintro ⟨hlabels, hwidth, hdomain⟩
    exact ⟨_, (ofModel_ok h).mpr ⟨⟨hlabels, hwidth, hdomain⟩, rfl⟩⟩
  · obtain ⟨hsuits, rfl⟩ := (ofModel_ok h).mp hs
    refine ⟨rfl, rfl, rfl, rfl, ?_⟩
    rw [List.map_map]
    refine List.map_congr_left (fun row hr => ?_)
    exact (Model.energy_ok.mpr ⟨hsuits.fits_arranged h hr, rfl⟩).symm

/-- Two rows of bits under the labels of a model in another order, and in its own. -/
theorem samples_of_turned_columns :
    let m : Model String Float := Model.ofQubo [(("a", "a"), 0.1), (("b", "c"), -1.5)] 0.25
    let samples : Matrix := ⟨3, [[1, 0, 1], [0, 0, 1]], by decide⟩
    let moved : Matrix := ⟨3, [[0, 1, 1], [0, 1, 0]], by decide⟩
    m.Reachable ∧ (∃ s, ofModel samples ["c", "a", "b"] m = .ok s ∧
        s.energies.map .ok = [m.energy [0, 1, 1], m.energy [0, 1, 0]]) ∧
      ofModel samples ["c", "a", "b"] m = ofModelMoving samples ["c", "a", "b"] m ∧
      (ofModel moved ["a", "b", "c"] m).toOption.map (·.energies) =
        (ofModel samples ["c", "a", "b"] m).toOption.map (·.energies) := by
  intro m samples moved
  have hm : m.Reachable := .ofQubo _ _
  obtain ⟨hok, hcontents, hmoving, hmoved⟩ := samples_by_label m hm samples ["c", "a", "b"]
  obtain ⟨s, hs⟩ := hok.mpr ⟨by decide, rfl, by decide⟩
  obtain ⟨_, _, _, _, henergies⟩ := hcontents s hs
  exact ⟨hm, ⟨s, hs, henergies⟩, hmoving, hmoved [1, 2, 0] moved (by decide) rfl rfl⟩

end SampleSet
end BinaryQuadratic
