import BinaryQuadratic.Json.Reader
import BinaryQuadratic.Proofs.SampleSet.Bounds
import BinaryQuadratic.SampleSet.Checked
import BinaryQuadratic.SampleSet.Json

namespace BinaryQuadratic.SampleSet

variable {V R : Type} {s : SampleSet V R}

namespace Checked

theorem reaches_iff {i : Nat} : reaches s i = true ↔
    i < s.size ∧ i < s.energies.length ∧ i < s.occurrences.length := by
  simp [reaches, and_assoc]

theorem select_eq_some {indices : List Nat} (h : ∀ i ∈ indices, reaches s i = true) :
    select s indices = some (s.select indices) :=
  if_pos (List.all_eq_true.mpr h)

theorem isSome_select {indices : List Nat} :
    (select s indices).isSome = true ↔ ∀ i ∈ indices, reaches s i = true := by
  unfold select
  split <;> simp_all

/-- Positions are out of range here where they are so when looked at one by one. -/
theorem select?_eq (s : SampleSet V R) (indices : List Nat) :
    s.select? indices = select s indices := by
  by_cases h : ∀ i ∈ indices, reaches s i = true
  · have hparts : ∀ i ∈ indices, i < s.size ∧ i < s.energies.length ∧ i < s.occurrences.length :=
      fun i hi => reaches_iff.mp (h i hi)
    rw [select_eq_some h]
    exact select?_of_lt (fun i hi => (hparts i hi).1) (fun i hi => (hparts i hi).2.1)
      (fun i hi => (hparts i hi).2.2)
  · have hnone : select s indices = none := if_neg (fun hall => h (List.all_eq_true.mp hall))
    rw [hnone, Option.eq_none_iff_forall_ne_some]
    intro s' hs
    obtain ⟨rows, hrows, _, _, energies, henergies, occurrences, hoccurrences, _⟩ := by
      simpa only [SampleSet.select?, bind, Option.bind_eq_some_iff] using hs
    exact h (fun i hi => reaches_iff.mpr ⟨lt_of_pick? hrows i hi, lt_of_pick? henergies i hi,
      lt_of_pick? hoccurrences i hi⟩)

/-- A row is reached as far as there are records. -/
theorem reaches_of_record {i : Nat} {r : Record R} (h : s.records[i]? = some r) :
    reaches s i = true := by
  obtain ⟨hrow, henergy, hcount⟩ := getElem?_records.mp h
  exact reaches_iff.mpr ⟨(List.getElem?_eq_some_iff.mp hrow).1,
    (List.getElem?_eq_some_iff.mp henergy).1, (List.getElem?_eq_some_iff.mp hcount).1⟩

/-- Only rows of records are merged, so that no shape of the parts is a bad one. -/
theorem aggregate_eq (s : SampleSet V R) : aggregate s = some s.aggregate := by
  have hrows : ∀ i ∈ s.groups.map (·.row), reaches s i = true := by
    intro i hi
    obtain ⟨g, hg, rfl⟩ := List.mem_map.mp hi
    obtain ⟨r, hr, _⟩ := row_of_group hg
    exact reaches_of_record hr
  rw [aggregate, select_eq_some hrows]
  rfl

section
variable [Coefficient R]

theorem sortedIndices_eq_some (h : s.size ≤ s.energies.length) :
    sortedIndices s = some s.sortedIndices :=
  if_pos (h.trans (le_max_right _ _))

/-- Without an order of the rows there is no table. -/
theorem table_eq_none [VariableLabel V] {s : SampleSet V Float} (h : sortedIndices s = none)
    (total : Nat) : table s total = none := by
  rw [table, h]
  rfl

theorem truncate_eq_some (h : ∀ i < s.size, reaches s i = true) (n : Nat) (order : SortBy) :
    truncate s n order = some (s.truncate n order) := by
  cases order with
  | energy =>
    have henergies : s.size ≤ s.energies.length := by
      by_contra hlt
      have := (reaches_iff.mp (h s.energies.length (by omega))).2.1
      omega
    rw [truncate, sortedIndices_eq_some henergies]
    exact select_eq_some (fun i hi => h i (lt_of_mem_sortedIndices (List.mem_of_mem_take hi)))
  | unsorted =>
    refine select_eq_some (fun i hi => h i ?_)
    exact (List.mem_range.mp hi).trans_le (min_le_left _ _)

/-- All rows can be chosen, so that each needs an energy and a count. More of these do no harm. -/
theorem truncate_in_range_iff : (∀ n order, (truncate s n order).isSome = true) ↔
    s.size ≤ s.energies.length ∧ s.size ≤ s.occurrences.length := by
  constructor
  · intro h
    have hall : ∀ i ∈ List.range s.size, reaches s i = true := by
      have hselect := isSome_select.mp (h s.size .unsorted)
      rwa [min_self] at hselect
    by_cases hsize : s.size = 0
    · omega
    · have hlast := reaches_iff.mp (hall (s.size - 1) (List.mem_range.mpr (by omega)))
      omega
  · rintro ⟨henergies, hoccurrences⟩ n order
    have hall : ∀ i < s.size, reaches s i = true := fun i hi =>
      reaches_iff.mpr ⟨hi, hi.trans_le henergies, hi.trans_le hoccurrences⟩
    rw [truncate_eq_some hall]
    rfl

end

end Checked

theorem Aligned.reaches (h : s.Aligned) {i : Nat} (hi : i < s.size) : Checked.reaches s i = true :=
  Checked.reaches_iff.mpr ⟨hi, h.energies ▸ hi, h.occurrences ▸ hi⟩

theorem Aligned.lowest [Coefficient R] (h : s.Aligned) : Checked.lowest s = some s.lowest := by
  unfold Checked.lowest SampleSet.lowest
  cases s.first? with
  | none => rfl
  | some r =>
    refine Checked.select_eq_some (fun i hi => h.reaches ?_)
    obtain ⟨⟨e, j⟩, hmem, rfl⟩ := List.mem_map.mp hi
    have hj := List.mem_zipIdx_iff_getElem?.mp (List.mem_filter.mp hmem).1
    exact h.energies ▸ (List.getElem?_eq_some_iff.mp hj).1

theorem Aligned.flipVariable [DecidableEq V] (h : s.Aligned) (v : V) :
    Checked.flipVariable s v = ExceptT.mk (some (s.flipVariable v)) := by
  unfold Checked.flipVariable SampleSet.flipVariable
  cases hv : s.labels.findIdx? (· = v) with
  | none => rfl
  | some column =>
    have hcolumn : column < s.samples.ncols :=
      h.columns ▸ (List.findIdx?_eq_some_iff_getElem.mp hv).1
    simp only [hcolumn, ↓reduceIte]
    rfl

theorem Aligned.of_flipVariable [DecidableEq V] (h : s.Aligned) {v : V} {s' : SampleSet V R}
    (hs : s.flipVariable v = .ok s') : s'.Aligned := by
  unfold SampleSet.flipVariable at hs
  split at hs
  · cases hs
    exact ⟨h.columns, by simpa [size, Matrix.nrows, Matrix.mapColumn] using h.energies,
      by simpa [size, Matrix.nrows, Matrix.mapColumn] using h.occurrences⟩
  · cases hs

/-- A flip leaves the sizes as they are, so that the next one is in range as well. -/
theorem Aligned.flipVariables [DecidableEq V] (h : s.Aligned) (vs : List V) :
    (Checked.flipVariables s vs).run = some (s.flipVariables vs) := by
  unfold Checked.flipVariables SampleSet.flipVariables
  induction vs generalizing s with
  | nil => rfl
  | cons v vs ih =>
    rw [List.foldlM_cons, List.foldlM_cons, h.flipVariable]
    cases hv : s.flipVariable v with
    | error why => rfl
    | ok s' => exact ih (h.of_flipVariable hv)

theorem Aligned.table [VariableLabel V] {s : SampleSet V Float} (h : s.Aligned) (total : Nat) :
    Checked.table s total = some (s.table total) := by
  have hall : ∀ i ∈ s.sortedIndices, Checked.reaches s i = true :=
    fun i hi => h.reaches (lt_of_mem_sortedIndices hi)
  have hcolumns : s.numVariables ≤ s.samples.ncols := h.columns.ge
  rw [Checked.table, Checked.sortedIndices_eq_some h.energies.ge]
  simpa [hcolumns] using hall

/-- What is left to stop a table is the sum of its counts. -/
theorem Aligned.display [VariableLabel V] {s : SampleSet V Float} (h : s.Aligned)
    (o : Word.Overflow) : Checked.display o s = s.display o := by
  unfold Checked.display SampleSet.display
  cases o.sum? s.occurrences with
  | none => rfl
  | some total => exact h.table total

/-- Merging rows is in range for every set, as is looking for the first one, and cutting short
exactly where each row has an energy and a count. Where the parts agree in size, no row and no
column is out of range, whatever the values and energies are. Only positions are meant: a value
outside the domain may leave eight bits when it is flipped, as `flipByte?` tells, and counts may add
up to more than a word, as `display` and `aggregateInWords` do. -/
theorem in_range_of_aligned_parts [DecidableEq V] [VariableLabel V] (s : SampleSet V Float) :
    Checked.aggregate s = some s.aggregate ∧
      ((∀ n order, (Checked.truncate s n order).isSome = true) ↔
        s.size ≤ s.energies.length ∧ s.size ≤ s.occurrences.length) ∧
      (s.Aligned → (s.first? = none ↔ s.size = 0) ∧ Checked.lowest s = some s.lowest ∧
        Checked.sortedIndices s = some s.sortedIndices ∧
        (∀ n order, Checked.truncate s n order = some (s.truncate n order)) ∧
        (∀ vs, (Checked.flipVariables s vs).run = some (s.flipVariables vs)) ∧
        ∀ total, Checked.table s total = some (s.table total)) :=
  ⟨Checked.aggregate_eq s, Checked.truncate_in_range_iff, fun h =>
    ⟨h.first?_eq_none, h.lowest, Checked.sortedIndices_eq_some h.energies.ge,
      Checked.truncate_eq_some (fun _ => h.reaches), h.flipVariables, h.table⟩⟩

/-- Rows with a value that is no spin, which no sampler gives, but which can be read. -/
theorem in_range_of_foreign_values :
    let s : SampleSet Label Float :=
      ⟨[.name "a", .number 0], ⟨2, [[1, 7], [-1, 0]], by decide⟩, [0.5, -2], [3, 0], .spin⟩
    s.Aligned ∧ Checked.truncate s 1 .energy = some (s.truncate 1 .energy) ∧
      (Checked.flipVariables s [.number 0, .name "b"]).run =
        some (.error (.unknownVariable (.name "b"))) ∧
      Checked.table s 3 = some (s.table 3) := by
  intro s
  have h : s.Aligned := ⟨rfl, rfl, rfl⟩
  obtain ⟨_, _, haligned⟩ := in_range_of_aligned_parts s
  obtain ⟨_, _, _, htruncate, hflips, htable⟩ := haligned h
  exact ⟨h, htruncate 1 .energy, (hflips _).trans rfl, htable 3⟩

/-- That parts agree is not checked: here is a text with two labels for one column and two rows
without energies, which is read. -/
theorem read_out_of_range :
    let text := "\x7b\"variables\":[\"a\",\"b\"]," ++
      "\"samples\":\x7b\"v\":1,\"dim\":[2,1],\"data\":[1,-1]\x7d," ++
      "\"energies\":\x7b\"v\":1,\"dim\":[0],\"data\":[]\x7d," ++
      "\"num_occurrences\":\x7b\"v\":1,\"dim\":[1],\"data\":[1]\x7d,\"vartype\":\"Spin\"\x7d"
    ∃ s : SampleSet Label Float, (Json.parse? text).bind ofJson? = some s ∧
      s.energies.length ≠ s.size ∧ Checked.sortedIndices s = none ∧
      Checked.truncate s 1 .unsorted = none ∧
      (Checked.flipVariables s [.name "b"]).run = none ∧ ∀ total, Checked.table s total = none := by
  intro text
  have hread : ((Json.parse? text).bind ofJson?).any (fun s =>
      decide (s.energies.length ≠ s.size ∧ Checked.sortedIndices s = none ∧
        Checked.truncate s 1 .unsorted = none ∧
        (Checked.flipVariables s [.name "b"]).run = none)) = true := by
    decide +kernel
  obtain ⟨s, hs, hout⟩ := (Option.any_eq_true _ _).mp hread
  obtain ⟨hsize, hsorted, htruncate, hflips⟩ := of_decide_eq_true hout
  exact ⟨s, hs, hsize, hsorted, htruncate, hflips, Checked.table_eq_none hsorted⟩

end BinaryQuadratic.SampleSet
