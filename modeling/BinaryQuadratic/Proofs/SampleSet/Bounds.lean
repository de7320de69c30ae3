import BinaryQuadratic.Proofs.SampleSet.Joined
import BinaryQuadratic.Proofs.SampleSet.Reachable
import BinaryQuadratic.Proofs.SampleSet.Order
import BinaryQuadratic.SampleSet.Table

namespace BinaryQuadratic

/-- The elements at the given positions, if the list has all of these. -/
def pick? (indices : List Nat) (xs : List α) : Option (List α) :=
  indices.mapM (xs[·]?)

theorem pick?_of_lt {indices : List Nat} {xs : List α} (h : ∀ i ∈ indices, i < xs.length) :
    pick? indices xs = some (pick indices xs) := by
  rw [pick_eq_filterMap, pick?]
  induction indices with
  | nil => rfl
  | cons i indices ih =>
    have hi : i < xs.length := h i (by simp)
    rw [List.mapM_cons, ih (fun j hj => h j (by simp [hj]))]
    simp [hi]

theorem lt_of_pick? {indices : List Nat} {xs ys : List α} (h : pick? indices xs = some ys) :
    ∀ i ∈ indices, i < xs.length := by
  induction indices generalizing ys with
  | nil => simp
  | cons i indices ih =>
    simp only [pick?, List.mapM_cons, bind, Option.bind_eq_some_iff] at h
    obtain ⟨x, hx, rest, hrest, _⟩ := h
    exact List.forall_mem_cons.mpr ⟨(List.getElem?_eq_some_iff.mp hx).1, ih hrest⟩

/-- Two lists side by side, the second looked at by position, from position `n` on. -/
theorem mapM_zipIdx {f : α → β → γ} {xs : List α} {ys : List β} {n : Nat}
    (h : ys.length = n + xs.length) :
    (xs.zipIdx n).mapM (fun p => ys[p.2]?.map (f p.1)) =
      some (List.zipWith f xs (ys.drop n)) := by
  induction xs generalizing n with
  | nil => simp
  | cons x xs ih =>
    rw [List.length_cons] at h
    have hn : n < ys.length := by omega
    rw [List.drop_eq_getElem_cons hn, List.zipWith_cons_cons, List.zipIdx_cons, List.mapM_cons,
      ih (by omega)]
    simp [hn]

namespace SampleSet

variable {V R : Type}

/-! The operations that go by position, with every position looked at before it is used. No answer
means that one of them lay outside. -/

def select? (s : SampleSet V R) (indices : List Nat) : Option (SampleSet V R) := do
  let samples ← Matrix.ofRows? s.samples.ncols (← pick? indices s.samples.rows)
  let energies ← pick? indices s.energies
  let occurrences ← pick? indices s.occurrences
  return { s with samples := samples, energies := energies, occurrences := occurrences }

def aggregate? (s : SampleSet V R) : Option (SampleSet V R) := do
  let merged ← s.select? (s.groups.map (·.row))
  return { merged with occurrences := s.groups.map (·.occurrences) }

section
variable [Coefficient R]

def sortedIndices? (s : SampleSet V R) : Option (List Nat) := do
  let keyed ← (List.range s.size).mapM (fun i => do return (i, ← s.energies[i]?))
  return (keyed.mergeSort (fun a b => Coefficient.le a.2 b.2)).map (·.1)

def lowest? (s : SampleSet V R) : Option (SampleSet V R) :=
  match s.first? with
  | none => some s
  | some r =>
    s.select? ((s.energies.zipIdx.filter (fun (e, _) => Coefficient.near e r.energy)).map (·.2))

def truncate? (s : SampleSet V R) (n : Nat) : SortBy → Option (SampleSet V R)
  | .energy => do s.select? ((← s.sortedIndices?).take n)
  | .unsorted => s.select? (List.range (min s.size n))

end

/-- The line of row `i`, whose energy is already a text. -/
def rowLine? (s : SampleSet V Float) (indexWidth energyWidth : Nat) (widths : List Nat) (i : Nat)
    (energy : String) : Option String := do
  let row ← s.samples.rows[i]?
  let values ← widths.zipIdx.mapM
    (fun p => row[p.2]?.map (fun x => padLeft p.1 (valueText s.vartype x)))
  let n ← s.occurrences[i]?
  return tableLine (padLeft indexWidth (toString i))
    (values ++ [padLeft energyWidth energy, padLeft occurrencesHeading.length (toString n)])

def tableLines? [VariableLabel V] (s : SampleSet V Float) (total : Nat) :
    Option (List String) := do
  let order ← s.sortedIndices?
  let energies ← order.mapM (fun i => s.energies[i]?.map Text.real)
  let indexWidth := widest (order.map (fun i => (toString i).length))
  let energyWidth := max energyHeading.length (widest (energies.map (·.length)))
  let widths := s.labels.map columnWidth
  let heading := tableLine (padLeft indexWidth "")
    (List.zipWith (fun w v => padLeft w (VariableLabel.plain v)) widths s.labels ++
      [padLeft energyWidth energyHeading, occurrencesHeading])
  let lines ← (order.zip energies).mapM
    (fun (i, energy) => s.rowLine? indexWidth energyWidth widths i energy)
  return heading :: (lines ++ [s.summaryLine total])

theorem select?_of_lt {s : SampleSet V R} {indices : List Nat} (hrows : ∀ i ∈ indices, i < s.size)
    (henergies : ∀ i ∈ indices, i < s.energies.length)
    (hoccurrences : ∀ i ∈ indices, i < s.occurrences.length) :
    s.select? indices = some (s.select indices) := by
  have hwidth : ∀ row ∈ pick indices s.samples.rows, row.length = s.samples.ncols :=
    fun row hr => s.samples.width row (mem_of_mem_pick hr)
  have hsamples : Matrix.ofRows? s.samples.ncols (pick indices s.samples.rows) =
      some (s.samples.select indices) := dif_pos hwidth
  rw [SampleSet.select?, pick?_of_lt hrows, pick?_of_lt henergies, pick?_of_lt hoccurrences]
  simp only [Option.bind_eq_bind, Option.bind_some, hsamples]
  rfl

theorem WellFormed.select? {s : SampleSet V R} (h : s.WellFormed) {indices : List Nat}
    (hi : ∀ i ∈ indices, i < s.size) : s.select? indices = some (s.select indices) :=
  select?_of_lt hi (h.energies ▸ hi) (h.occurrences ▸ hi)

theorem WellFormed.aggregate? {s : SampleSet V R} (h : s.WellFormed) :
    s.aggregate? = some s.aggregate := by
  have hrows : ∀ i ∈ s.groups.map (·.row), i < s.size := by
    intro i hi
    obtain ⟨g, hg, rfl⟩ := List.mem_map.mp hi
    obtain ⟨r, hr, _⟩ := row_of_group hg
    exact h.length_records ▸ (List.getElem?_eq_some_iff.mp hr).1
  rw [SampleSet.aggregate?, h.select? hrows]
  rfl

section
variable [Coefficient R]

theorem WellFormed.sortedIndices? {s : SampleSet V R} (h : s.WellFormed) :
    s.sortedIndices? = some s.sortedIndices := by
  let energy (i : Nat) : R := s.energies.getD i Coefficient.zero
  have hread : ∀ i ∈ List.range s.size, s.energies[i]? = some (energy i) := by
    intro i hi
    have hlt : i < s.energies.length := h.energies ▸ List.mem_range.mp hi
    simp [energy, hlt]
  let keyed := (List.range s.size).map (fun i => (i, energy i))
  have hkeyed : (List.range s.size).mapM (fun i => do return (i, ← s.energies[i]?)) =
      some keyed := mapM_eq_pure (fun i hi => by simp [hread i hi])
  have horder : ∀ a ∈ keyed, ∀ b ∈ keyed, Coefficient.le a.2 b.2 =
      mayPrecede s.energies.toArray[a.1]? s.energies.toArray[b.1]? := by
    intro a ha b hb
    obtain ⟨i, hi, rfl⟩ := List.mem_map.mp ha
    obtain ⟨j, hj, rfl⟩ := List.mem_map.mp hb
    simp [hread i hi, hread j hj, mayPrecede]
  have hsorted := List.map_mergeSort (f := Prod.fst) (r := fun a b => Coefficient.le a.2 b.2)
    (s := fun i j => mayPrecede s.energies.toArray[i]? s.energies.toArray[j]?) horder
  have hindices : keyed.map Prod.fst = List.range s.size := by simp [keyed, Function.comp_def]
  rw [SampleSet.sortedIndices?, hkeyed, SampleSet.sortedIndices, ← hindices, ← hsorted]
  rfl

theorem WellFormed.lowest? {s : SampleSet V R} (h : s.WellFormed) :
    s.lowest? = some s.lowest := by
  unfold SampleSet.lowest? SampleSet.lowest
  cases s.first? with
  | none => rfl
  | some r =>
    apply h.select?
    intro i hi
    obtain ⟨⟨e, j⟩, hmem, rfl⟩ := List.mem_map.mp hi
    have hj := List.mem_zipIdx_iff_getElem?.mp (List.mem_filter.mp hmem).1
    exact h.energies ▸ (List.getElem?_eq_some_iff.mp hj).1

theorem Aligned.first?_eq_none {s : SampleSet V R} (h : s.Aligned) :
    s.first? = none ↔ s.size = 0 := by
  rw [← h.length_records, List.length_eq_zero_iff]
  unfold SampleSet.first?
  cases s.records <;> simp

theorem WellFormed.first?_eq_none {s : SampleSet V R} (h : s.WellFormed) :
    s.first? = none ↔ s.size = 0 :=
  h.aligned.first?_eq_none

theorem WellFormed.truncate? {s : SampleSet V R} (h : s.WellFormed) (n : Nat) (order : SortBy) :
    s.truncate? n order = some (s.truncate n order) := by
  cases order with
  | energy =>
    rw [SampleSet.truncate?, h.sortedIndices?]
    exact h.select? (fun i hi => lt_of_mem_sortedIndices (List.mem_of_mem_take hi))
  | unsorted =>
    refine h.select? (fun i hi => ?_)
    have := List.mem_range.mp hi
    omega

omit [Coefficient R] in
/-- Sets that pass the checks have the same labels, and so are equally wide. -/
theorem WellFormed.concatenate_ne_shape [DecidableEq V] {sets : List (SampleSet V R)}
    (h : ∀ p ∈ sets, p.WellFormed) : SampleSet.concatenate sets ≠ .error .shape := by
  intro hshape
  cases sets with
  | nil => cases hshape
  | cons s rest =>
    obtain ⟨_, p, _, _, _, hp⟩ := forM_error.mp ((concatenate_error h).mp hshape)
    cases checkJoins_error.mp hp

end

/-- The rows are listed in the order of their energies, none left out. -/
theorem WellFormed.orderedRecords {s : SampleSet V Float} (h : s.WellFormed) :
    s.orderedRecords.map (·.1) = s.sortedIndices := by
  rw [SampleSet.orderedRecords, List.map_filterMap]
  refine (List.filterMap_congr (g := some) fun i hi => ?_).trans (by simp)
  have hlt : i < s.records.length := h.length_records ▸ lt_of_mem_sortedIndices hi
  simp [hlt]

theorem record_of_mem_orderedRecords {s : SampleSet V Float} {p : Nat × Record Float}
    (h : p ∈ s.orderedRecords) : s.records[p.1]? = some p.2 := by
  obtain ⟨i, _, hp⟩ := List.mem_filterMap.mp h
  obtain ⟨r, hr, rfl⟩ := Option.map_eq_some_iff.mp hp
  simpa using hr

theorem WellFormed.rowLine? {s : SampleSet V Float} (h : s.WellFormed) {i : Nat}
    {r : Record Float} (hr : s.records[i]? = some r) {widths : List Nat}
    (hw : widths.length = s.labels.length) (indexWidth energyWidth : Nat) (energy : String) :
    s.rowLine? indexWidth energyWidth widths i energy =
      some (tableLine (padLeft indexWidth (toString i))
        (List.zipWith (fun w x => padLeft w (valueText s.vartype x)) widths r.sample ++
          [padLeft energyWidth energy,
            padLeft occurrencesHeading.length (toString r.occurrences)])) := by
  obtain ⟨hrow, _, hcount⟩ := getElem?_records.mp hr
  have hlength : r.sample.length = 0 + widths.length := by
    rw [s.samples.width _ (List.mem_of_getElem? hrow), h.width, hw, Nat.zero_add]
  have hvalues := mapM_zipIdx (f := fun w x => padLeft w (valueText s.vartype x)) hlength
  rw [SampleSet.rowLine?, hrow, Option.bind_eq_bind, Option.bind_some, hvalues, hcount]
  rfl

theorem WellFormed.tableLines? [VariableLabel V] {s : SampleSet V Float} (h : s.WellFormed)
    (total : Nat) : s.tableLines? total = some (s.tableLines total) := by
  have hindices := h.orderedRecords
  have henergies : s.sortedIndices.mapM (fun i => s.energies[i]?.map Text.real) =
      some (s.orderedRecords.map (fun p => Text.real p.2.energy)) := by
    rw [← hindices, List.mapM_map]
    refine mapM_eq_pure (fun p hp => ?_)
    have hr := record_of_mem_orderedRecords hp
    simp [(getElem?_records.mp hr).2.1]
  have hlines : ∀ indexWidth energyWidth : Nat,
      (s.orderedRecords.map (fun p => (p.1, Text.real p.2.energy))).mapM (fun p =>
        s.rowLine? indexWidth energyWidth (s.labels.map columnWidth) p.1 p.2) =
      some (s.orderedRecords.map (fun p => tableLine (padLeft indexWidth (toString p.1))
        (List.zipWith (fun w x => padLeft w (valueText s.vartype x)) (s.labels.map columnWidth)
          p.2.sample ++ [padLeft energyWidth (Text.real p.2.energy),
            padLeft occurrencesHeading.length (toString p.2.occurrences)]))) := by
    intro indexWidth energyWidth
    rw [List.mapM_map]
    exact mapM_eq_pure (fun p hp =>
      h.rowLine? (record_of_mem_orderedRecords hp) (List.length_map ..) indexWidth energyWidth _)
  rw [SampleSet.tableLines?, h.sortedIndices?]
  simp only [Option.bind_eq_bind, Option.bind_some, henergies]
  simp only [← hindices, List.zip_map', hlines, Option.bind_some, SampleSet.tableLines,
    List.map_map, Function.comp_def]
  rfl

/-- After any run of operations the parts of a set agree and its values lie in its domain. So every
row has a record, no operation goes outside the rows, columns, energies or counts, and what sets
are joined never fails for their shapes. -/
theorem reachable_in_shape [DecidableEq V] [VariableLabel V] (s : SampleSet V Float)
    (h : s.Reachable) :
    s.samples.ncols = s.labels.length ∧
      (∀ row ∈ s.samples.rows, row.length = s.labels.length) ∧
      s.energies.length = s.size ∧ s.occurrences.length = s.size ∧
      (∀ row ∈ s.samples.rows, ∀ x ∈ row, s.vartype.contains x = true) ∧
      s.records.length = s.size ∧ (s.first? = none ↔ s.size = 0) ∧
      s.lowest? = some s.lowest ∧ s.sortedIndices? = some s.sortedIndices ∧
      (∀ n order, s.truncate? n order = some (s.truncate n order)) ∧
      s.aggregate? = some s.aggregate ∧
      (∀ total, s.tableLines? total = some (s.tableLines total)) ∧
      ∀ rest, (∀ p ∈ rest, p.Reachable) → concatenate (s :: rest) ≠ .error .shape := by
  have hw := h.wellFormed
  refine ⟨hw.width, fun row hr => (s.samples.width row hr).trans hw.width, hw.energies,
    hw.occurrences, hw.domain, hw.length_records, hw.first?_eq_none, hw.lowest?, hw.sortedIndices?,
    hw.truncate?, hw.aggregate?, hw.tableLines?, fun rest hrest => ?_⟩
  apply WellFormed.concatenate_ne_shape
  intro p hp
  rcases List.mem_cons.mp hp with rfl | hp
  · exact hw
  · exact (hrest p hp).wellFormed

/-- A set with a repeated row, joined with itself flipped and then merged. -/
theorem in_shape_of_merged_flips :
    let samples : Matrix := ⟨2, [[1, -1], [-1, 1], [1, -1]], by decide⟩
    let labels : List Label := [.name "a", .number 0]
    ∃ s flipped joined : SampleSet Label Float,
      ofSamples samples labels .spin [0.5, 2, 0.5] = .ok s ∧
        s.flipVariables [.number 0, .name "a", .number 0] = .ok flipped ∧
        concatenate [s, flipped] = .ok joined ∧ joined.size = 6 ∧
        joined.aggregate.Reachable ∧ joined.aggregate.size = 4 ∧
        joined.aggregate.occurrences.length = 4 ∧ joined.aggregate.records.length = 4 ∧
        joined.aggregate.tableLines? 6 = some (joined.aggregate.tableLines 6) := by
  intro samples labels
  let s : SampleSet Label Float := ⟨labels, samples, [0.5, 2, 0.5], [1, 1, 1], .spin⟩
  let flipped := s.flipAt 0
  let joined : SampleSet Label Float := { s with
    samples := ⟨2, s.samples.rows ++ flipped.samples.rows, by decide⟩
    energies := s.energies ++ s.energies
    occurrences := s.occurrences ++ s.occurrences }
  have hs : ofSamples samples labels .spin [0.5, 2, 0.5] = .ok s := rfl
  have hflipped : s.flipVariables [.number 0, .name "a", .number 0] = .ok flipped := rfl
  have hjoined : concatenate [s, flipped] = .ok joined := rfl
  have hsets : ∀ p ∈ [s, flipped], p.Reachable := by
    intro p hp
    rcases List.mem_cons.mp hp with rfl | hp
    · exact .ofSamples hs
    · exact List.mem_singleton.mp hp ▸ .flipVariables (.ofSamples hs) hflipped
  have h : joined.aggregate.Reachable := .aggregate (.concatenate hsets hjoined)
  have hsize : joined.aggregate.size = 4 := rfl
  obtain ⟨_, _, _, hcounts, _, hrecords, _, _, _, _, _, htable, _⟩ := reachable_in_shape _ h
  exact ⟨s, flipped, joined, hs, hflipped, hjoined, rfl, h, hsize, hsize ▸ hcounts,
    hsize ▸ hrecords, htable 6⟩

end SampleSet
end BinaryQuadratic
