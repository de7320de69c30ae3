import BinaryQuadratic.Proofs.Model.Counterpart
import BinaryQuadratic.Proofs.SampleSet.Order

namespace BinaryQuadratic.SampleSet

variable {V : Type}

section
variable {R : Type} [Coefficient R]

/-- Samples of a model, with the energies that the model gives them. A model without variables has
no samples. -/
structure Faithful (m : Model V R) (s : SampleSet V R) : Prop where
  wellFormed : s.WellFormed
  labels : s.labels = m.labels
  vartype : s.vartype = m.vartype
  energies : s.energies = s.samples.rows.map m.evaluate
  noRows : m.numVariables = 0 → s.samples.rows = []

theorem Faithful.fits {m : Model V R} {s : SampleSet V R} (h : Faithful m s) {row : List Int}
    (hr : row ∈ s.samples.rows) : m.Fits row := by
  constructor
  · rw [s.samples.width row hr, h.wellFormed.width, h.labels, Model.length_labels]
  · intro x hx
    exact h.vartype ▸ h.wellFormed.domain row hr x hx

theorem Faithful.record {m : Model V R} {s : SampleSet V R} (h : Faithful m s) {r : Record R}
    (hr : r ∈ s.records) : r.sample ∈ s.samples.rows ∧ r.energy = m.evaluate r.sample := by
  obtain ⟨i, hi⟩ := List.mem_iff_getElem?.mp hr
  obtain ⟨hrow, henergy, _⟩ := getElem?_records.mp hi
  rw [h.energies, List.getElem?_map, hrow] at henergy
  exact ⟨List.mem_of_getElem? hrow, (Option.some.inj henergy).symm⟩

theorem Faithful.select {m : Model V R} {s : SampleSet V R} (h : Faithful m s)
    (indices : List Nat) : Faithful m (s.select indices) := by
  refine ⟨h.wellFormed.select indices, h.labels, h.vartype, ?_, fun hn => ?_⟩
  · change pick indices s.energies = (pick indices s.samples.rows).map m.evaluate
    rw [h.energies, pick_map]
  · change pick indices s.samples.rows = []
    rw [h.noRows hn, pick_eq_filterMap]
    simp

theorem Faithful.aggregate {m : Model V R} {s : SampleSet V R} (h : Faithful m s) :
    Faithful m s.aggregate := by
  have hs := h.select (s.groups.map (·.row))
  exact ⟨h.wellFormed.aggregate, hs.labels, hs.vartype, hs.energies, hs.noRows⟩

theorem Faithful.truncate {m : Model V R} {s : SampleSet V R} (h : Faithful m s) (n : Nat)
    (order : SortBy) : Faithful m (s.truncate n order) := by
  obtain ⟨indices, he⟩ := truncate_eq_select s n order
  exact he ▸ h.select indices

theorem Faithful.concatenate [DecidableEq V] {m : Model V R} {sets : List (SampleSet V R)}
    {s : SampleSet V R} (h : ∀ p ∈ sets, Faithful m p) (hs : concatenate sets = .ok s) :
    Faithful m s := by
  obtain ⟨hne, hsame, hrows, henergies, _⟩ := concatenate_ok hs
  obtain ⟨p, hp⟩ := List.exists_mem_of_ne_nil sets hne
  obtain ⟨hlabels, hvartype, _⟩ := hsame p hp
  refine ⟨.concatenate (fun q hq => (h q hq).wellFormed) hs, hlabels ▸ (h p hp).labels,
    hvartype ▸ (h p hp).vartype, ?_, fun hn => ?_⟩
  · rw [henergies, hrows, List.map_flatMap]
    exact List.flatMap_congr (fun q hq => (h q hq).energies)
  · rw [hrows, List.flatMap_eq_nil_iff]
    exact fun q hq => (h q hq).noRows hn

end

/-- Samples of a flipped model, flipped back, are samples of the model. -/
theorem Faithful.flipAt {m : Model V Rat} {k : Nat} {s : SampleSet V Rat}
    (h : Faithful (m.flipAt k) s) (hm : m.WellFormed) (hk : k < m.numVariables) :
    Faithful m (s.flipAt k) := by
  have hvartype : s.vartype = m.vartype := h.vartype.trans (Model.vartype_flipAt m k)
  refine ⟨h.wellFormed.flipAt k, h.labels.trans (Model.labels_flipAt m k), hvartype, ?_,
    fun hn => ?_⟩
  · change s.energies = (s.samples.rows.map (·.modify k s.vartype.flip)).map m.evaluate
    rw [h.energies, List.map_map, hvartype]
    refine List.map_congr_left (fun row hr => ?_)
    exact hm.evaluate_flipAt hk (Model.fits_flipAt.mp (h.fits hr)).1
  · omega

theorem Faithful.changeVartype {m : Model V Rat} {t : Vartype} {s : SampleSet V Rat}
    (h : Faithful (m.changeVartype t) s) (hm : m.WellFormed) :
    Faithful m (s.changeVartype m.vartype) := by
  have hvartype : s.vartype = t := h.vartype.trans (Model.vartype_changeVartype m t)
  refine ⟨h.wellFormed.changeVartype _, h.labels.trans (Model.labels_changeVartype m t), rfl, ?_,
    fun hn => ?_⟩
  · change s.energies = (s.samples.rows.map (·.map (s.vartype.convert m.vartype))).map m.evaluate
    rw [h.energies, List.map_map, hvartype]
    exact List.map_congr_left (fun row hr => hm.evaluate_changeVartype (h.fits hr))
  · change s.samples.rows.map _ = []
    rw [h.noRows ((Model.numVariables_changeVartype m t).trans hn)]
    rfl

/-- Some row has least energy among all samples of the model. -/
def HasLeast (m : Model V Rat) (s : SampleSet V Rat) : Prop :=
  ∃ row ∈ s.samples.rows, m.Least row

theorem HasLeast.size_ne_zero {m : Model V Rat} {s : SampleSet V Rat} (h : HasLeast m s) :
    s.size ≠ 0 := by
  obtain ⟨row, hmem, _⟩ := h
  exact fun hsize => List.not_mem_nil (List.length_eq_zero_iff.mp hsize ▸ hmem)

/-- A record whose energy is no larger than that of any row, in a set that has a least row. -/
theorem HasLeast.least {m : Model V Rat} {s t : SampleSet V Rat} (h : HasLeast m s)
    (hs : Faithful m s) (ht : Faithful m t) {r : Record Rat} (hr : r ∈ t.records)
    (hle : ∀ r' ∈ s.records, Coefficient.le r.energy r'.energy = true) : m.Least r.sample := by
  obtain ⟨hrow, henergy⟩ := ht.record hr
  obtain ⟨row, hmem, _, hleast⟩ := h
  obtain ⟨r', hr', rfl⟩ : ∃ r' ∈ s.records, r'.sample = row := hs.wellFormed.exists_record hmem
  refine ⟨ht.fits hrow, fun y hy => ?_⟩
  calc m.evaluate r.sample = r.energy := henergy.symm
    _ ≤ r'.energy := Coefficient.le_rat.mp (hle r' hr')
    _ = m.evaluate r'.sample := (hs.record hr').2
    _ ≤ m.evaluate y := hleast y hy

theorem HasLeast.truncate {m : Model V Rat} {s : SampleSet V Rat} (h : HasLeast m s)
    (hs : Faithful m s) {n : Nat} (hn : n ≠ 0) : HasLeast m (s.truncate n .energy) := by
  obtain ⟨r, hr, hle⟩ := hs.wellFormed.truncate_keeps_least h.size_ne_zero hn
  have ht := hs.truncate n .energy
  exact ⟨r.sample, (ht.record hr).1, h.least hs ht hr hle⟩

theorem HasLeast.aggregate {m : Model V Rat} {s : SampleSet V Rat} (h : HasLeast m s)
    (hs : s.WellFormed) : HasLeast m s.aggregate := by
  obtain ⟨row, hmem, hleast⟩ := h
  exact ⟨row, (hs.mem_rows_aggregate).mpr hmem, hleast⟩

theorem HasLeast.concatenate [DecidableEq V] {m : Model V Rat} {sets : List (SampleSet V Rat)}
    {s : SampleSet V Rat} (h : ∀ p ∈ sets, HasLeast m p) (hs : concatenate sets = .ok s) :
    HasLeast m s := by
  obtain ⟨hne, _, hrows, _⟩ := concatenate_ok hs
  obtain ⟨p, hp⟩ := List.exists_mem_of_ne_nil sets hne
  obtain ⟨row, hmem, hleast⟩ := h p hp
  exact ⟨row, hrows ▸ List.mem_flatMap.mpr ⟨p, hp, hmem⟩, hleast⟩

theorem HasLeast.flipAt {m : Model V Rat} {k : Nat} {s : SampleSet V Rat}
    (h : HasLeast (m.flipAt k) s) (hs : s.vartype = m.vartype) (hm : m.WellFormed)
    (hk : k < m.numVariables) : HasLeast m (s.flipAt k) := by
  obtain ⟨row, hmem, hleast⟩ := h
  refine ⟨row.modify k m.vartype.flip, ?_, hm.least_modify hk hleast⟩
  change _ ∈ s.samples.rows.map (·.modify k s.vartype.flip)
  rw [hs]
  exact List.mem_map.mpr ⟨row, hmem, rfl⟩

theorem HasLeast.changeVartype {m : Model V Rat} {t : Vartype} {s : SampleSet V Rat}
    (h : HasLeast (m.changeVartype t) s) (hs : s.vartype = t) (hm : m.WellFormed) :
    HasLeast m (s.changeVartype m.vartype) := by
  obtain ⟨row, hmem, hleast⟩ := h
  refine ⟨row.map (t.convert m.vartype), ?_, hm.least_convert hleast⟩
  change _ ∈ s.samples.rows.map (·.map (s.vartype.convert m.vartype))
  rw [hs]
  exact List.mem_map.mpr ⟨row, hmem, rfl⟩

end BinaryQuadratic.SampleSet
