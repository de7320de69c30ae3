import BinaryQuadratic.Proofs.Model.WellFormed
import BinaryQuadratic.Proofs.Vartype
import BinaryQuadratic.SampleSet.Combine
import BinaryQuadratic.SampleSet.Order

namespace BinaryQuadratic

namespace SampleSet

variable {V R : Type}

/-- The parts agree in size, whatever the values are. -/
structure Aligned (s : SampleSet V R) : Prop where
  columns : s.samples.ncols = s.labels.length
  energies : s.energies.length = s.size
  occurrences : s.occurrences.length = s.size

/-- All parts agree in size, and every value is one of the domain. -/
structure WellFormed (s : SampleSet V R) : Prop where
  width : s.samples.ncols = s.labels.length
  energies : s.energies.length = s.size
  occurrences : s.occurrences.length = s.size
  domain : ∀ row ∈ s.samples.rows, ∀ x ∈ row, s.vartype.contains x = true

/-- A record has its parts from one row. -/
theorem getElem?_records {s : SampleSet V R} {i : Nat} {r : Record R} :
    s.records[i]? = some r ↔ s.samples.rows[i]? = some r.sample ∧
      s.energies[i]? = some r.energy ∧ s.occurrences[i]? = some r.occurrences := by
  simp only [records, List.getElem?_map, Option.map_eq_some_iff, List.getElem?_zip_eq_some]
  constructor
  · rintro ⟨p, ⟨hs, he, ho⟩, rfl⟩
    exact ⟨hs, he, ho⟩
  · rintro ⟨hs, he, ho⟩
    exact ⟨(r.sample, r.energy, r.occurrences), ⟨hs, he, ho⟩, rfl⟩

theorem Aligned.length_records {s : SampleSet V R} (h : s.Aligned) :
    s.records.length = s.size := by
  simp only [records, List.length_map, List.length_zip, h.energies, h.occurrences]
  simp [size, Matrix.nrows]

theorem WellFormed.aligned {s : SampleSet V R} (h : s.WellFormed) : s.Aligned :=
  ⟨h.width, h.energies, h.occurrences⟩

theorem WellFormed.length_records {s : SampleSet V R} (h : s.WellFormed) :
    s.records.length = s.size :=
  h.aligned.length_records

theorem WellFormed.exists_record {s : SampleSet V R} (h : s.WellFormed) {row : List Int}
    (hr : row ∈ s.samples.rows) : ∃ r ∈ s.records, r.sample = row := by
  obtain ⟨i, hi⟩ := List.mem_iff_getElem?.mp hr
  have hlt : i < s.size := (List.getElem?_eq_some_iff.mp hi).1
  obtain ⟨r, hrecord⟩ : ∃ r, s.records[i]? = some r :=
    ⟨_, List.getElem?_eq_getElem (h.length_records ▸ hlt)⟩
  refine ⟨r, List.mem_of_getElem? hrecord, ?_⟩
  exact Option.some.inj ((getElem?_records.mp hrecord).1.symm.trans hi)

/-- Nothing but the labels, the domain and the records is in a set. -/
theorem WellFormed.unzip_records {s : SampleSet V R} (h : s.WellFormed) :
    s.records.map (·.sample) = s.samples.rows ∧ s.records.map (·.energy) = s.energies ∧
      s.records.map (·.occurrences) = s.occurrences := by
  have hparts : (s.energies.zip s.occurrences).length = s.samples.rows.length := by
    simp [h.energies, h.occurrences, size, Matrix.nrows]
  have htail : s.records.map (fun r => (r.energy, r.occurrences)) =
      s.energies.zip s.occurrences := by
    rw [records, List.map_map]
    exact List.map_snd_zip hparts.le
  refine ⟨?_, ?_, ?_⟩
  · rw [records, List.map_map]
    exact List.map_fst_zip hparts.ge
  · have henergies := congrArg (List.map Prod.fst) htail
    rwa [List.map_map, List.map_fst_zip (h.energies.trans h.occurrences.symm).le] at henergies
  · have hoccurrences := congrArg (List.map Prod.snd) htail
    rwa [List.map_map, List.map_snd_zip (h.occurrences.trans h.energies.symm).le] at hoccurrences

theorem WellFormed.ext_records {s s' : SampleSet V R} (h : s.WellFormed) (h' : s'.WellFormed)
    (hlabels : s.labels = s'.labels) (hvartype : s.vartype = s'.vartype)
    (hrecords : s.records = s'.records) : s = s' := by
  obtain ⟨hrows, henergies, hoccurrences⟩ := h.unzip_records
  obtain ⟨hrows', henergies', hoccurrences'⟩ := h'.unzip_records
  rw [hrecords, hrows'] at hrows
  rw [hrecords, henergies'] at henergies
  rw [hrecords, hoccurrences'] at hoccurrences
  have hncols : s.samples.ncols = s'.samples.ncols := by rw [h.width, h'.width, hlabels]
  have hsamples := Matrix.ext_rows hncols hrows.symm
  cases s
  cases s'
  simp_all

theorem wellFormed_empty (t : Vartype) : (empty t : SampleSet V R).WellFormed :=
  ⟨rfl, rfl, rfl, by simp [empty, Matrix.empty]⟩

/-- The checks of a new set, all of which have to pass. -/
theorem ofSamples_ok {samples : Matrix} {labels : List V} {t : Vartype} {energies : List R}
    {s : SampleSet V R} : ofSamples samples labels t energies = .ok s ↔
      samples.ncols = labels.length ∧ energies.length = samples.nrows ∧
        (∀ row ∈ samples.rows, ∀ x ∈ row, t.contains x = true) ∧
        s = ⟨labels, samples, energies, List.replicate samples.nrows 1, t⟩ := by
  unfold ofSamples
  by_cases hwidth : samples.ncols = labels.length
  · by_cases henergies : energies.length = samples.nrows
    · cases hfind : samples.values.find? (fun x => !t.contains x) with
      | none =>
        have hdomain : ∀ row ∈ samples.rows, ∀ x ∈ row, t.contains x = true := by
          intro row hr x hx
          simpa using List.find?_eq_none.mp hfind x (List.mem_flatten.mpr ⟨row, hr, hx⟩)
        simp only [hwidth, henergies, ne_eq, not_true, ↓reduceIte, Except.ok.injEq, true_and]
        exact ⟨fun hs => ⟨hdomain, hs.symm⟩, fun hs => hs.2.symm⟩
      | some x =>
        obtain ⟨row, hr, hx⟩ := List.mem_flatten.mp (List.mem_of_find?_eq_some hfind)
        have hout : t.contains x = false := by simpa using List.find?_some hfind
        simp only [hwidth, henergies, ne_eq, not_true, ↓reduceIte, reduceCtorEq, true_and,
          false_iff, not_and]
        intro hdomain
        simp [hdomain row hr x hx] at hout
    · simp [hwidth, henergies]
  · simp [hwidth]

theorem wellFormed_ofSamples {samples : Matrix} {labels : List V} {t : Vartype} {energies : List R}
    {s : SampleSet V R} (h : ofSamples samples labels t energies = .ok s) : s.WellFormed := by
  obtain ⟨hwidth, henergies, hdomain, rfl⟩ := ofSamples_ok.mp h
  exact ⟨hwidth, henergies, List.length_replicate, hdomain⟩

/-- Any choice of rows, with repetitions and in any order, and positions outside chosen in vain. -/
theorem WellFormed.select {s : SampleSet V R} (h : s.WellFormed) (indices : List Nat) :
    (s.select indices).WellFormed := by
  refine ⟨h.width, ?_, ?_, fun row hr => h.domain row (mem_of_mem_pick hr)⟩
  · simp only [SampleSet.select, size, Matrix.select, Matrix.nrows, length_pick, h.energies]
  · simp only [SampleSet.select, size, Matrix.select, Matrix.nrows, length_pick, h.occurrences]

theorem WellFormed.records_select {s : SampleSet V R} (h : s.WellFormed) (indices : List Nat) :
    (s.select indices).records = pick indices s.records := by
  have hrows : s.samples.rows.length = (s.energies.zip s.occurrences).length := by
    simp [h.energies, h.occurrences, size, Matrix.nrows]
  rw [records, records, pick_map, pick_zip hrows, pick_zip (h.energies.trans h.occurrences.symm)]
  rfl

theorem truncate_eq_select [Coefficient R] (s : SampleSet V R) (n : Nat) (order : SortBy) :
    ∃ indices, s.truncate n order = s.select indices := by
  cases order with
  | energy => exact ⟨_, rfl⟩
  | unsorted => exact ⟨_, rfl⟩

/-- A group is new only if no other has its values. -/
theorem mem_count {g : Group} {sample : List Int} {row n : Nat} {gs : List Group}
    (h : g ∈ Group.count sample row n gs) :
    (sample ∉ gs.map (·.sample) ∧ g.sample = sample ∧ g.row = row) ∨
      ∃ g' ∈ gs, g.sample = g'.sample ∧ g.row = g'.row := by
  induction gs with
  | nil =>
    simp only [Group.count, List.mem_singleton] at h
    simp [h]
  | cons g₀ gs ih =>
    simp only [Group.count] at h
    split at h
    · rcases List.mem_cons.mp h with rfl | h
      · exact .inr ⟨g₀, by simp, rfl, rfl⟩
      · exact .inr ⟨g, by simp [h], rfl, rfl⟩
    · rename_i hne
      have hne : sample ≠ g₀.sample := fun he => hne (by simp [he])
      rcases List.mem_cons.mp h with rfl | h
      · exact .inr ⟨g, by simp, rfl, rfl⟩
      · rcases ih h with ⟨hnew, hg⟩ | ⟨g', hg', he⟩
        · exact .inl ⟨by simpa [hne] using hnew, hg⟩
        · exact .inr ⟨g', by simp [hg'], he⟩

theorem samples_count (sample : List Int) (row n : Nat) (gs : List Group) :
    (Group.count sample row n gs).map (·.sample) = appendNew sample (gs.map (·.sample)) := by
  unfold appendNew
  induction gs with
  | nil => simp [Group.count]
  | cons g gs ih =>
    by_cases hg : g.sample = sample
    · simp [Group.count, hg]
    · have hs : sample ≠ g.sample := fun h => hg h.symm
      simp only [Group.count, beq_iff_eq, hg, ↓reduceIte, List.map_cons, ih, List.mem_cons, hs,
        false_or]
      split <;> simp

/-- The groups of some records; those of a set are the groups of its own. -/
def groupsOf (rs : List (Record R)) : List Group :=
  rs.zipIdx.foldl (fun gs (r, i) => Group.count r.sample i r.occurrences gs) []

theorem groupsOf_concat (rs : List (Record R)) (r : Record R) :
    groupsOf (rs ++ [r]) = Group.count r.sample rs.length r.occurrences (groupsOf rs) := by
  simp [groupsOf, List.zipIdx_append]

/-- Groups stand in the order of their first rows. -/
theorem samples_groupsOf (rs : List (Record R)) :
    (groupsOf rs).map (·.sample) = (rs.map (·.sample)).eraseDups := by
  induction rs using List.reverseRecOn with
  | nil => simp [groupsOf]
  | append_singleton rs r ih =>
    rw [groupsOf_concat, samples_count, ih, List.map_append, List.map_singleton, eraseDups_concat]

/-- A group has the position of the first row with its values. -/
theorem find?_of_group {rs : List (Record R)} {g : Group} (hg : g ∈ groupsOf rs) :
    ∃ r, rs.find? (·.sample = g.sample) = some r ∧ rs[g.row]? = some r := by
  -- Groups are counted from the left, so the row counted last is split off.
  induction rs using List.reverseRecOn generalizing g with
  | nil => cases hg
  | append_singleton rs r ih =>
    rw [groupsOf_concat] at hg
    rcases mem_count hg with ⟨hnew, hs, hi⟩ | ⟨g', hg', hs, hi⟩
    · rw [samples_groupsOf, List.mem_eraseDups] at hnew
      have hnone : rs.find? (·.sample = r.sample) = none := by
        simpa using fun r' hr' he => hnew (List.mem_map.mpr ⟨r', hr', he⟩)
      exact ⟨r, by simp [hs, hnone], by simp [hi]⟩
    · obtain ⟨r', hfind, hr'⟩ := ih hg'
      obtain ⟨hlt, _⟩ := List.getElem?_eq_some_iff.mp hr'
      rw [hs, hi]
      exact ⟨r', by simp [hfind], (List.getElem?_append_left hlt).trans hr'⟩

/-- A group stands at a row of the set that has its values. -/
theorem row_of_group {s : SampleSet V R} {g : Group} (hg : g ∈ s.groups) :
    ∃ r, s.records[g.row]? = some r ∧ r.sample = g.sample := by
  obtain ⟨r, hfind, hr⟩ := find?_of_group hg
  exact ⟨r, hr, by simpa using List.find?_some hfind⟩

/-- No row is lost: each finds a group with its values. -/
theorem group_of_record {s : SampleSet V R} {r : Record R} (hr : r ∈ s.records) :
    ∃ g ∈ s.groups, g.sample = r.sample := by
  have hmem : r.sample ∈ (groupsOf s.records).map (·.sample) := by
    rw [samples_groupsOf, List.mem_eraseDups]
    exact List.mem_map_of_mem hr
  exact List.mem_map.mp hmem

theorem length_rows_of_groups (s : SampleSet V R) :
    ((s.groups.map (·.row)).filter (· < s.samples.rows.length)).length = s.groups.length := by
  rw [List.filter_eq_self.mpr, List.length_map]
  intro i hi
  obtain ⟨g, hg, rfl⟩ := List.mem_map.mp hi
  obtain ⟨r, hr, _⟩ := row_of_group hg
  simpa using (List.getElem?_eq_some_iff.mp (getElem?_records.mp hr).1).1

/-- Merging replaces the counts of some rows, one count for each of them. -/
theorem WellFormed.aggregate {s : SampleSet V R} (h : s.WellFormed) : s.aggregate.WellFormed := by
  have hs := h.select (s.groups.map (·.row))
  refine ⟨hs.width, hs.energies, ?_, hs.domain⟩
  change (s.groups.map (·.occurrences)).length = (pick (s.groups.map (·.row)) s.samples.rows).length
  rw [length_pick, length_rows_of_groups, List.length_map]

/-- Merging loses no row and makes up none. -/
theorem WellFormed.mem_rows_aggregate {s : SampleSet V R} (h : s.WellFormed) {row : List Int} :
    row ∈ s.aggregate.samples.rows ↔ row ∈ s.samples.rows := by
  constructor
  · exact fun hr => mem_of_mem_pick hr
  · intro hr
    obtain ⟨r, hrecord, rfl⟩ := h.exists_record hr
    obtain ⟨g, hg, he⟩ := group_of_record hrecord
    obtain ⟨r', hr', hs⟩ := row_of_group hg
    exact mem_pick (List.mem_map.mpr ⟨g, hg, rfl⟩) (he ▸ hs ▸ (getElem?_records.mp hr').1)

theorem WellFormed.truncate [Coefficient R] {s : SampleSet V R} (h : s.WellFormed) (n : Nat)
    (order : SortBy) : (s.truncate n order).WellFormed := by
  obtain ⟨indices, he⟩ := truncate_eq_select s n order
  exact he ▸ h.select indices

theorem WellFormed.changeVartype {s : SampleSet V R} (h : s.WellFormed) (t : Vartype) :
    (s.changeVartype t).WellFormed := by
  refine ⟨h.width, ?_, ?_, ?_⟩
  · simpa [SampleSet.changeVartype, size, Matrix.map, Matrix.nrows] using h.energies
  · simpa [SampleSet.changeVartype, size, Matrix.map, Matrix.nrows] using h.occurrences
  · intro row hr x hx
    obtain ⟨r, hrow, rfl⟩ := List.mem_map.mp hr
    exact Vartype.contains_map (h.domain r hrow) t x hx

/-- The set with one column flipped. -/
def flipAt (s : SampleSet V R) (k : Nat) : SampleSet V R :=
  { s with samples := s.samples.mapColumn k s.vartype.flip }

theorem flipAt_comm (s : SampleSet V R) (j k : Nat) :
    (s.flipAt j).flipAt k = (s.flipAt k).flipAt j := by
  simp only [flipAt, Matrix.mapColumn, List.map_map, Function.comp_def,
    modify_comm _ j k s.vartype.flip]

theorem WellFormed.flipAt {s : SampleSet V R} (h : s.WellFormed) (k : Nat) :
    (s.flipAt k).WellFormed := by
  refine ⟨h.width, ?_, ?_, ?_⟩
  · simpa [SampleSet.flipAt, size, Matrix.mapColumn, Matrix.nrows] using h.energies
  · simpa [SampleSet.flipAt, size, Matrix.mapColumn, Matrix.nrows] using h.occurrences
  · intro row hr x hx
    obtain ⟨r, hrow, rfl⟩ := List.mem_map.mp hr
    exact Vartype.contains_modify (h.domain r hrow) k x hx

theorem length_flatMap_eq {f : SampleSet V R → List α} {g : SampleSet V R → List β}
    {sets : List (SampleSet V R)} (h : ∀ p ∈ sets, (f p).length = (g p).length) :
    (sets.flatMap f).length = (sets.flatMap g).length := by
  simp only [List.length_flatMap]
  rw [List.map_congr_left h]

section
variable [DecidableEq V]

theorem flipVariable_ok {s s' : SampleSet V R} {v : V} :
    s.flipVariable v = .ok s' ↔
      ∃ k, s.labels.findIdx? (· = v) = some k ∧ s' = s.flipAt k := by
  unfold flipVariable
  cases s.labels.findIdx? (· = v) with
  | none => simp
  | some k => simp [flipAt, eq_comm]

/-- A flip that comes first may as well come last. -/
theorem flipVariables_swap {s s' : SampleSet V R} {v : V} {vs : List V}
    (h : s.flipVariables (v :: vs) = .ok s') :
    ∃ s₁, s.flipVariables vs = .ok s₁ ∧ s₁.flipVariable v = .ok s' := by
  obtain ⟨s₀, hv, hvs⟩ := foldlM_cons_ok.mp h
  obtain ⟨k, hk, rfl⟩ := flipVariable_ok.mp hv
  clear h hv
  induction vs generalizing s with
  | nil =>
    cases hvs
    exact ⟨s, rfl, flipVariable_ok.mpr ⟨k, hk, rfl⟩⟩
  | cons w vs ih =>
    obtain ⟨s₁, hw, hvs⟩ := foldlM_cons_ok.mp hvs
    obtain ⟨j, hj, rfl⟩ := flipVariable_ok.mp hw
    rw [flipAt_comm] at hvs
    obtain ⟨s₂, hs₂, he⟩ := ih (s := s.flipAt j) hk hvs
    exact ⟨s₂, foldlM_cons_ok.mpr ⟨_, flipVariable_ok.mpr ⟨j, hj, rfl⟩, hs₂⟩, he⟩

theorem checkJoins_ok {s s' : SampleSet V R} :
    s.checkJoins s' = .ok () ↔ s'.labels = s.labels ∧ s'.vartype = s.vartype := by
  unfold checkJoins
  by_cases hlabels : s'.labels = s.labels
  · by_cases hvartype : s'.vartype = s.vartype <;> simp [hlabels, hvartype]
  · simp [hlabels]

/-- A joined set has the labels and the domain of every part, and the rows of all. -/
theorem concatenate_ok {sets : List (SampleSet V R)} {s : SampleSet V R}
    (h : concatenate sets = .ok s) :
    sets ≠ [] ∧ (∀ p ∈ sets, p.labels = s.labels ∧ p.vartype = s.vartype ∧
      p.samples.ncols = s.samples.ncols) ∧ s.samples.rows = sets.flatMap (·.samples.rows) ∧
      s.energies = sets.flatMap (·.energies) ∧ s.occurrences = sets.flatMap (·.occurrences) := by
  cases sets with
  | nil => cases h
  | cons s₀ rest =>
    obtain ⟨_, hjoins, h⟩ := bind_ok.mp h
    dsimp only at h
    split at h
    · cases h
    · rename_i samples hconcat
      cases h
      unfold Matrix.concat? at hconcat
      split at hconcat
      · rename_i hwidth
        cases hconcat
        refine ⟨by simp, ?_, by simp [List.flatMap_map], rfl, rfl⟩
        intro p hp
        have hncols : p.samples.ncols = s₀.samples.ncols :=
          hwidth p.samples (List.mem_map.mpr ⟨p, hp, rfl⟩)
        rcases List.mem_cons.mp hp with rfl | hp
        · exact ⟨rfl, rfl, rfl⟩
        · obtain ⟨hlabels, hvartype⟩ := checkJoins_ok.mp (forM_ok.mp hjoins p hp)
          exact ⟨hlabels, hvartype, hncols⟩
      · cases hconcat

theorem WellFormed.concatenate {sets : List (SampleSet V R)} {s : SampleSet V R}
    (h : ∀ p ∈ sets, p.WellFormed) (hs : concatenate sets = .ok s) : s.WellFormed := by
  obtain ⟨hne, hsame, hrows, henergies, hoccurrences⟩ := concatenate_ok hs
  obtain ⟨p, hp⟩ := List.exists_mem_of_ne_nil sets hne
  obtain ⟨hlabels, _, hncols⟩ := hsame p hp
  refine ⟨hncols ▸ hlabels ▸ (h p hp).width, ?_, ?_, ?_⟩
  · rw [size, Matrix.nrows, henergies, hrows]
    exact length_flatMap_eq (fun q hq => (h q hq).energies)
  · rw [size, Matrix.nrows, hoccurrences, hrows]
    exact length_flatMap_eq (fun q hq => (h q hq).occurrences)
  · intro row hr
    rw [hrows] at hr
    obtain ⟨q, hq, hr⟩ := List.mem_flatMap.mp hr
    exact (hsame q hq).2.1 ▸ (h q hq).domain row hr

/-- Flipping columns that are there succeeds, in whatever order and however often. -/
theorem WellFormed.flips {s : SampleSet V R} (h : s.WellFormed) {vs : List V}
    (hvs : ∀ v ∈ vs, v ∈ s.labels) : ∃ s', s.flipVariables vs = .ok s' ∧
      s'.WellFormed ∧ s'.labels = s.labels ∧ s'.vartype = s.vartype := by
  refine foldlM_succeeds (P := fun s' : SampleSet V R =>
    s'.WellFormed ∧ s'.labels = s.labels ∧ s'.vartype = s.vartype) ?_ ⟨h, rfl, rfl⟩
  rintro s₁ v hv ⟨hs₁, hlabels, hvartype⟩
  have hsome : (s₁.labels.findIdx? (· = v)).isSome = true := by
    simpa [hlabels] using hvs v hv
  obtain ⟨k, hk⟩ := Option.isSome_iff_exists.mp hsome
  exact ⟨s₁.flipAt k, flipVariable_ok.mpr ⟨k, hk, rfl⟩, hs₁.flipAt k, hlabels, hvartype⟩

/-- Sets over the same columns and domain, of which there is at least one, can be joined. -/
theorem concatenate_of_same {sets : List (SampleSet V R)} (hne : sets ≠ []) {labels : List V}
    {t : Vartype} {width : Nat}
    (h : ∀ p ∈ sets, p.labels = labels ∧ p.vartype = t ∧ p.samples.ncols = width) :
    ∃ s, SampleSet.concatenate sets = .ok s := by
  cases sets with
  | nil => exact absurd rfl hne
  | cons s rest =>
    obtain ⟨hlabels, hvartype, hwidth⟩ := h s (by simp)
    have hjoins : rest.forM s.checkJoins = .ok () := by
      refine forM_ok.mpr (fun p hp => checkJoins_ok.mpr ?_)
      obtain ⟨hl, hv, _⟩ := h p (by simp [hp])
      exact ⟨hl.trans hlabels.symm, hv.trans hvartype.symm⟩
    have hwidths : ∀ a ∈ (s :: rest).map (·.samples), a.ncols = s.samples.ncols := by
      intro a ha
      obtain ⟨p, hp, rfl⟩ := List.mem_map.mp ha
      exact (h p hp).2.2.trans hwidth.symm
    simp only [SampleSet.concatenate, hjoins, Matrix.concat?, dif_pos hwidths]
    exact ⟨_, rfl⟩

/-- A well-formed set has as many columns as labels. -/
theorem WellFormed.joins {sets : List (SampleSet V R)} (hne : sets ≠ []) {labels : List V}
    {t : Vartype} (h : ∀ p ∈ sets, p.WellFormed ∧ p.labels = labels ∧ p.vartype = t) :
    ∃ s, SampleSet.concatenate sets = .ok s := by
  have hsame : ∀ p ∈ sets,
      p.labels = labels ∧ p.vartype = t ∧ p.samples.ncols = labels.length := by
    intro p hp
    obtain ⟨hp, hlabels, hvartype⟩ := h p hp
    exact ⟨hlabels, hvartype, hlabels ▸ hp.width⟩
  exact concatenate_of_same hne hsame

end
end SampleSet
end BinaryQuadratic
