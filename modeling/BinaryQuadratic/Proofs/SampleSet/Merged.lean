import BinaryQuadratic.Proofs.SampleSet.Aggregate
import BinaryQuadratic.Proofs.SampleSet.Joined

namespace BinaryQuadratic

section
variable [BEq K] [LawfulBEq K] [DecidableEq K]

/-- Repetitions within a part make no difference to the whole. -/
theorem eraseDups_append_eraseDups (ks new : List K) :
    (ks ++ new.eraseDups).eraseDups = (ks ++ new).eraseDups := by
  -- Whether a key is dropped depends on the keys before it, so the last key is split off.
  induction new using List.reverseRecOn with
  | nil => simp
  | append_singleton new k ih =>
    rw [eraseDups_concat, ← List.append_assoc, eraseDups_concat]
    by_cases hk : k ∈ new
    · simp [appendNew, hk, ih]
    · rw [appendNew, if_neg (by simpa using hk), ← List.append_assoc, eraseDups_concat, ih]

theorem eraseDups_eraseDups (ks : List K) : ks.eraseDups.eraseDups = ks.eraseDups :=
  eraseDups_append_eraseDups [] ks

theorem eraseDups_append_congr {ks ks' new new' : List K} (h : ks.eraseDups = ks'.eraseDups)
    (hnew : new.eraseDups = new'.eraseDups) : (ks ++ new).eraseDups = (ks' ++ new').eraseDups := by
  rw [← eraseDups_append_eraseDups, hnew, eraseDups_append_eraseDups, eraseDups_append_eq_foldl, h,
    ← eraseDups_append_eq_foldl]

theorem eraseDups_flatMap_congr {f g : α → List K} {as : List α}
    (h : ∀ a ∈ as, (f a).eraseDups = (g a).eraseDups) :
    (as.flatMap f).eraseDups = (as.flatMap g).eraseDups := by
  induction as with
  | nil => rfl
  | cons a as ih =>
    obtain ⟨ha, has⟩ := List.forall_mem_cons.mp h
    exact eraseDups_append_congr ha (ih has)

end

/-- Among values that are made from distinct keys, only one can have the key that is looked for. -/
theorem filter_filterMap_key [DecidableEq K] {key : α → K} {f : K → Option α}
    (hf : ∀ k a, f k = some a → key a = k) {ks : List K} (h : ks.Nodup) (k : K) :
    (ks.filterMap f).filter (key · = k) = if k ∈ ks then (f k).toList else [] := by
  induction ks with
  | nil => simp
  | cons k' ks ih =>
    obtain ⟨hnew, hks⟩ := List.nodup_cons.mp h
    have hrest := ih hks
    cases hk : f k' with
    | none =>
      rw [List.filterMap_cons_none hk, hrest]
      by_cases he : k = k'
      · subst he
        simp [hk, hnew]
      · simp [he]
    | some a =>
      rw [List.filterMap_cons_some hk, List.filter_cons, hrest, hf k' a hk]
      by_cases he : k = k'
      · subst he
        simp [hk, hnew]
      · have he' : k' ≠ k := fun h => he h.symm
        simp [he, he']

namespace SampleSet

variable {V R : Type}

/-- The energy of the first row that holds a sample. -/
def energyOf? (s : SampleSet V R) (x : List Int) : Option R :=
  (s.records.find? (·.sample = x)).map (·.energy)

/-- Each sample once, where it stands first, with the energy of that row and the counts of all. -/
def merged (s : SampleSet V R) : List (Record R) :=
  s.samples.rows.eraseDups.filterMap (fun x => (s.energyOf? x).map (⟨x, ·, s.tally x⟩))

theorem WellFormed.records_aggregate {s : SampleSet V R} (h : s.WellFormed) :
    s.aggregate.records = s.merged := by
  obtain ⟨hrows, henergies, hoccurrences⟩ := h.unzip_records
  have hgroups : s.groups.map (·.sample) = s.samples.rows.eraseDups :=
    hrows ▸ samples_groupsOf s.records
  have hrecord : ∀ g ∈ s.groups,
      ∃ e, s.energies[g.row]? = some e ∧ s.energyOf? g.sample = some e := by
    intro g hg
    obtain ⟨r, hfind, hr⟩ := find?_of_group hg
    refine ⟨r.energy, (getElem?_records.mp hr).2.1, ?_⟩
    rw [energyOf?, hfind]
    rfl
  rw [merged, ← hgroups, List.filterMap_map]
  apply records_of_parts
  · rw [rows_aggregate, List.map_filterMap, ← List.filterMap_eq_map]
    refine List.filterMap_congr (fun g hg => ?_)
    obtain ⟨e, _, he⟩ := hrecord g hg
    simp [he]
  · change pick (s.groups.map (·.row)) s.energies = _
    rw [pick_eq_filterMap, List.filterMap_map, List.map_filterMap]
    refine List.filterMap_congr (fun g hg => ?_)
    obtain ⟨e, hrow, he⟩ := hrecord g hg
    simp [he, hrow]
  · change s.groups.map (·.occurrences) = _
    rw [List.map_filterMap, ← List.filterMap_eq_map]
    refine List.filterMap_congr (fun g hg => ?_)
    obtain ⟨e, _, he⟩ := hrecord g hg
    simp [he, occurrences_of_group hg]

theorem WellFormed.rows_aggregate {s : SampleSet V R} (h : s.WellFormed) :
    s.aggregate.samples.rows = s.samples.rows.eraseDups := by
  rw [SampleSet.rows_aggregate, ← h.unzip_records.1]
  exact samples_groupsOf s.records

/-- A sample that stands in no row has no energy and no counts. -/
theorem WellFormed.energyOf?_eq_none {s : SampleSet V R} (h : s.WellFormed) {x : List Int} :
    s.energyOf? x = none ↔ x ∉ s.samples.rows := by
  rw [← h.unzip_records.1]
  simp [energyOf?]

theorem WellFormed.tally_of_not_mem {s : SampleSet V R} (h : s.WellFormed) {x : List Int}
    (hx : x ∉ s.samples.rows) : s.tally x = 0 := by
  have hnone : s.records.filter (·.sample = x) = [] := by
    refine List.filter_eq_nil_iff.mpr (fun r hr => ?_)
    rw [← h.unzip_records.1] at hx
    simpa using fun he => hx (List.mem_map.mpr ⟨r, hr, he⟩)
  rw [tally, hnone]
  rfl

/-- At most one row of a merged set holds a sample. -/
theorem WellFormed.filter_aggregate {s : SampleSet V R} (h : s.WellFormed) (x : List Int) :
    s.aggregate.records.filter (·.sample = x) =
      ((s.energyOf? x).map (⟨x, ·, s.tally x⟩)).toList := by
  have hkey : ∀ (y : List Int) (r : Record R),
      (s.energyOf? y).map (⟨y, ·, s.tally y⟩) = some r → r.sample = y := by
    intro y r hr
    obtain ⟨e, _, rfl⟩ := Option.map_eq_some_iff.mp hr
    rfl
  rw [h.records_aggregate, merged, filter_filterMap_key hkey (nodup_eraseDups _)]
  split
  · rfl
  · rename_i hx
    have hnone := h.energyOf?_eq_none.mpr (by simpa using hx)
    simp [hnone]

theorem WellFormed.energyOf?_aggregate {s : SampleSet V R} (h : s.WellFormed) (x : List Int) :
    s.aggregate.energyOf? x = s.energyOf? x := by
  rw [energyOf?, ← List.head?_filter, h.filter_aggregate]
  cases s.energyOf? x <;> rfl

theorem WellFormed.tally_aggregate {s : SampleSet V R} (h : s.WellFormed) (x : List Int) :
    s.aggregate.tally x = s.tally x := by
  rw [tally, h.filter_aggregate]
  cases hx : s.energyOf? x with
  | none => exact (h.tally_of_not_mem (h.energyOf?_eq_none.mp hx)).symm
  | some e => simp

/-- What merging goes by: the samples in the order of their first rows, the energies of these rows
and the counts of all. -/
structure Alike (s s' : SampleSet V R) : Prop where
  labels : s.labels = s'.labels
  vartype : s.vartype = s'.vartype
  rows : s.samples.rows.eraseDups = s'.samples.rows.eraseDups
  energies : ∀ x, s.energyOf? x = s'.energyOf? x
  counts : ∀ x, s.tally x = s'.tally x

theorem WellFormed.aggregate_alike {s : SampleSet V R} (h : s.WellFormed) :
    s.aggregate.Alike s :=
  ⟨rfl, rfl, by rw [h.rows_aggregate, eraseDups_eraseDups], h.energyOf?_aggregate,
    h.tally_aggregate⟩

theorem Alike.aggregate_eq {s s' : SampleSet V R} (h : s.Alike s') (hs : s.WellFormed)
    (hs' : s'.WellFormed) : s.aggregate = s'.aggregate := by
  refine hs.aggregate.ext_records hs'.aggregate h.labels h.vartype ?_
  rw [hs.records_aggregate, hs'.records_aggregate, merged, merged, h.rows]
  simp only [h.energies, h.counts]

section
variable [DecidableEq V]

theorem energyOf?_concatenate {sets : List (SampleSet V R)} {s : SampleSet V R}
    (h : ∀ p ∈ sets, p.WellFormed) (hs : concatenate sets = .ok s) (x : List Int) :
    s.energyOf? x = sets.findSome? (·.energyOf? x) := by
  rw [energyOf?, records_concatenate h hs, List.find?_flatMap, List.map_findSome?]
  rfl

theorem tally_concatenate {sets : List (SampleSet V R)} {s : SampleSet V R}
    (h : ∀ p ∈ sets, p.WellFormed) (hs : concatenate sets = .ok s) (x : List Int) :
    s.tally x = (sets.map (·.tally x)).sum := by
  rw [tally, records_concatenate h hs, List.filter_flatMap, List.map_flatMap, List.flatMap,
    List.sum_flatten, List.map_map]
  rfl

/-- Parts may be exchanged for parts that are alike. -/
theorem Alike.concatenate {f : SampleSet V R → SampleSet V R} {sets : List (SampleSet V R)}
    {s s' : SampleSet V R} (h : ∀ p ∈ sets, p.WellFormed ∧ (f p).WellFormed ∧ (f p).Alike p)
    (hs : SampleSet.concatenate sets = .ok s) (hs' : SampleSet.concatenate (sets.map f) = .ok s') :
    s'.Alike s := by
  have hparts : ∀ p ∈ sets, p.WellFormed := fun p hp => (h p hp).1
  have hparts' : ∀ q ∈ sets.map f, q.WellFormed :=
    List.forall_mem_map.mpr (fun p hp => (h p hp).2.1)
  have halike : ∀ p ∈ sets, (f p).Alike p := fun p hp => (h p hp).2.2
  obtain ⟨hne, hsame, hrows, _, _⟩ := concatenate_ok hs
  obtain ⟨_, hsame', hrows', _, _⟩ := concatenate_ok hs'
  obtain ⟨p, hp⟩ := List.exists_mem_of_ne_nil sets hne
  obtain ⟨hlabels, hvartype, _⟩ := hsame p hp
  obtain ⟨hlabels', hvartype', _⟩ := hsame' (f p) (List.mem_map_of_mem hp)
  refine ⟨?_, ?_, ?_, fun x => ?_, fun x => ?_⟩
  · rw [← hlabels', (halike p hp).labels, hlabels]
  · rw [← hvartype', (halike p hp).vartype, hvartype]
  · rw [hrows, hrows', List.flatMap_map]
    exact eraseDups_flatMap_congr (fun q hq => (halike q hq).rows)
  · rw [energyOf?_concatenate hparts hs, energyOf?_concatenate hparts' hs', List.findSome?_map,
      ← List.head?_filterMap, ← List.head?_filterMap]
    exact congrArg List.head? (List.filterMap_congr (fun q hq => (halike q hq).energies x))
  · rw [tally_concatenate hparts hs, tally_concatenate hparts' hs', List.map_map]
    exact congrArg List.sum (List.map_congr_left (fun q hq => (halike q hq).counts x))

end

/-- No count is lost. -/
theorem WellFormed.sum_occurrences_aggregate {s : SampleSet V R} (h : s.WellFormed) :
    s.aggregate.occurrences.sum = s.occurrences.sum := by
  have hsum : ∀ rs : List (Record R),
      ((groupsOf rs).map (·.occurrences)).sum = (rs.map (·.occurrences)).sum := by
    intro rs
    induction rs using List.reverseRecOn with
    | nil => rfl
    | append_singleton rs r ih =>
      rw [groupsOf_concat, Group.sum_count, ih, List.map_append, List.sum_append]
      simp
  rw [← h.unzip_records.2.2]
  exact hsum s.records

/-- Merging leaves each sample once, in the order of the first rows, with the energy of that row
and all its counts. Sets may therefore be merged before they are joined and merged. -/
theorem merging_before_joining [DecidableEq V] :
    (∀ sets : List (SampleSet V R), sets ≠ [] → ∀ labels t,
      (∀ p ∈ sets, p.WellFormed ∧ p.labels = labels ∧ p.vartype = t) →
      ∃ joined joinedMerged, concatenate sets = .ok joined ∧
        concatenate (sets.map aggregate) = .ok joinedMerged ∧
        joinedMerged.aggregate = joined.aggregate) ∧
    ∀ s : SampleSet V R, s.WellFormed →
      s.aggregate.labels = s.labels ∧ s.aggregate.vartype = s.vartype ∧ s.aggregate.WellFormed ∧
        s.aggregate.samples.rows.Nodup ∧ s.aggregate.samples.rows = s.samples.rows.eraseDups ∧
        s.aggregate.records = s.samples.rows.eraseDups.filterMap (fun x =>
          (s.records.find? (·.sample = x)).map (fun r => ⟨x, r.energy, s.tally x⟩)) ∧
        s.aggregate.occurrences.sum = s.occurrences.sum ∧
        s.aggregate.aggregate = s.aggregate := by
  constructor
  · intro sets hne labels t h
    have hmerged : ∀ q ∈ sets.map aggregate, q.WellFormed ∧ q.labels = labels ∧ q.vartype = t :=
      List.forall_mem_map.mpr (fun p hp => ⟨(h p hp).1.aggregate, (h p hp).2⟩)
    obtain ⟨joined, hjoined⟩ := WellFormed.joins hne h
    obtain ⟨joinedMerged, hjoinedMerged⟩ := WellFormed.joins (by simpa using hne) hmerged
    refine ⟨joined, joinedMerged, hjoined, hjoinedMerged, ?_⟩
    have halike : joinedMerged.Alike joined := .concatenate
      (fun p hp => ⟨(h p hp).1, (h p hp).1.aggregate, (h p hp).1.aggregate_alike⟩)
      hjoined hjoinedMerged
    -- alike and well-formed is all that merging needs, so the joined sets need not be compared
    exact halike.aggregate_eq (.concatenate (fun q hq => (hmerged q hq).1) hjoinedMerged)
      (.concatenate (fun p hp => (h p hp).1) hjoined)
  · intro s h
    refine ⟨rfl, rfl, h.aggregate, s.nodup_rows_aggregate, h.rows_aggregate, ?_,
      h.sum_occurrences_aggregate, h.aggregate_alike.aggregate_eq h.aggregate h⟩
    rw [h.records_aggregate, merged]
    simp only [energyOf?, Option.map_map]
    rfl

/-- Two sets that have both rows in common; the first has one of them twice. -/
theorem merging_two_sets_of_bits :
    let s : SampleSet Label Float :=
      ⟨[.name "a"], ⟨1, [[1], [0], [1]], by decide⟩, [0.5, 1, 2], [1, 2, 3], .binary⟩
    let s' : SampleSet Label Float :=
      ⟨[.name "a"], ⟨1, [[0], [1]], by decide⟩, [3, 4], [4, 5], .binary⟩
    s.aggregate = ⟨[.name "a"], ⟨1, [[1], [0]], by decide⟩, [0.5, 1], [4, 2], .binary⟩ ∧
      s.aggregate.aggregate = s.aggregate ∧
      ∃ joined joinedMerged, concatenate [s, s'] = .ok joined ∧
        concatenate [s.aggregate, s'.aggregate] = .ok joinedMerged ∧
        joinedMerged.aggregate = joined.aggregate ∧
        joined.aggregate =
          ⟨[.name "a"], ⟨1, [[1], [0]], by decide⟩, [0.5, 1], [9, 6], .binary⟩ := by
  intro s s'
  have h : ∀ p ∈ [s, s'], p.WellFormed ∧ p.labels = [.name "a"] ∧ p.vartype = .binary := by
    intro p hp
    rcases List.mem_pair.mp hp with rfl | rfl
    · exact ⟨⟨rfl, rfl, rfl, by decide⟩, rfl, rfl⟩
    · exact ⟨⟨rfl, rfl, rfl, by decide⟩, rfl, rfl⟩
  obtain ⟨hjoin, hmerge⟩ := merging_before_joining (V := Label) (R := Float)
  obtain ⟨joined, joinedMerged, hjoined, hjoinedMerged, hsame⟩ := hjoin [s, s'] (by simp) _ _ h
  obtain ⟨_, _, _, _, _, _, _, hagain⟩ := hmerge s (h s (by simp)).1
  refine ⟨rfl, hagain, joined, joinedMerged, hjoined, hjoinedMerged, hsame, ?_⟩
  cases hjoined
  rfl

end SampleSet
end BinaryQuadratic
