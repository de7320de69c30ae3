import BinaryQuadratic.Proofs.SampleSet.Bounds

namespace BinaryQuadratic.SampleSet
open Std Coefficient

variable {V R : Type}

theorem WellFormed.exists_energy {s : SampleSet V R} (h : s.WellFormed) {i : Nat}
    (hi : i < s.size) : ∃ a, s.energies[i]? = some a :=
  ⟨_, List.getElem?_eq_getElem (h.energies ▸ hi)⟩

/-- Rows chosen among chosen rows are rows of the set. -/
theorem WellFormed.select_select {s : SampleSet V R} (h : s.WellFormed) {indices : List Nat}
    (hindices : ∀ i ∈ indices, i < s.size) (chosen : List Nat) :
    (s.select indices).select chosen = s.select (pick chosen indices) := by
  refine ((h.select indices).select chosen).ext_records (h.select _) rfl rfl ?_
  rw [(h.select indices).records_select, h.records_select, h.records_select]
  exact pick_pick (fun i hi => h.length_records ▸ hindices i hi) chosen

theorem size_select {s : SampleSet V R} {indices : List Nat}
    (h : ∀ i ∈ indices, i < s.size) : (s.select indices).size = indices.length := by
  have hall : indices.filter (· < s.size) = indices :=
    List.filter_eq_self.mpr (fun i hi => by simpa using h i hi)
  change (pick indices s.samples.rows).length = _
  rw [length_pick]
  exact congrArg List.length hall

variable [Coefficient R]

/-- What is cut off a chosen set in row order are the last positions chosen. -/
theorem WellFormed.truncate_select {s : SampleSet V R} (h : s.WellFormed) {indices : List Nat}
    (hindices : ∀ i ∈ indices, i < s.size) (m : Nat) :
    (s.select indices).truncate m .unsorted = s.select (indices.take m) := by
  rw [SampleSet.truncate, h.select_select hindices, pick_range_eq_take, size_select hindices,
    min_comm, ← List.take_take, List.take_length]

/-- The rows that are kept are those at the first positions in the order of energies. -/
theorem WellFormed.records_truncate {s : SampleSet V R} (h : s.WellFormed) (n : Nat) :
    (s.truncate n .energy).records.map some = (s.sortedIndices.take n).map (s.records[·]?) := by
  rw [SampleSet.truncate, h.records_select]
  refine pick_eq_map (fun i hi => ?_)
  rw [h.length_records]
  exact lt_of_mem_sortedIndices (List.mem_of_mem_take hi)

/-- Row `i` stands before row `j` where rows are ordered by energy, and by position among those of
equal energy. -/
def Precedes (s : SampleSet V R) (i j : Nat) : Prop :=
  ∃ a ∈ s.energies[i]?, ∃ b ∈ s.energies[j]?, cmp a b = .lt ∨ cmp a b = .eq ∧ i < j

instance (s : SampleSet V R) : DecidableRel s.Precedes :=
  fun i j => inferInstanceAs
    (Decidable (∃ a ∈ s.energies[i]?, ∃ b ∈ s.energies[j]?, cmp a b = .lt ∨ cmp a b = .eq ∧ i < j))

theorem precedes_records {s : SampleSet V R} {i j : Nat} {a b : Record R}
    (ha : s.records[i]? = some a) (hb : s.records[j]? = some b) : s.Precedes i j ↔
      cmp a.energy b.energy = .lt ∨ cmp a.energy b.energy = .eq ∧ i < j := by
  simp [Precedes, (getElem?_records.mp ha).2.1, (getElem?_records.mp hb).2.1]

/-- `r` is the earliest record of least energy. -/
def IsFirst (rs : List (Record R)) (r : Record R) : Prop :=
  ∃ before after, rs = before ++ r :: after ∧
    (∀ b ∈ before, cmp r.energy b.energy = .lt) ∧ ∀ a ∈ after, le r.energy a.energy = true

theorem IsFirst.mem {rs : List (Record R)} {r : Record R} (h : IsFirst rs r) : r ∈ rs := by
  obtain ⟨before, after, rfl, _, _⟩ := h
  simp

/-- A record stays first as long as it stays. -/
theorem IsFirst.filter {rs : List (Record R)} {r : Record R} (h : IsFirst rs r)
    {p : Record R → Bool} (hr : p r = true) : IsFirst (rs.filter p) r := by
  obtain ⟨before, after, rfl, hbefore, hafter⟩ := h
  exact ⟨before.filter p, after.filter p, by simp [hr],
    fun b hb => hbefore b (List.mem_filter.mp hb).1,
    fun a ha => hafter a (List.mem_filter.mp ha).1⟩

theorem isFirst_of_getElem? {rs : List (Record R)} {r : Record R} {i : Nat} (hr : rs[i]? = some r)
    (hbefore : ∀ j < i, ∀ b, rs[j]? = some b → cmp r.energy b.energy = .lt)
    (hafter : ∀ j > i, ∀ a, rs[j]? = some a → le r.energy a.energy = true) : IsFirst rs r := by
  obtain ⟨hi, hget⟩ := List.getElem?_eq_some_iff.mp hr
  refine ⟨rs.take i, rs.drop (i + 1), ?_, fun b hb => ?_, fun a ha => ?_⟩
  · rw [← hget, List.getElem_cons_drop, List.take_append_drop]
  · obtain ⟨j, hj⟩ := List.mem_iff_getElem?.mp hb
    rw [List.getElem?_take, Option.ite_none_right_eq_some] at hj
    exact hbefore j hj.1 b hj.2
  · obtain ⟨j, hj⟩ := List.mem_iff_getElem?.mp ha
    rw [List.getElem?_drop] at hj
    exact hafter _ (by omega) a hj

section
variable [TransCmp (cmp : R → R → Ordering)]

theorem IsFirst.le {rs : List (Record R)} {r r' : Record R} (h : IsFirst rs r) (hr : r' ∈ rs) :
    Coefficient.le r.energy r'.energy = true := by
  obtain ⟨before, after, rfl, hbefore, hafter⟩ := h
  rcases List.mem_append.mp hr with hr | hr
  · exact le_iff.mpr (.inl (hbefore r' hr))
  · rcases List.mem_cons.mp hr with rfl | hr
    · exact le_refl _
    · exact hafter r' hr

/-- One more record comes first only if it has less energy than the first before it. -/
theorem IsFirst.append {rs : List (Record R)} {r : Record R} (h : IsFirst rs r) (b : Record R) :
    IsFirst (rs ++ [b]) (lesser r b) := by
  unfold lesser
  split
  · rename_i hlt
    have hlt : cmp b.energy r.energy = .lt := by simpa using hlt
    exact ⟨rs, [], rfl, fun r' hr' => TransCmp.lt_of_lt_of_isLE hlt (h.le hr'), by simp⟩
  · rename_i hge
    have hge : cmp b.energy r.energy ≠ .lt := by simpa using hge
    obtain ⟨before, after, rfl, hbefore, hafter⟩ := h
    refine ⟨before, after ++ [b], by simp, hbefore, fun a ha => ?_⟩
    rcases List.mem_append.mp ha with ha | ha
    · exact hafter a ha
    · rw [List.mem_singleton.mp ha]
      exact le_of_not_lt hge

theorem isFirst_foldl (r : Record R) (rs : List (Record R)) :
    IsFirst (r :: rs) (rs.foldl lesser r) := by
  induction rs using List.reverseRecOn with
  | nil => exact ⟨[], [], rfl, by simp, by simp⟩
  | append_singleton rs b ih =>
    rw [List.foldl_concat]
    exact ih.append b

/-- There is no other: where `r` is met, what was least before it has more energy, and nothing
after it has less. -/
theorem IsFirst.foldl_eq {r₀ r : Record R} {rs : List (Record R)} (h : IsFirst (r₀ :: rs) r) :
    rs.foldl lesser r₀ = r := by
  obtain ⟨before, after, he, hbefore, hafter⟩ := h
  -- ties go to the record that the fold has already, so that it keeps `r`
  have hstays : after.foldl lesser r = r := by
    clear he
    induction after with
    | nil => rfl
    | cons a after ih =>
      obtain ⟨ha, hafter⟩ := List.forall_mem_cons.mp hafter
      have hr : lesser r a = r := if_neg (by simpa using not_lt_of_le ha)
      rw [List.foldl_cons, hr, ih hafter]
  cases before with
  | nil =>
    cases he
    exact hstays
  | cons b before =>
    obtain ⟨rfl, rfl⟩ : r₀ = b ∧ rs = before ++ r :: after := by simpa using he
    have hless := hbefore _ (foldl_lesser r₀ before).1
    have hr : lesser (before.foldl lesser r₀) r = r := if_pos (by simpa using hless)
    rw [List.foldl_append, List.foldl_cons, hr, hstays]

theorem first?_eq_some_iff {s : SampleSet V R} {r : Record R} :
    s.first? = some r ↔ IsFirst s.records r := by
  unfold SampleSet.first?
  cases s.records with
  | nil => simp [IsFirst]
  | cons r₀ rs =>
    refine ⟨fun h => ?_, fun h => congrArg some h.foldl_eq⟩
    cases h
    exact isFirst_foldl r₀ rs

theorem Precedes.asymm {s : SampleSet V R} {i j : Nat} (h : s.Precedes i j) :
    ¬ s.Precedes j i := by
  obtain ⟨a, ha, b, hb, hab⟩ := h
  rintro ⟨b', hb', a', ha', hba⟩
  cases ha.symm.trans ha'
  cases hb.symm.trans hb'
  have hswap : cmp b a = (cmp a b).swap := OrientedCmp.eq_swap
  rcases hab with hab | ⟨hab, hij⟩
  · simp [hswap, hab] at hba
  · rcases hba with hba | ⟨_, hji⟩
    · simp [hswap, hab] at hba
    · omega

theorem WellFormed.sortedIndices_pairwise {s : SampleSet V R} (h : s.WellFormed) :
    s.sortedIndices.Pairwise s.Precedes := by
  refine s.sortedIndices_stable.imp_of_mem ?_
  rintro i j hi hj ⟨hle, hlt⟩
  obtain ⟨a, ha⟩ := h.exists_energy (lt_of_mem_sortedIndices hi)
  obtain ⟨b, hb⟩ := h.exists_energy (lt_of_mem_sortedIndices hj)
  simp only [ha, hb, mayPrecede] at hle hlt
  refine ⟨a, ha, b, hb, ?_⟩
  rcases le_iff.mp hle with hless | hequal
  · exact .inl hless
  · exact .inr ⟨hequal, hlt (le_iff.mpr (.inr (OrientedCmp.eq_comm.mp hequal)))⟩

/-- There is one order in which each row precedes those after it. -/
theorem WellFormed.eq_sortedIndices_iff {s : SampleSet V R} (h : s.WellFormed)
    {order : List Nat} : order = s.sortedIndices ↔
      order.Perm (List.range s.size) ∧ order.Pairwise s.Precedes := by
  constructor
  · rintro rfl
    exact ⟨s.sortedIndices_perm, h.sortedIndices_pairwise⟩
  · rintro ⟨hperm, hpairwise⟩
    exact List.Perm.eq_of_pairwise (fun i j _ _ hij hji => absurd hji hij.asymm) hpairwise
      h.sortedIndices_pairwise (hperm.trans s.sortedIndices_perm.symm)

/-- The first record stands at the first position in the order of energies. -/
theorem WellFormed.first?_eq_sorted {s : SampleSet V R} (h : s.WellFormed) :
    s.first? = s.sortedIndices.head?.bind (s.records[·]?) := by
  have hperm := s.sortedIndices_perm
  have hpairwise := h.sortedIndices_pairwise
  cases hsorted : s.sortedIndices with
  | nil =>
    rw [hsorted] at hperm
    have hsize : s.size = 0 := by simpa using hperm.length_eq.symm
    exact h.first?_eq_none.mpr hsize
  | cons i is =>
    rw [hsorted] at hperm hpairwise
    have hi : i < s.records.length :=
      h.length_records ▸ List.mem_range.mp (hperm.mem_iff.mp (List.mem_cons_self ..))
    obtain ⟨r, hr⟩ : ∃ r, s.records[i]? = some r := ⟨_, List.getElem?_eq_getElem hi⟩
    have hprecedes : ∀ j ≠ i, ∀ b, s.records[j]? = some b →
        cmp r.energy b.energy = .lt ∨ cmp r.energy b.energy = .eq ∧ i < j := by
      intro j hne b hb
      have hj : j < s.size := h.length_records ▸ (List.getElem?_eq_some_iff.mp hb).1
      have hmem := (List.mem_cons.mp (hperm.mem_iff.mpr (List.mem_range.mpr hj))).resolve_left hne
      exact (precedes_records hr hb).mp ((List.pairwise_cons.mp hpairwise).1 j hmem)
    rw [List.head?_cons, Option.bind_some, hr]
    refine first?_eq_some_iff.mpr (isFirst_of_getElem? hr (fun j hj b hb => ?_)
      (fun j hj a ha => ?_))
    · rcases hprecedes j (by omega) b hb with hless | ⟨_, hlt⟩
      · exact hless
      · omega
    · rcases hprecedes j (by omega) a ha with hless | ⟨hequal, _⟩
      · exact le_iff.mpr (.inl hless)
      · exact le_iff.mpr (.inr hequal)

/-- A set that was cut in the order of its energies is in that order. -/
theorem WellFormed.sortedIndices_truncate {s : SampleSet V R} (h : s.WellFormed) (n : Nat) :
    (s.truncate n .energy).sortedIndices = List.range (s.truncate n .energy).size := by
  have hcut := h.truncate n .energy
  have hascending : (s.truncate n .energy).energies.Pairwise (fun a b => le a b = true) :=
    h.energies_truncate n ▸ s.sortedEnergies_ascending.take
  refine (hcut.eq_sortedIndices_iff.mpr ⟨.refl _, ?_⟩).symm
  refine List.pairwise_lt_range.imp_of_mem (fun {i j} hi hj hij => ?_)
  obtain ⟨a, ha⟩ := hcut.exists_energy (List.mem_range.mp hi)
  obtain ⟨b, hb⟩ := hcut.exists_energy (List.mem_range.mp hj)
  refine ⟨a, ha, b, hb, ?_⟩
  obtain ⟨hi, rfl⟩ := List.getElem?_eq_some_iff.mp ha
  obtain ⟨hj, rfl⟩ := List.getElem?_eq_some_iff.mp hb
  have hle := List.pairwise_iff_getElem.mp hascending i j hi hj hij
  rcases le_iff.mp hle with hless | hequal
  · exact .inl hless
  · exact .inr ⟨hequal, hij⟩

theorem WellFormed.truncate_truncate_energy {s : SampleSet V R} (h : s.WellFormed) (n m : Nat) :
    (s.truncate n .energy).truncate m .energy = (s.truncate n .energy).truncate m .unsorted := by
  change (s.truncate n .energy).select ((s.truncate n .energy).sortedIndices.take m) = _
  rw [h.sortedIndices_truncate, List.take_range, min_comm]
  rfl

/-- However the cuts are made, the shortest one counts. -/
theorem WellFormed.truncate_truncate {s : SampleSet V R} (h : s.WellFormed) (n m : Nat) :
    (s.truncate n .energy).truncate m .energy = s.truncate (min n m) .energy ∧
      (s.truncate n .energy).truncate m .unsorted = s.truncate (min n m) .energy ∧
      (s.truncate n .unsorted).truncate m .unsorted = s.truncate (min n m) .unsorted := by
  have henergy : (s.truncate n .energy).truncate m .unsorted = s.truncate (min n m) .energy := by
    rw [min_comm, SampleSet.truncate, h.truncate_select, List.take_take]
    · rfl
    · exact fun i hi => lt_of_mem_sortedIndices (List.mem_of_mem_take hi)
  refine ⟨(h.truncate_truncate_energy n m).trans henergy, henergy, ?_⟩
  change (s.select (List.range (min s.size n))).truncate m .unsorted = _
  rw [h.truncate_select, List.take_range, min_comm, min_assoc]
  · rfl
  · exact fun i hi => (List.mem_range.mp hi).trans_le (min_le_left _ _)

/-- No row that is dropped precedes one that is kept. -/
theorem WellFormed.kept_precedes {s : SampleSet V R} (h : s.WellFormed) {n kept dropped : Nat}
    (hkept : kept ∈ s.sortedIndices.take n) (hsize : dropped < s.size)
    (hdropped : dropped ∉ s.sortedIndices.take n) : s.Precedes kept dropped := by
  have hpairwise := h.sortedIndices_pairwise
  have hmem := s.sortedIndices_perm.mem_iff.mpr (List.mem_range.mpr hsize)
  rw [← List.take_append_drop n s.sortedIndices] at hpairwise hmem
  exact (List.pairwise_append.mp hpairwise).2.2 kept hkept dropped
    ((List.mem_append.mp hmem).resolve_left hdropped)

/-- Of the orders of the rows, the sorted one alone has each row precede those after it. It begins
with the first record, and cuts by energy keep what it begins with, so that several cuts, the last
of which may be in row order as well, are one. -/
theorem sorted_by_energy {s : SampleSet V R} (h : s.WellFormed) :
    (∀ order, order = s.sortedIndices ↔
      order.Perm (List.range s.size) ∧ order.Pairwise s.Precedes) ∧
    s.first? = s.sortedIndices.head?.bind (s.records[·]?) ∧ (s.first? = none ↔ s.size = 0) ∧
    (∀ n, (s.truncate n .energy).labels = s.labels ∧
      (s.truncate n .energy).vartype = s.vartype ∧ (s.truncate n .energy).WellFormed ∧
      (s.truncate n .energy).size = min n s.size ∧
      (s.truncate n .energy).records.map some =
        (s.sortedIndices.take n).map (s.records[·]?) ∧
      ∀ kept ∈ s.sortedIndices.take n, ∀ dropped < s.size, dropped ∉ s.sortedIndices.take n →
        s.Precedes kept dropped ∧ ¬ s.Precedes dropped kept) ∧
    ∀ n m, (s.truncate n .energy).truncate m .energy = s.truncate (min n m) .energy ∧
      (s.truncate n .energy).truncate m .unsorted = s.truncate (min n m) .energy ∧
      (s.truncate n .unsorted).truncate m .unsorted = s.truncate (min n m) .unsorted := by
  refine ⟨fun _ => h.eq_sortedIndices_iff, h.first?_eq_sorted, h.first?_eq_none, fun n => ?_,
    h.truncate_truncate⟩
  have hsize : (s.truncate n .energy).size = min n s.size := by
    rw [SampleSet.truncate,
      size_select (fun i hi => lt_of_mem_sortedIndices (List.mem_of_mem_take hi)),
      List.length_take, s.sortedIndices_perm.length_eq, List.length_range]
  refine ⟨rfl, rfl, h.truncate n .energy, hsize, h.records_truncate n, ?_⟩
  intro kept hkept dropped hlt hdropped
  have hprecedes := h.kept_precedes hkept hlt hdropped
  exact ⟨hprecedes, hprecedes.asymm⟩

/-- Zeros of both signs, one of them twice, and NaN, which stands last. -/
theorem sorted_of_zeros_and_nan :
    let s : SampleSet Label Float :=
      ⟨[.name "a"], ⟨1, [[1], [-1], [1], [-1]], by decide⟩, [0.0 / 0.0, 0.0, -0.0, 0.0],
        [1, 2, 3, 4], .spin⟩
    s.WellFormed ∧ s.sortedIndices = [2, 1, 3, 0] ∧ s.first? = s.records[2]? ∧
      (s.truncate 2 .energy).records.map some = [s.records[2]?, s.records[1]?] ∧
      (s.truncate 3 .energy).truncate 2 .unsorted = s.truncate 2 .energy := by
  intro s
  have h : s.WellFormed := ⟨rfl, rfl, rfl, by decide⟩
  obtain ⟨horder, hfirst, _, hcut, hcuts⟩ := sorted_by_energy h
  have hsorted : s.sortedIndices = [2, 1, 3, 0] :=
    ((horder _).mpr ⟨by decide, by decide +kernel⟩).symm
  have hrecords := (hcut 2).2.2.2.2.1
  rw [hsorted] at hfirst hrecords
  exact ⟨h, hsorted, hfirst, hrecords, (hcuts 3 2).2.1⟩

end

end BinaryQuadratic.SampleSet
