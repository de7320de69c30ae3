import BinaryQuadratic.Proofs.Coefficient
import BinaryQuadratic.Proofs.SampleSet.WellFormed

namespace BinaryQuadratic

/-- The sort is stable: positions that may stand either way stay in order. -/
theorem pairwise_mergeSort_range {le : Nat → Nat → Bool}
    (htrans : ∀ i j k, le i j = true → le j k = true → le i k = true)
    (htotal : ∀ i j, (le i j || le j i) = true) (n : Nat) :
    ((List.range n).mergeSort le).Pairwise
      (fun i j => le i j = true ∧ (le j i = true → i < j)) := by
  have hsorted := List.pairwise_mergeSort (List.zipIdxLE_trans htrans)
    (List.zipIdxLE_total htotal) (List.range n).zipIdx
  have hnodup : ((List.range n).mergeSort le).Nodup :=
    (List.mergeSort_perm ..).nodup_iff.mpr List.nodup_range
  have hplace : ∀ p ∈ (List.range n).zipIdx.mergeSort (List.zipIdxLE le), p.2 = p.1 := by
    intro p hp
    obtain ⟨_, hk⟩ := List.getElem?_eq_some_iff.mp
      (List.mem_zipIdx_iff_getElem?.mp (List.mem_mergeSort.mp hp))
    simpa using hk
  rw [← List.mergeSort_zipIdx] at hnodup ⊢
  refine List.pairwise_map.mpr ((hsorted.and (List.pairwise_map.mp hnodup)).imp_of_mem ?_)
  rintro p q hp hq ⟨hpq, hne⟩
  rw [List.zipIdxLE, hplace p hp, hplace q hq] at hpq
  split at hpq
  · rename_i hle
    refine ⟨hle, fun hback => ?_⟩
    have horder : p.1 ≤ q.1 := by simpa [hback] using hpq
    omega
  · cases hpq

namespace SampleSet
open Std Coefficient

variable {V R : Type} [Coefficient R] [TransCmp (cmp : R → R → Ordering)]

theorem mayPrecede_trans {a b c : Option R} (hab : mayPrecede a b = true)
    (hbc : mayPrecede b c = true) : mayPrecede a c = true := by
  cases c with
  | none => cases a <;> rfl
  | some c =>
    cases b with
    | none => cases hbc
    | some b =>
      cases a with
      | none => cases hab
      | some a => exact le_trans hab hbc

theorem mayPrecede_total (a b : Option R) : (mayPrecede a b || mayPrecede b a) = true := by
  cases a with
  | none => cases b <;> rfl
  | some a =>
    cases b with
    | none => rfl
    | some b => exact le_total a b

omit [TransCmp (cmp : R → R → Ordering)] in
theorem sortedIndices_perm (s : SampleSet V R) : s.sortedIndices.Perm (List.range s.size) :=
  List.mergeSort_perm ..

omit [TransCmp (cmp : R → R → Ordering)] in
theorem lt_of_mem_sortedIndices {s : SampleSet V R} {i : Nat} (h : i ∈ s.sortedIndices) :
    i < s.size :=
  List.mem_range.mp (s.sortedIndices_perm.mem_iff.mp h)

/-- Rows that may stand either way are in row order. -/
theorem sortedIndices_stable (s : SampleSet V R) :
    s.sortedIndices.Pairwise (fun i j => mayPrecede s.energies[i]? s.energies[j]? = true ∧
      (mayPrecede s.energies[j]? s.energies[i]? = true → i < j)) := by
  let precedes (i j : Nat) : Bool := mayPrecede s.energies[i]? s.energies[j]?
  have htrans : ∀ i j k, precedes i j = true → precedes j k = true → precedes i k = true :=
    fun i j k => mayPrecede_trans
  have htotal : ∀ i j, (precedes i j || precedes j i) = true := fun i j => mayPrecede_total _ _
  simpa [sortedIndices] using pairwise_mergeSort_range htrans htotal s.size

/-- No energy stands before a smaller one. -/
theorem sortedIndices_ascending (s : SampleSet V R) :
    s.sortedIndices.Pairwise (fun i j => mayPrecede s.energies[i]? s.energies[j]? = true) :=
  s.sortedIndices_stable.imp And.left

/-- The lesser of two records is one of them, and no larger than either. -/
theorem lesser_spec (a b : Record R) :
    (lesser a b = a ∨ lesser a b = b) ∧ le (lesser a b).energy a.energy = true ∧
      le (lesser a b).energy b.energy = true := by
  unfold lesser
  split
  · rename_i hlt
    have hlt : cmp b.energy a.energy = .lt := by simpa using hlt
    exact ⟨.inr rfl, le_iff.mpr (.inl hlt), le_refl _⟩
  · rename_i hge
    exact ⟨.inl rfl, le_refl _, le_of_not_lt (by simpa using hge)⟩

/-- A fold of `lesser` ends at one of the records, of energy no larger than that of any. -/
theorem foldl_lesser (r : Record R) (rs : List (Record R)) :
    rs.foldl lesser r ∈ r :: rs ∧
      ∀ r' ∈ r :: rs, le (rs.foldl lesser r).energy r'.energy = true := by
  induction rs generalizing r with
  | nil =>
    refine ⟨by simp, fun r' hr' => ?_⟩
    rw [List.mem_singleton.mp hr']
    exact le_refl _
  | cons b rs ih =>
    obtain ⟨hmem, hle⟩ := ih (lesser r b)
    obtain ⟨hone, hr, hb⟩ := lesser_spec r b
    have hleast := hle (lesser r b) (by simp)
    refine ⟨?_, fun r' hr' => ?_⟩
    · rcases List.mem_cons.mp hmem with he | hmem
      · rw [List.foldl_cons, he]
        rcases hone with he | he <;> simp [he]
      · exact List.mem_cons_of_mem _ (List.mem_cons_of_mem _ hmem)
    · rcases List.mem_cons.mp hr' with rfl | hr'
      · exact le_trans hleast hr
      · rcases List.mem_cons.mp hr' with rfl | hr'
        · exact le_trans hleast hb
        · exact hle r' (List.mem_cons_of_mem _ hr')

/-- A set with rows has a first record, and no record has less energy. -/
theorem WellFormed.first? {s : SampleSet V R} (h : s.WellFormed) (hs : s.size ≠ 0) :
    ∃ r, s.first? = some r ∧ r ∈ s.records ∧ ∀ r' ∈ s.records, le r.energy r'.energy = true := by
  unfold SampleSet.first?
  cases hrecords : s.records with
  | nil =>
    have hlength := h.length_records
    rw [hrecords] at hlength
    exact absurd hlength.symm hs
  | cons r rs => exact ⟨_, rfl, foldl_lesser r rs⟩

/-- However short a set is cut in the order of its energies, a record of least energy stays. -/
theorem WellFormed.truncate_keeps_least {s : SampleSet V R} (h : s.WellFormed) (hs : s.size ≠ 0)
    {n : Nat} (hn : n ≠ 0) :
    ∃ r ∈ (s.truncate n .energy).records, ∀ r' ∈ s.records, le r.energy r'.energy = true := by
  have hperm := s.sortedIndices_perm
  have hascending := s.sortedIndices_ascending
  cases hsorted : s.sortedIndices with
  | nil =>
    have hlength := hperm.length_eq
    rw [hsorted, List.length_range] at hlength
    exact absurd hlength.symm hs
  | cons i is =>
    rw [hsorted] at hperm hascending
    obtain ⟨r, hr⟩ : ∃ r, s.records[i]? = some r := by
      have hi : i < s.size := List.mem_range.mp (hperm.mem_iff.mp (by simp))
      exact ⟨_, List.getElem?_eq_getElem (h.length_records ▸ hi)⟩
    refine ⟨r, ?_, fun r' hr' => ?_⟩
    · rw [SampleSet.truncate, h.records_select, hsorted]
      obtain ⟨n, rfl⟩ := Nat.exists_eq_succ_of_ne_zero hn
      exact mem_pick (by simp) hr
    · obtain ⟨j, hj⟩ := List.mem_iff_getElem?.mp hr'
      have hlt : j < s.size := h.length_records ▸ (List.getElem?_eq_some_iff.mp hj).1
      have henergy := (getElem?_records.mp hr).2.1
      rcases List.mem_cons.mp (hperm.mem_iff.mpr (List.mem_range.mpr hlt)) with rfl | hmem
      · rw [hr] at hj
        cases hj
        exact le_refl _
      · have hle := (List.pairwise_cons.mp hascending).1 j hmem
        rwa [henergy, (getElem?_records.mp hj).2.1] at hle

omit [TransCmp (cmp : R → R → Ordering)] in
theorem WellFormed.sortedEnergies_perm {s : SampleSet V R} (h : s.WellFormed) :
    (pick s.sortedIndices s.energies).Perm s.energies := by
  have hperm := s.sortedIndices_perm.filterMap (s.energies[·]?)
  rwa [← pick_eq_filterMap, ← pick_eq_filterMap, ← h.energies, pick_range] at hperm

/-- Energies taken in the order of the rows' indices ascend. -/
theorem sortedEnergies_ascending (s : SampleSet V R) :
    (pick s.sortedIndices s.energies).Pairwise (fun a b => le a b = true) := by
  rw [pick_eq_filterMap, List.pairwise_filterMap]
  refine s.sortedIndices_ascending.imp ?_
  intro i j hij a ha b hb
  rwa [ha, hb] at hij

omit [TransCmp (cmp : R → R → Ordering)] in
/-- A set cut in the order of its energies keeps the first of them. -/
theorem WellFormed.energies_truncate {s : SampleSet V R} (h : s.WellFormed) (n : Nat) :
    (s.truncate n .energy).energies = (pick s.sortedIndices s.energies).take n := by
  refine pick_take (fun i hi => ?_) n
  rw [h.energies]
  exact lt_of_mem_sortedIndices hi

omit [TransCmp (cmp : R → R → Ordering)] in
/-- Rows that differ from each other before a cut still differ after it. -/
theorem nodup_rows_truncate {s : SampleSet V R} (h : s.samples.rows.Nodup) (n : Nat) :
    (s.truncate n .energy).samples.rows.Nodup := by
  change (pick (s.sortedIndices.take n) s.samples.rows).Nodup
  have hindices : s.sortedIndices.Nodup := s.sortedIndices_perm.nodup_iff.mpr List.nodup_range
  exact nodup_pick hindices.take h

end SampleSet
end BinaryQuadratic
