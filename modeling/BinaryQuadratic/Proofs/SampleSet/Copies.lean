import BinaryQuadratic.Proofs.Enumeration
import BinaryQuadratic.Proofs.SampleSet.Aggregate
import BinaryQuadratic.Proofs.SampleSet.Faithful

namespace BinaryQuadratic

theorem coe_flatMap_of_same {f : α → List β} {xs : Multiset β} {as : List α}
    (h : ∀ a ∈ as, (f a : Multiset β) = xs) : (as.flatMap f : Multiset β) = as.length • xs := by
  induction as with
  | nil => simp
  | cons a as ih =>
    rw [List.flatMap_cons, ← Multiset.coe_add, h a (by simp), ih (fun b hb => h b (by simp [hb])),
      List.length_cons, succ_nsmul']

namespace SampleSet

variable {V : Type}

theorem Faithful.records_eq {R : Type} [Coefficient R] {m : Model V R} {s : SampleSet V R}
    (h : Faithful m s) {n : Nat} (hn : ∀ k ∈ s.occurrences, k = n) :
    s.records = s.samples.rows.map (fun row => ⟨row, m.evaluate row, n⟩) := by
  have hcounts : s.occurrences = List.replicate s.samples.rows.length n :=
    List.eq_replicate_iff.mpr ⟨h.wellFormed.occurrences, hn⟩
  rw [records, h.energies, hcounts]
  induction s.samples.rows with
  | nil => rfl
  | cons row rows ih => simpa [List.replicate_succ] using ih

/-- Every assignment of a model stands in `c` rows, each of which is counted once. -/
structure Copies (m : Model V Rat) (c : Nat) (s : SampleSet V Rat) : Prop
    extends Faithful m s where
  counts : ∀ n ∈ s.occurrences, n = 1
  rows : (s.samples.rows : Multiset (List Int)) =
    c • (assignments m.vartype m.numVariables : Multiset (List Int))

variable {m : Model V Rat} {c : Nat} {s : SampleSet V Rat}

theorem Copies.records (h : Copies m c s) : (s.records : Multiset (Record Rat)) =
    c • ((assignments m.vartype m.numVariables).map
      (fun row => (⟨row, m.evaluate row, 1⟩ : Record Rat)) : Multiset (Record Rat)) := by
  rw [h.toFaithful.records_eq h.counts, ← Multiset.map_coe, h.rows, Multiset.map_nsmul,
    Multiset.map_coe]

/-- Flips exchange assignments for one another, and leave none out. -/
theorem Copies.flipAt {k : Nat} (h : Copies (m.flipAt k) c s) (hm : m.WellFormed)
    (hk : k < m.numVariables) : Copies m c (s.flipAt k) := by
  have hvartype : s.vartype = m.vartype := h.vartype.trans (Model.vartype_flipAt m k)
  have hrows := h.rows
  rw [Model.vartype_flipAt, Model.numVariables_flipAt] at hrows
  refine ⟨h.toFaithful.flipAt hm hk, h.counts, ?_⟩
  change (s.samples.rows.map (·.modify k s.vartype.flip) : Multiset (List Int)) = _
  rw [← Multiset.map_coe, hrows, Multiset.map_nsmul, Multiset.map_coe, hvartype,
    Multiset.coe_eq_coe.mpr (map_modify_assignments m.vartype m.numVariables k)]

theorem Copies.changeVartype {t : Vartype} (h : Copies (m.changeVartype t) c s)
    (hm : m.WellFormed) : Copies m c (s.changeVartype m.vartype) := by
  have hvartype : s.vartype = t := h.vartype.trans (Model.vartype_changeVartype m t)
  have hrows := h.rows
  rw [Model.vartype_changeVartype, Model.numVariables_changeVartype] at hrows
  refine ⟨h.toFaithful.changeVartype hm, h.counts, ?_⟩
  change (s.samples.rows.map (·.map (s.vartype.convert m.vartype)) : Multiset (List Int)) = _
  rw [← Multiset.map_coe, hrows, Multiset.map_nsmul, Multiset.map_coe, hvartype,
    map_convert_assignments]

theorem Copies.concatenate [DecidableEq V] {sets : List (SampleSet V Rat)}
    (h : ∀ p ∈ sets, Copies m c p) (hs : concatenate sets = .ok s) :
    Copies m (sets.length * c) s := by
  obtain ⟨_, _, hrows, _, hcounts⟩ := concatenate_ok hs
  refine ⟨.concatenate (fun p hp => (h p hp).toFaithful) hs, fun n hn => ?_, ?_⟩
  · rw [hcounts] at hn
    obtain ⟨p, hp, hn⟩ := List.mem_flatMap.mp hn
    exact (h p hp).counts n hn
  · rw [hrows, coe_flatMap_of_same (fun p hp => (h p hp).rows), mul_nsmul']

theorem Copies.tally (h : Copies m c s) {x : List Int}
    (hx : x ∈ assignments m.vartype m.numVariables) : s.tally x = c := by
  have htally : s.tally x = (s.samples.rows : Multiset (List Int)).count x := by
    rw [SampleSet.tally, h.toFaithful.records_eq h.counts, List.filter_map, List.map_map,
      Multiset.coe_count]
    simp [Function.comp_def, List.count_eq_length_filter, beq_eq_decide]
  have honce : (assignments m.vartype m.numVariables : Multiset (List Int)).count x = 1 :=
    Multiset.count_eq_one_of_mem (Multiset.coe_nodup.mpr (nodup_assignments _ _)) hx
  rw [htally, h.rows, Multiset.count_nsmul, honce, mul_one]

/-- Merging leaves each assignment once, with its copies counted. -/
theorem Copies.aggregate (h : Copies m c s) (hc : c ≠ 0) :
    s.aggregate.samples.rows.Perm (assignments m.vartype m.numVariables) ∧
      ∀ n ∈ s.aggregate.occurrences, n = c := by
  have hmem : ∀ x, x ∈ s.aggregate.samples.rows ↔ x ∈ assignments m.vartype m.numVariables := by
    intro x
    rw [h.wellFormed.mem_rows_aggregate, ← Multiset.mem_coe, h.rows, Multiset.mem_nsmul]
    simp [hc]
  refine ⟨(List.perm_ext_iff_of_nodup s.nodup_rows_aggregate (nodup_assignments _ _)).mpr hmem, ?_⟩
  rw [occurrences_aggregate]
  intro n hn
  obtain ⟨x, hx, rfl⟩ := List.mem_map.mp hn
  exact h.tally ((hmem x).mp hx)

theorem Copies.records_aggregate (h : Copies m c s) (hc : c ≠ 0) :
    s.aggregate.records.Perm
      ((assignments m.vartype m.numVariables).map (fun row => ⟨row, m.evaluate row, c⟩)) := by
  obtain ⟨hrows, hcounts⟩ := h.aggregate hc
  rw [h.toFaithful.aggregate.records_eq hcounts]
  exact hrows.map _

end SampleSet
end BinaryQuadratic
