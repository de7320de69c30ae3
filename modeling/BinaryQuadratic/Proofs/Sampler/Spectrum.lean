import BinaryQuadratic.Proofs.Sampler.Coverage
import BinaryQuadratic.Proofs.Sampler.Success

namespace BinaryQuadratic
open SampleM SampleSet

theorem coe_flatMap_replicate (xs : List α) (n : Nat) :
    (xs.flatMap (List.replicate n) : Multiset α) = n • (xs : Multiset α) := by
  induction xs with
  | nil => simp
  | cons x xs ih =>
    rw [List.flatMap_cons, ← Multiset.coe_add, ih, ← Multiset.cons_coe, ← Multiset.singleton_add,
      nsmul_add, Multiset.nsmul_singleton, Multiset.coe_replicate]

theorem ascending_flatMap_replicate {xs : List Rat} (h : xs.Pairwise (· ≤ ·)) (n : Nat) :
    (xs.flatMap (List.replicate n)).Pairwise (· ≤ ·) := by
  apply List.pairwise_flatMap.mpr
  constructor
  · intro x _
    exact List.pairwise_replicate.mpr (.inr le_rfl)
  · apply h.imp
    intro x y hxy a ha b hb
    rw [List.eq_of_mem_replicate ha, List.eq_of_mem_replicate hb]
    exact hxy

variable {V : Type}

namespace Model

/-- The energies of all assignments, in ascending order. -/
def spectrum (m : Model V Rat) : List Rat :=
  ((assignments m.vartype m.numVariables).map m.evaluate).mergeSort

theorem spectrum_perm (m : Model V Rat) :
    m.spectrum.Perm ((assignments m.vartype m.numVariables).map m.evaluate) :=
  List.mergeSort_perm _ _

theorem spectrum_ascending (m : Model V Rat) : m.spectrum.Pairwise (· ≤ ·) :=
  List.pairwise_mergeSort' _ _

theorem length_spectrum (m : Model V Rat) : m.spectrum.length = 2 ^ m.numVariables := by
  rw [m.spectrum_perm.length_eq, List.length_map, length_assignments]

end Model

namespace SampleSet

/-- The rows that a cut keeps depend on the order of rows of equal energy. Their energies do not. -/
theorem WellFormed.energies_truncate_of_perm {s : SampleSet V Rat} (h : s.WellFormed)
    {xs : List Rat} (hxs : xs.Pairwise (· ≤ ·)) (hperm : s.energies.Perm xs) (n : Nat) :
    (s.truncate n .energy).energies = xs.take n := by
  have hsorted : (pick s.sortedIndices s.energies).Pairwise (· ≤ ·) :=
    s.sortedEnergies_ascending.imp (fun hle => Coefficient.le_rat.mp hle)
  rw [h.energies_truncate, (h.sortedEnergies_perm.trans hperm).eq_of_pairwise' hsorted hxs]

variable {m : Model V Rat} {c : Nat} {s : SampleSet V Rat}

theorem Copies.energies_perm (h : Copies m c s) :
    s.energies.Perm (m.spectrum.flatMap (List.replicate c)) := by
  rw [← Multiset.coe_eq_coe, coe_flatMap_replicate, Multiset.coe_eq_coe.mpr m.spectrum_perm,
    h.energies, ← Multiset.map_coe, h.rows, Multiset.map_nsmul, Multiset.map_coe]

theorem Copies.energies_truncate (h : Copies m c s) (n : Nat) :
    (s.truncate n .energy).energies = (m.spectrum.flatMap (List.replicate c)).take n :=
  h.wellFormed.energies_truncate_of_perm (ascending_flatMap_replicate m.spectrum_ascending c)
    h.energies_perm n

/-- Where copies are merged before the cut, what is left are assignments that differ from each
other, each of which stands for all its copies. -/
theorem Copies.truncate_aggregate (h : Copies m c s) (hc : c ≠ 0) (n : Nat) :
    (s.aggregate.truncate n .energy).energies = m.spectrum.take n ∧
      (s.aggregate.truncate n .energy).samples.rows.Nodup ∧
      (s.aggregate.truncate n .energy).occurrences =
        List.replicate (min n (2 ^ m.numVariables)) c := by
  obtain ⟨hrows, hcounts⟩ := h.aggregate hc
  have hmerged := h.toFaithful.aggregate
  have henergies : (s.aggregate.truncate n .energy).energies = m.spectrum.take n := by
    refine hmerged.wellFormed.energies_truncate_of_perm m.spectrum_ascending ?_ n
    rw [hmerged.energies]
    exact (hrows.map m.evaluate).trans m.spectrum_perm.symm
  refine ⟨henergies, nodup_rows_truncate s.nodup_rows_aggregate n, List.eq_replicate_iff.mpr ?_⟩
  have hcut := hmerged.wellFormed.truncate n .energy
  constructor
  · rw [hcut.occurrences, ← hcut.energies, henergies, List.length_take, m.length_spectrum]
  · intro k hk
    change k ∈ pick (s.aggregate.sortedIndices.take n) s.aggregate.occurrences at hk
    rw [pick_eq_filterMap] at hk
    obtain ⟨i, _, hi⟩ := List.mem_filterMap.mp hk
    exact hcounts k (List.mem_of_getElem? hi)

end SampleSet

namespace Stack

variable {σ : Type} [DecidableEq V]

/-- A cut of flipped copies keeps the lowest of the energies of all assignments, as many of each as
there are copies, or one of each if copies are merged first. Which variables are flipped makes no
difference to that. -/
theorem energies_independent_of_flips (e : ExhaustiveSampler) (m : Model V Rat) (hm : m.Reachable)
    (hn : m.numVariables ≠ 0) (samples : Matrix)
    (henum : enumerate m.vartype m.numVariables = .ok samples) :
    ∃ E : List Rat, E.Pairwise (· ≤ ·) ∧ E.length = 2 ^ m.numVariables ∧
      (∀ (params : Params) (s : Session σ), ∃ once,
        (outcome (e.sampler.sample m params) s).1 = .ok once ∧ E.Perm once.energies) ∧
      ∀ (n t : PositiveSize) (params : Params) (seed : Option UInt64) (s : Session σ),
        SpinReversal.transformsAsked params = .ok t → SpinReversal.seedAsked params = .ok seed →
        (∃ set, (outcome ((truncate (spinReversal (exhaustive e)) ⟨n, .energy, false⟩).sampler.sample
            m params) s).1 = .ok set ∧
          set.energies = (E.flatMap (List.replicate t.toNat)).take n.toNat) ∧
        ∃ set, (outcome ((truncate (spinReversal (exhaustive e)) ⟨n, .energy, true⟩).sampler.sample
            m params) s).1 = .ok set ∧
          set.energies = E.take n.toNat ∧ set.samples.rows.Nodup ∧
          set.occurrences = List.replicate (min n.toNat (2 ^ m.numVariables)) t.toNat := by
  have hwellFormed := hm.wellFormed
  refine ⟨m.spectrum, m.spectrum_ascending, m.length_spectrum, fun params s => ?_, ?_⟩
  · refine ⟨ExhaustiveSampler.evaluated m samples, congrArg Prod.fst
      (ExhaustiveSampler.sample_of_enumerate hwellFormed (Model.isEmpty_eq_false.mpr hn) henum e
        params s), ?_⟩
    rw [ExhaustiveSampler.evaluated, (enumerate_ok henum).2]
    exact m.spectrum_perm
  · intro n t params seed s ht hseed
    have hread : SpinReversal.Readable params := ⟨⟨t, ht⟩, seed, hseed⟩
    obtain ⟨set, s', hrun, _⟩ :=
      Stack.succeeds henum (spinReversal (exhaustive e)) s hwellFormed rfl hread
    have hcopies : Copies m t.toNat set := by
      have hall := SpinReversal.copies e.covers hwellFormed hn ht hrun
      rwa [Nat.mul_one] at hall
    have hcut : ∀ config : TruncateConfig,
        (outcome ((truncate (spinReversal (exhaustive e)) config).sampler.sample m params) s).1 =
          .ok (config.apply set) := by
      intro config
      exact congrArg Prod.fst (bind_outcome_ok.mpr ⟨set, s', hrun, rfl⟩)
    have htransforms : t.toNat ≠ 0 := Nat.ne_of_gt t.toNat_pos
    exact ⟨⟨_, hcut _, hcopies.energies_truncate n.toNat⟩,
      ⟨_, hcut _, hcopies.truncate_aggregate htransforms n.toNat⟩⟩

theorem energies_of_cut_reversals :
    let m : Model String Rat := .ofQubo [(("a", "b"), 2), (("b", "b"), -1)] 0
    let params := Params.ofList [(SpinReversal.transformsName, .int 3)]
    let s : Session Unit := ⟨[], .standard (fun _ => .stream (fun i => i % 3 == 0)), ()⟩
    let t : PositiveSize := ⟨3, by decide⟩
    let n : PositiveSize := ⟨5, by decide⟩
    m.Reachable ∧ m.numVariables ≠ 0 ∧ (enumerate m.vartype m.numVariables).toBool = true ∧
      SpinReversal.transformsAsked params = .ok t ∧ SpinReversal.seedAsked params = .ok none ∧
      ∃ kept merged,
        (outcome ((truncate (spinReversal (exhaustive .new)) ⟨n, .energy, false⟩).sampler.sample
          m params) s).1 = .ok kept ∧ kept.energies = [-1, -1, -1, 0, 0] ∧
        (outcome ((truncate (spinReversal (exhaustive .new)) ⟨n, .energy, true⟩).sampler.sample
          m params) s).1 = .ok merged ∧ merged.energies = [-1, 0, 0, 1] ∧
        merged.occurrences = [3, 3, 3, 3] := by
  intro m params s t n
  have hm : m.Reachable := .ofQubo _ 0
  have hn : m.numVariables ≠ 0 := by decide
  have henum : enumerate m.vartype m.numVariables =
      .ok ⟨2, [[0, 0], [0, 1], [1, 0], [1, 1]], by decide⟩ := rfl
  have ht : SpinReversal.transformsAsked params = .ok t := rfl
  have hseed : SpinReversal.seedAsked params = .ok none := rfl
  obtain ⟨E, hascending, _, honce, hcut⟩ :=
    energies_independent_of_flips .new m hm hn _ henum
  obtain ⟨once, hrun, hperm⟩ := honce params s
  have henergies : once.energies = [0, -1, 0, 1] := by
    have hvalue : ((outcome (ExhaustiveSampler.new.sampler.sample m params) s).1.toOption.map
        (·.energies)) = some [0, -1, 0, 1] := by
      decide +kernel
    rw [hrun] at hvalue
    exact Option.some.inj hvalue
  have hE : E = [-1, 0, 0, 1] := by
    refine (hperm.trans ?_).eq_of_pairwise' hascending (by decide +kernel)
    rw [henergies]
    decide +kernel
  subst hE
  obtain ⟨⟨kept, hkept, hfirst⟩, merged, hmerged, hmergedFirst, _, hcounts⟩ :=
    hcut n t params none s ht hseed
  exact ⟨hm, hn, by decide, ht, hseed, kept, merged, hkept, hfirst, hmerged, hmergedFirst, hcounts⟩

end Stack
end BinaryQuadratic
