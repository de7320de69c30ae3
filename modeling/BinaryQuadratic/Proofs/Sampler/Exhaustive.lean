import BinaryQuadratic.Proofs.Enumeration
import BinaryQuadratic.Proofs.Model.Reachable
import BinaryQuadratic.Proofs.SampleSet.OfModel
import BinaryQuadratic.Proofs.SampleSet.WellFormed
import BinaryQuadratic.Proofs.Sampler.Outcome
import BinaryQuadratic.Sampler.Exhaustive

namespace BinaryQuadratic.ExhaustiveSampler
open SampleM

variable {σ V R : Type} [DecidableEq V] [Coefficient R]

/-- Every assignment of a model with the energy that the model gives it. -/
def evaluated (m : Model V R) (samples : Matrix) : SampleSet V R :=
  ⟨m.labels, samples, samples.rows.map m.evaluate, List.replicate samples.rows.length 1, m.vartype⟩

omit [DecidableEq V] [Coefficient R] in
theorem fits_of_enumerate {m : Model V R} {samples : Matrix}
    (h : enumerate m.vartype m.numVariables = .ok samples) :
    samples.ncols = m.numVariables ∧ ∀ row, row ∈ samples.rows ↔ m.Fits row := by
  obtain ⟨hwidth, hrows⟩ := enumerate_ok h
  refine ⟨hwidth, fun row => ?_⟩
  rw [hrows, mem_assignments]
  rfl

omit [DecidableEq V] in
theorem wellFormed_evaluated {m : Model V R} {samples : Matrix}
    (h : enumerate m.vartype m.numVariables = .ok samples) : (evaluated m samples).WellFormed := by
  obtain ⟨hwidth, hfit⟩ := fits_of_enumerate h
  refine ⟨?_, List.length_map .., List.length_replicate, fun row hr => ((hfit row).mp hr).2⟩
  rw [evaluated, Model.length_labels, hwidth]

/-- A model with variables gets all its assignments, or the error of the enumeration. Parameters
only cause warnings. -/
theorem sample_of_enumerate {m : Model V R} (hm : m.WellFormed) (hn : m.isEmpty = false)
    {samples : Matrix} (h : enumerate m.vartype m.numVariables = .ok samples)
    (e : ExhaustiveSampler) (params : Params) (s : Session σ) :
    outcome (e.sample m params) s = (.ok (evaluated m samples),
      { s with warnings := s.warnings ++ params.unknown e.parameters }) := by
  obtain ⟨hwidth, hfit⟩ := fits_of_enumerate h
  rw [ExhaustiveSampler.sample, outcome_bind, outcome_warnUnknown]
  simp only [hn, Bool.false_eq_true, ↓reduceIte, h]
  rw [outcome_ofModel, SampleSet.ofModel_labels hm hwidth (fun row hr => (hfit row).mp hr)]
  rfl

theorem sample_of_isEmpty {m : Model V R} (h : m.isEmpty = true) (e : ExhaustiveSampler)
    (params : Params) (s : Session σ) :
    outcome (e.sample m params) s = (.ok (.empty m.vartype),
      { s with warnings := s.warnings ++ params.unknown e.parameters }) := by
  rw [ExhaustiveSampler.sample, outcome_bind, outcome_warnUnknown]
  simp only [h, ↓reduceIte, outcome_pure]

/-- What an exhaustive sampler returns is nothing for a model without variables, and all
assignments for any other. -/
theorem sample_ok {m : Model V R} (hm : m.WellFormed) {e : ExhaustiveSampler} {params : Params}
    {s s' : Session σ} {set : SampleSet V R}
    (h : outcome (e.sample m params) s = (.ok set, s')) :
    (m.isEmpty = true ∧ set = .empty m.vartype) ∨
      ∃ samples, m.isEmpty = false ∧ enumerate m.vartype m.numVariables = .ok samples ∧
        set = evaluated m samples := by
  cases hn : m.isEmpty with
  | true =>
    rw [sample_of_isEmpty hn] at h
    cases h
    exact .inl ⟨rfl, rfl⟩
  | false =>
    cases henum : enumerate m.vartype m.numVariables with
    | ok samples =>
      rw [sample_of_enumerate hm hn henum] at h
      simp only [Prod.mk.injEq, Except.ok.injEq] at h
      exact .inr ⟨samples, rfl, rfl, h.1.symm⟩
    | error why =>
      rw [ExhaustiveSampler.sample, outcome_bind, outcome_warnUnknown] at h
      simp only [hn, Bool.false_eq_true, ↓reduceIte, henum] at h
      cases why <;> simp [outcome_throw] at h

/-- A model whose assignments can be enumerated gets them all: in lexicographic order, each once
and counted once, row `r` spelling `r` in base two, with the energies of the model. -/
theorem every_assignment_once (m : Model V R) (hm : m.Reachable) (hn : m.numVariables ≠ 0)
    (samples : Matrix) (h : enumerate m.vartype m.numVariables = .ok samples)
    (e : ExhaustiveSampler) (params : Params) (s : Session σ) :
    ∃ set, (outcome (e.sampler.sample m params) s).1 = .ok set ∧
      set.labels = m.labels ∧ set.vartype = m.vartype ∧
      set.samples.rows.length = 2 ^ m.numVariables ∧ set.samples.rows.Pairwise (· < ·) ∧
      (∀ x : List Int, x.length = m.numVariables → (∀ v ∈ x, m.vartype.contains v = true) →
        set.samples.rows.count x = 1) ∧
      (∀ row ∈ set.samples.rows,
        row.length = m.numVariables ∧ ∀ v ∈ row, m.vartype.contains v = true) ∧
      set.samples.rows.map m.energy = set.energies.map .ok ∧
      set.occurrences = List.replicate (2 ^ m.numVariables) 1 ∧
      ∀ r < 2 ^ m.numVariables, ∀ c < m.numVariables,
        (set.samples.rows[r]?).bind (·[c]?) =
          m.vartype.values[(r.testBit (m.numVariables - 1 - c)).toNat]? := by
  have hnonempty := Model.isEmpty_eq_false.mpr hn
  obtain ⟨hwidth, hfit⟩ := fits_of_enumerate h
  have hrows := (enumerate_ok h).2
  have hlength : samples.rows.length = 2 ^ m.numVariables := by rw [hrows, length_assignments]
  have hascending : samples.rows.Pairwise (· < ·) := hrows ▸ assignments_ascending _ _
  refine ⟨evaluated m samples, ?_, rfl, rfl, hlength, hascending, ?_, ?_, ?_, ?_, ?_⟩
  · exact congrArg Prod.fst (sample_of_enumerate hm.wellFormed hnonempty h e params s)
  · intro x hx hv
    have hnodup : samples.rows.Nodup := hrows ▸ nodup_assignments _ _
    exact hnodup.count.trans (if_pos ((hfit x).mpr ⟨hx, hv⟩))
  · exact fun row hr => (hfit row).mp hr
  · simp only [evaluated, List.map_map]
    exact List.map_congr_left (fun row hr => Model.energy_ok.mpr ⟨(hfit row).mp hr, rfl⟩)
  · simp [evaluated, hlength]
  · intro r hr c hc
    simp only [evaluated, hrows, assignments_eq_bitRows, List.getElem?_map]
    cases hbit : r.testBit (m.numVariables - 1 - c) <;> simp [hr, hc, bitRow, hbit, Vartype.values]

theorem every_assignment_of_two_bits :
    let m : Model String Rat := .ofQubo [(("a", "b"), 2), (("b", "b"), -1)] 0
    let s : Session Unit := ⟨[], .standard (fun _ => .stream (fun _ => false)), ()⟩
    m.Reachable ∧ m.numVariables ≠ 0 ∧ (enumerate m.vartype m.numVariables).toBool = true ∧
      ∃ set, (outcome (new.sampler.sample m .empty) s).1 = .ok set ∧ set.labels = ["a", "b"] ∧
        set.samples.rows.length = 4 ∧ set.samples.rows.map m.energy = set.energies.map .ok := by
  intro m s
  have h : m.Reachable := .ofQubo _ 0
  have hn : m.numVariables ≠ 0 := by decide
  have henum : enumerate m.vartype m.numVariables =
      .ok ⟨2, [[0, 0], [0, 1], [1, 0], [1, 1]], by decide⟩ := rfl
  obtain ⟨set, hset, hlabels, _, hlength, _, _, _, henergies, _⟩ :=
    every_assignment_once m h hn _ henum new .empty s
  exact ⟨h, hn, by decide, set, hset, hlabels, hlength, henergies⟩

end BinaryQuadratic.ExhaustiveSampler
