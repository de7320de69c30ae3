import BinaryQuadratic.Proofs.Model.Counterpart
import BinaryQuadratic.Proofs.Sampler.Exhaustive

namespace BinaryQuadratic.ExhaustiveSampler
open SampleM

section
variable {V R : Type} [Coefficient R]

/-- What an exhaustive sampler has to say about a model, whatever its parameters. -/
def answer (m : Model V R) : Except (SampleError V) (SampleSet V R) :=
  if m.isEmpty then .ok (.empty m.vartype)
  else
    match bufferSize? m.numVariables with
    | some _ => .ok (evaluated m (assignmentMatrix m.vartype m.numVariables))
    | none => .error (.tooManyVariables m.numVariables)

/-- A run answers, and leaves nothing behind but warnings. -/
theorem outcome_sample {σ : Type} [DecidableEq V] {m : Model V R} (hm : m.WellFormed)
    (e : ExhaustiveSampler) (params : Params) (s : Session σ) :
    outcome (e.sample m params) s =
      (answer m, { s with warnings := s.warnings ++ params.unknown e.parameters }) := by
  cases hempty : m.isEmpty with
  | true =>
    rw [sample_of_isEmpty hempty, answer, hempty]
    rfl
  | false =>
    have henum := enumerate_eq m.vartype m.numVariables
    cases hsize : bufferSize? m.numVariables with
    | some size =>
      rw [hsize] at henum
      rw [sample_of_enumerate hm hempty henum, answer, hempty, hsize]
      rfl
    | none =>
      rw [hsize] at henum
      rw [ExhaustiveSampler.sample, outcome_bind, outcome_warnUnknown, answer, hempty, hsize]
      simp only [Bool.false_eq_true, ↓reduceIte, henum, outcome_throw]

/-- There is no other failure than that of size. -/
theorem answer_cases (m : Model V R) :
    (∃ set, answer m = .ok set) ∨ answer m = .error (.tooManyVariables m.numVariables) := by
  unfold answer
  split
  · exact .inl ⟨_, rfl⟩
  · split
    · exact .inl ⟨_, rfl⟩
    · exact .inr rfl

end

variable {σ V : Type}

/-- The rows of both domains correspond one by one, and so do their energies. -/
theorem changeVartype_evaluated {m : Model V Rat} (hm : m.WellFormed) (t : Vartype) :
    (evaluated m (assignmentMatrix m.vartype m.numVariables)).changeVartype t =
      evaluated (m.changeVartype t) (assignmentMatrix t m.numVariables) := by
  have hrows : (assignmentMatrix t m.numVariables).rows =
      (assignmentMatrix m.vartype m.numVariables).rows.map (·.map (m.vartype.convert t)) :=
    (map_convert_assignments m.vartype t m.numVariables).symm
  have henergies : (assignmentMatrix t m.numVariables).rows.map (m.changeVartype t).evaluate =
      (assignmentMatrix m.vartype m.numVariables).rows.map m.evaluate := by
    rw [hrows, List.map_map]
    refine List.map_congr_left (fun row hr => ?_)
    exact hm.evaluate_convert (mem_assignments.mp hr) t
  have hcounts : (assignmentMatrix t m.numVariables).rows.length =
      (assignmentMatrix m.vartype m.numVariables).rows.length := by
    rw [hrows, List.length_map]
  rw [evaluated, evaluated, henergies, hcounts, Model.labels_changeVartype,
    Model.vartype_changeVartype, ← map_convert_assignmentMatrix m.vartype t]
  rfl

theorem answer_changeVartype {m : Model V Rat} (hm : m.WellFormed) (t : Vartype) :
    answer (m.changeVartype t) = (answer m).map (·.changeVartype t) := by
  rw [answer, answer, Model.isEmpty_changeVartype, Model.numVariables_changeVartype,
    Model.vartype_changeVartype]
  cases m.isEmpty with
  | true => rfl
  | false =>
    cases bufferSize? m.numVariables with
    | none => rfl
    | some size => exact congrArg Except.ok (changeVartype_evaluated hm t).symm

variable [DecidableEq V]

/-- It makes no difference whether a model is moved to another domain before it is sampled or its
samples are moved after: the same rows come in the same order with the same energies and counts, or
the model is too large for both. -/
theorem sampling_commutes_with_domain (e : ExhaustiveSampler) (m : Model V Rat) (hm : m.Reachable)
    (t : Vartype) (params : Params) (s : Session σ) :
    outcome (e.sampler.sample (m.changeVartype t) params) s =
        ((outcome (e.sampler.sample m params) s).1.map (·.changeVartype t),
          (outcome (e.sampler.sample m params) s).2) ∧
      ((∃ set, (outcome (e.sampler.sample m params) s).1 = .ok set) ∨
        (outcome (e.sampler.sample m params) s).1 =
          .error (.tooManyVariables m.numVariables)) := by
  have hrun : outcome (e.sampler.sample m params) s = (answer m, _) :=
    outcome_sample hm.wellFormed e params s
  have hrun' : outcome (e.sampler.sample (m.changeVartype t) params) s =
      (answer (m.changeVartype t), _) :=
    outcome_sample (hm.wellFormed.changeVartype t) e params s
  rw [hrun, hrun', answer_changeVartype hm.wellFormed]
  exact ⟨rfl, answer_cases m⟩

theorem sampling_bits_as_spins :
    let m : Model String Rat := .ofQubo [(("a", "b"), 2), (("b", "b"), -1)] 0
    let s : Session Unit := ⟨[], .standard (fun _ => .stream (fun _ => false)), ()⟩
    m.Reachable ∧
      ∃ set, (outcome (new.sampler.sample (m.changeVartype .spin) .empty) s).1 = .ok set ∧
        set.samples.rows = [[-1, -1], [-1, 1], [1, -1], [1, 1]] ∧
        set.energies = [0, -1, 0, 1] := by
  intro m s
  have hm : m.Reachable := .ofQubo _ 0
  let bits : SampleSet String Rat := ⟨["a", "b"], ⟨2, [[0, 0], [0, 1], [1, 0], [1, 1]], by decide⟩,
    [0, -1, 0, 1], [1, 1, 1, 1], .binary⟩
  have hbits : (outcome (new.sampler.sample m .empty) s).1 = .ok bits :=
    toOption_eq_some.mp (by decide +kernel)
  have hspins := congrArg Prod.fst (sampling_commutes_with_domain new m hm .spin .empty s).1
  rw [hbits] at hspins
  exact ⟨hm, bits.changeVartype .spin, hspins, rfl, rfl⟩

end BinaryQuadratic.ExhaustiveSampler
