import BinaryQuadratic.Proofs.SampleSet.WellFormed

namespace BinaryQuadratic.SampleSet

variable {V R : Type} [DecidableEq V] [Coefficient R]

/-- Sets that come from a constructor, and from any run of operations after. -/
inductive Reachable : SampleSet V R → Prop where
  | empty (t : Vartype) : Reachable (empty t)
  | ofSamples {samples : Matrix} {labels : List V} {t : Vartype} {energies : List R}
      {s : SampleSet V R} (made : ofSamples samples labels t energies = .ok s) : Reachable s
  | ofModel {samples : Matrix} {labels : List V} {m : Model V R} {s : SampleSet V R}
      (made : ofModel samples labels m = .ok s) : Reachable s
  | lowest {s : SampleSet V R} (before : Reachable s) : Reachable s.lowest
  | truncate {s : SampleSet V R} (before : Reachable s) (n : Nat) (order : SortBy) :
      Reachable (s.truncate n order)
  | aggregate {s : SampleSet V R} (before : Reachable s) : Reachable s.aggregate
  | changeVartype {s : SampleSet V R} (before : Reachable s) (t : Vartype) :
      Reachable (s.changeVartype t)
  | flipVariables {s s' : SampleSet V R} (before : Reachable s) {vs : List V}
      (made : s.flipVariables vs = .ok s') : Reachable s'
  | concatenate {sets : List (SampleSet V R)} {s : SampleSet V R}
      (before : ∀ p ∈ sets, Reachable p) (made : concatenate sets = .ok s) : Reachable s

/-- A model only provides energies; the shapes are checked as for given ones. -/
theorem wellFormed_ofModel {samples : Matrix} {labels : List V} {m : Model V R}
    {s : SampleSet V R} (h : ofModel samples labels m = .ok s) : s.WellFormed := by
  obtain ⟨columns, _, h⟩ := bind_ok.mp h
  dsimp only at h
  split at h
  · obtain ⟨energies, _, h⟩ := bind_ok.mp h
    exact wellFormed_ofSamples h
  split at h
  · cases h
  · obtain ⟨energies, _, h⟩ := bind_ok.mp h
    exact wellFormed_ofSamples h

omit [DecidableEq V] in
theorem WellFormed.lowest {s : SampleSet V R} (h : s.WellFormed) : s.lowest.WellFormed := by
  unfold SampleSet.lowest
  split
  · exact h
  · exact h.select _

omit [Coefficient R] in
theorem WellFormed.flipVariables {s s' : SampleSet V R} {vs : List V} (h : s.WellFormed)
    (hs : s.flipVariables vs = .ok s') : s'.WellFormed := by
  refine foldlM_keeps ?_ h hs
  intro s₁ v s₂ h₁ hv
  obtain ⟨k, _, rfl⟩ := flipVariable_ok.mp hv
  exact h₁.flipAt k

theorem Reachable.wellFormed {s : SampleSet V R} (h : s.Reachable) : s.WellFormed := by
  induction h with
  | empty t => exact wellFormed_empty t
  | ofSamples made => exact wellFormed_ofSamples made
  | ofModel made => exact wellFormed_ofModel made
  | lowest _ ih => exact ih.lowest
  | truncate _ n order ih => exact ih.truncate n order
  | aggregate _ ih => exact ih.aggregate
  | changeVartype _ t ih => exact ih.changeVartype t
  | flipVariables _ made ih => exact ih.flipVariables made
  | concatenate _ made ih => exact .concatenate ih made

end BinaryQuadratic.SampleSet
