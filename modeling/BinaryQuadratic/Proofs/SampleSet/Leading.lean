import BinaryQuadratic.Proofs.SampleSet.WellFormed

namespace BinaryQuadratic

theorem zip_prefix_zip {xs xs' : List α} {ys ys' : List β} (hx : xs <+: xs') (hy : ys <+: ys') :
    xs.zip ys <+: xs'.zip ys' := by
  induction xs generalizing xs' ys ys' with
  | nil => exact List.nil_prefix
  | cons x xs ih =>
    cases ys with
    | nil => exact List.nil_prefix
    | cons y ys =>
      obtain ⟨xs', rfl, hxs⟩ := List.cons_prefix_iff.mp hx
      obtain ⟨ys', rfl, hys⟩ := List.cons_prefix_iff.mp hy
      exact List.cons_prefix_cons.mpr ⟨rfl, ih hxs hys⟩

namespace SampleSet

variable {V R : Type}

/-- `s` is what `s'` begins with: the first rows of the same columns, with their energies and
counts. -/
structure Leads (s s' : SampleSet V R) : Prop where
  labels : s.labels = s'.labels
  vartype : s.vartype = s'.vartype
  width : s.samples.ncols = s'.samples.ncols
  rows : s.samples.rows <+: s'.samples.rows
  energies : s.energies <+: s'.energies
  occurrences : s.occurrences <+: s'.occurrences

variable {s s' : SampleSet V R}

theorem Leads.records (h : s.Leads s') : s.records <+: s'.records :=
  (zip_prefix_zip h.rows (zip_prefix_zip h.energies h.occurrences)).map _

theorem Leads.changeVartype (h : s.Leads s') (t : Vartype) :
    (s.changeVartype t).Leads (s'.changeVartype t) := by
  refine ⟨h.labels, rfl, h.width, ?_, h.energies, h.occurrences⟩
  rw [SampleSet.changeVartype, SampleSet.changeVartype, h.vartype]
  exact h.rows.map _

/-- Sets that come after bear on nothing but the end of what is joined. -/
theorem concatenate_prefix [DecidableEq V] {sets sets' : List (SampleSet V R)} (hne : sets ≠ [])
    (hsets : sets <+: sets') (h : concatenate sets' = .ok s') :
    ∃ s, concatenate sets = .ok s ∧ s.Leads s' := by
  obtain ⟨_, hsame, hrows, henergies, hoccurrences⟩ := concatenate_ok h
  have hsame' := fun p hp => hsame p (hsets.subset hp)
  obtain ⟨s, hs⟩ := concatenate_of_same hne hsame'
  obtain ⟨_, hself, hrows₁, henergies₁, hoccurrences₁⟩ := concatenate_ok hs
  obtain ⟨p, hp⟩ := List.exists_mem_of_ne_nil sets hne
  refine ⟨s, hs, (hself p hp).1.symm.trans (hsame' p hp).1,
    (hself p hp).2.1.symm.trans (hsame' p hp).2.1,
    (hself p hp).2.2.symm.trans (hsame' p hp).2.2, ?_, ?_, ?_⟩
  · rw [hrows₁, hrows]
    exact hsets.flatMap _
  · rw [henergies₁, henergies]
    exact hsets.flatMap _
  · rw [hoccurrences₁, hoccurrences]
    exact hsets.flatMap _

end SampleSet
end BinaryQuadratic
