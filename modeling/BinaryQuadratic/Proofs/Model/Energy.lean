import BinaryQuadratic.Model.Energy
import BinaryQuadratic.Proofs.Fallible

namespace BinaryQuadratic.Model

variable {V R : Type}

/-- One value of the domain for each variable. -/
def Fits (m : Model V R) (sample : List Int) : Prop :=
  sample.length = m.numVariables ∧ ∀ x ∈ sample, m.vartype.contains x = true

variable [Coefficient R]

/-- Samples that fit are exactly those that have an energy. -/
theorem energy_ok {m : Model V R} {sample : List Int} {e : R} :
    m.energy sample = .ok e ↔ m.Fits sample ∧ e = m.evaluate sample := by
  unfold energy Fits
  by_cases hn : sample.length = m.numVariables
  · cases hf : sample.find? (fun x => !m.vartype.contains x) with
    | none =>
      have hall : ∀ x ∈ sample, m.vartype.contains x = true := by
        intro x hx
        simpa using List.find?_eq_none.mp hf x hx
      simp only [hn, ne_eq, not_true, ↓reduceIte, Except.ok.injEq, true_and]
      exact ⟨fun he => ⟨hall, he.symm⟩, fun he => he.2.symm⟩
    | some x =>
      have hx := List.find?_some hf
      have hm := List.mem_of_find?_eq_some hf
      simp only [hn, ne_eq, not_true, ↓reduceIte, reduceCtorEq, true_and, false_iff, not_and]
      intro hall
      simp [hall x hm] at hx
  · simp [hn]

theorem energies_of_fits {m : Model V R} {samples : List (List Int)}
    (h : ∀ x ∈ samples, m.Fits x) : m.energies samples = .ok (samples.map m.evaluate) :=
  mapM_eq_pure (fun x hx => energy_ok.mpr ⟨h x hx, rfl⟩)

theorem energies_ok {m : Model V R} {samples : List (List Int)} {es : List R} :
    m.energies samples = .ok es ↔ (∀ x ∈ samples, m.Fits x) ∧ es = samples.map m.evaluate := by
  constructor
  · intro h
    have hfits : ∀ x ∈ samples, m.Fits x := by
      intro x hx
      obtain ⟨e, he⟩ := exists_of_mapM_ok h x hx
      exact (energy_ok.mp he).1
    rw [energies_of_fits hfits] at h
    exact ⟨hfits, (Except.ok.inj h).symm⟩
  · rintro ⟨hfits, rfl⟩
    exact energies_of_fits hfits

end BinaryQuadratic.Model
