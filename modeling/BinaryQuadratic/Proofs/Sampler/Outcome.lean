import BinaryQuadratic.Proofs.Params
import BinaryQuadratic.Sampler.Basic

namespace BinaryQuadratic.SampleM

variable {σ V α β : Type}

/-- What a run gives, and the session after it. -/
def outcome (x : SampleM σ V α) (s : Session σ) : Except (SampleError V) α × Session σ :=
  StateT.run (ExceptT.run x) s

theorem outcome_pure (a : α) (s : Session σ) :
    outcome (pure a : SampleM σ V α) s = (.ok a, s) :=
  rfl

theorem outcome_throw (e : SampleError V) (s : Session σ) :
    outcome (throw e : SampleM σ V α) s = (.error e, s) :=
  rfl

/-- The second run starts from the session that the first one left, unless that failed. -/
theorem outcome_bind (x : SampleM σ V α) (f : α → SampleM σ V β) (s : Session σ) :
    outcome (x >>= f) s = match outcome x s with
      | (.ok a, s') => outcome (f a) s'
      | (.error e, s') => (.error e, s') := by
  change (match StateT.run (ExceptT.run x) s with
    | (a, s') => StateT.run (ExceptT.bindCont f a) s') = _
  unfold outcome
  rcases StateT.run (ExceptT.run x) s with ⟨a | e, s'⟩ <;> rfl

theorem bind_outcome_ok {x : SampleM σ V α} {f : α → SampleM σ V β} {s s' : Session σ} {b : β} :
    outcome (x >>= f) s = (.ok b, s') ↔
      ∃ a s₁, outcome x s = (.ok a, s₁) ∧ outcome (f a) s₁ = (.ok b, s') := by
  rw [outcome_bind]
  rcases outcome x s with ⟨e | a, s₁⟩
  · simp
  · simp only [Prod.mk.injEq, Except.ok.injEq]
    constructor
    · exact fun h => ⟨a, s₁, ⟨rfl, rfl⟩, h⟩
    · rintro ⟨_, _, ⟨rfl, rfl⟩, h⟩
      exact h

theorem outcome_logged (x : Logging α) (s : Session σ) :
    outcome (logged x : SampleM σ V α) s =
      (.ok (x.run s.warnings).1, { s with warnings := (x.run s.warnings).2 }) :=
  rfl

theorem outcome_warnUnknown (params : Params) (declared : Parameters) (s : Session σ) :
    outcome (logged (params.warnUnknown declared) : SampleM σ V Unit) s =
      (.ok (), { s with warnings := s.warnings ++ params.unknown declared }) := by
  rw [outcome_logged, Params.run_warnUnknown]

theorem outcome_bits_seed (seed : UInt64) (s : Session σ) :
    outcome (bits (some seed) : SampleM σ V BitSource) s = (.ok (s.randomness.ofSeed seed), s) :=
  rfl

theorem outcome_ofModel (x : Except (ModelError V) α) (s : Session σ) :
    outcome (ofModel x) s = (x.mapError .model, s) := by
  cases x <;> rfl

theorem outcome_ofParam (x : Except ParamError α) (s : Session σ) :
    outcome (ofParam x : SampleM σ V α) s = (x.mapError .param, s) := by
  cases x <;> rfl

theorem ofModel_outcome_ok {x : Except (ModelError V) α} {s s' : Session σ} {a : α} :
    outcome (ofModel x) s = (.ok a, s') ↔ x = .ok a ∧ s = s' := by
  rw [outcome_ofModel]
  cases x <;> simp [Except.mapError]

theorem ofParam_outcome_ok {x : Except ParamError α} {s s' : Session σ} {a : α} :
    outcome (ofParam x : SampleM σ V α) s = (.ok a, s') ↔ x = .ok a ∧ s = s' := by
  rw [outcome_ofParam]
  cases x <;> simp [Except.mapError]

end BinaryQuadratic.SampleM
