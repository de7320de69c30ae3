import BinaryQuadratic.Proofs.Sampler.Stack

namespace BinaryQuadratic

namespace SampleM

variable {σ V α β : Type}

/-- The result depends on nothing but the bits that seeds stand for, whatever else the session
holds, and these bits stay as they are. -/
structure Steady (x : SampleM σ V α) : Prop where
  seeds : ∀ s, (outcome x s).2.randomness.ofSeed = s.randomness.ofSeed
  result : ∀ s₁ s₂ : Session σ, s₁.randomness.ofSeed = s₂.randomness.ofSeed →
    (outcome x s₁).1 = (outcome x s₂).1

theorem Steady.pure (a : α) : Steady (pure a : SampleM σ V α) :=
  ⟨fun _ => rfl, fun _ _ _ => rfl⟩

theorem Steady.throw (e : SampleError V) : Steady (throw e : SampleM σ V α) :=
  ⟨fun _ => rfl, fun _ _ _ => rfl⟩

/-- The second part starts from sessions with the same seeds, because the first part keeps these. -/
theorem Steady.bind {x : SampleM σ V α} {f : α → SampleM σ V β} (hx : Steady x)
    (hf : ∀ a, Steady (f a)) : Steady (x >>= f) := by
  constructor
  · intro s
    have hseeds := hx.seeds s
    rw [outcome_bind]
    cases hrun : outcome x s with
    | mk r s' =>
      rw [hrun] at hseeds
      cases r with
      | error e => exact hseeds
      | ok a => exact ((hf a).seeds s').trans hseeds
  · intro s₁ s₂ hs
    have hresult := hx.result s₁ s₂ hs
    have hseeds₁ := hx.seeds s₁
    have hseeds₂ := hx.seeds s₂
    rw [outcome_bind, outcome_bind]
    cases hrun₁ : outcome x s₁ with
    | mk r s₁' =>
      cases hrun₂ : outcome x s₂ with
      | mk r' s₂' =>
        rw [hrun₁] at hresult hseeds₁
        rw [hrun₂] at hresult hseeds₂
        obtain rfl : r = r' := hresult
        cases r with
        | error e => rfl
        | ok a => exact (hf a).result s₁' s₂' (hseeds₁.trans (hs.trans hseeds₂.symm))

theorem Steady.logged (x : Logging Unit) : Steady (logged x : SampleM σ V Unit) :=
  ⟨fun _ => rfl, fun _ _ _ => rfl⟩

theorem Steady.ofModel (x : Except (ModelError V) α) : Steady (ofModel x : SampleM σ V α) := by
  cases x with
  | error e => exact .throw _
  | ok a => exact .pure a

theorem Steady.ofParam (x : Except ParamError α) : Steady (ofParam x : SampleM σ V α) := by
  cases x with
  | error e => exact .throw _
  | ok a => exact .pure a

theorem Steady.bits (seed : UInt64) : Steady (bits (some seed) : SampleM σ V BitSource) := by
  refine ⟨fun _ => rfl, fun s₁ s₂ hs => ?_⟩
  rw [outcome_bits_seed, outcome_bits_seed, hs]

end SampleM

open SampleM

variable {σ V R : Type} [DecidableEq V] [Coefficient R]

theorem ExhaustiveSampler.steady (e : ExhaustiveSampler) (m : Model V R) (params : Params) :
    Steady (e.sample m params : SampleM σ V (SampleSet V R)) := by
  refine .bind (.logged _) (fun _ => ?_)
  split
  · exact .pure _
  split
  · exact .throw _
  · exact .throw _
  · exact .ofModel _

namespace SpinReversal

theorem steady_transforms {child : Sampler σ V R} (h : ∀ m params, Steady (child.sample m params))
    (m : Model V R) (params : Params) (n : Nat) (source : BitSource) :
    Steady (transforms child m params n source) := by
  induction n generalizing source with
  | zero => exact .pure _
  | succ n ih =>
    have htransform : ∀ flips, Steady (transform child m params flips) := fun flips =>
      .bind (.ofModel _) (fun _ => .bind (h _ _) (fun _ => .ofModel _))
    exact .bind (htransform _) (fun _ => .bind (ih _) (fun _ => .pure _))

/-- A layer with a seed draws nothing from elsewhere. Its child is given no seed, and so has to be
steady without one. -/
theorem steady {child : Sampler σ V R} (h : ∀ m params, Steady (child.sample m params))
    (m : Model V R) {params : Params} {seed : UInt64} (hseed : seedAsked params = .ok (some seed)) :
    Steady (sample child m params) := by
  have hgiven : (ofParam (.ok (some seed)) : SampleM σ V (Option UInt64)) = pure (some seed) := rfl
  rw [sample_eq, hseed]
  simp only [hgiven, pure_bind]
  refine .bind (.logged _) (fun _ => .bind (.ofParam _) (fun count => ?_))
  refine .bind (.bits seed) (fun source => ?_)
  exact .bind (steady_transforms h _ _ _ source) (fun _ => .bind (.ofModel _) (fun _ => .pure _))

end SpinReversal

namespace Stack

/-- The number of layers that draw random flips. -/
def reversals : Stack → Nat
  | exhaustive _ => 0
  | spinReversal child => child.reversals + 1
  | truncate child _ => child.reversals

theorem steady_of_no_reversal (stack : Stack) (h : stack.reversals = 0) (m : Model V R)
    (params : Params) : Steady (stack.sampler.sample m params : SampleM σ V (SampleSet V R)) := by
  induction stack with
  | exhaustive e => exact e.steady m params
  | spinReversal child => simp [reversals] at h
  | truncate child config ih => exact .bind (ih h) (fun _ => .pure _)

theorem steady_of_seed (stack : Stack) (h : stack.reversals ≤ 1) (m : Model V R) {params : Params}
    {seed : UInt64} (hseed : SpinReversal.seedAsked params = .ok (some seed)) :
    Steady (stack.sampler.sample m params : SampleM σ V (SampleSet V R)) := by
  induction stack with
  | exhaustive e => exact e.steady m params
  | spinReversal child =>
    have hchild : child.reversals = 0 := Nat.le_zero.mp (Nat.le_of_succ_le_succ h)
    exact SpinReversal.steady (child.steady_of_no_reversal hchild) m hseed
  | truncate child config ih => exact .bind (ih h) (fun _ => .pure _)

/-- Where at most one layer draws flips, a seed settles the result: neither entropy nor anything
else in the session bears on it. -/
theorem seeded_runs_agree (stack : Stack) (hstack : stack.reversals ≤ 1) (m : Model V R)
    (params : Params) (value : Value) (seed : UInt64)
    (hvalue : params.get? SpinReversal.seedName = some value) (hseed : value.asUInt64? = some seed)
    (s₁ s₂ : Session σ) (hs : s₁.randomness.ofSeed = s₂.randomness.ofSeed) :
    (outcome (stack.sampler.sample m params) s₁).1 =
      (outcome (stack.sampler.sample m params) s₂).1 := by
  have hasked : SpinReversal.seedAsked params = .ok (some seed) := by
    rw [SpinReversal.seedAsked, Params.takeUInt64_of_get? hvalue hseed]
  exact (stack.steady_of_seed hstack m hasked).result s₁ s₂ hs

theorem seeded_flips_agree :
    let m : Model String Rat := .ofQubo [(("a", "b"), 2), (("b", "b"), -1)] 0
    let params := Params.ofList [(SpinReversal.seedName, .int 7)]
    let s (b : Bool) : Session Unit := ⟨[], .standard (fun _ => .stream (fun _ => b)), ()⟩
    let stack : Stack :=
      .truncate (.spinReversal (.exhaustive .new)) ⟨⟨3, by decide⟩, .unsorted, false⟩
    let run (b : Bool) := (outcome (stack.sampler.sample m params) (s b)).1
    stack.reversals ≤ 1 ∧ params.get? SpinReversal.seedName = some (.int 7) ∧
      (Value.int 7).asUInt64? = some 7 ∧
      (s false).randomness.ofSeed = (s true).randomness.ofSeed ∧ run false = run true ∧
      (run true).toOption.map (·.samples.rows) = some [[1, 0], [1, 1], [0, 0]] := by
  intro m params s stack run
  have hstack : stack.reversals ≤ 1 := by decide
  have hvalue : params.get? SpinReversal.seedName = some (.int 7) := rfl
  have hseed : (Value.int 7).asUInt64? = some 7 := by decide
  have hsame : run false = run true :=
    seeded_runs_agree stack hstack m params (.int 7) 7 hvalue hseed (s false) (s true) rfl
  have hrows : (run false).toOption.map (·.samples.rows) = some [[1, 0], [1, 1], [0, 0]] := by
    decide +kernel
  exact ⟨hstack, hvalue, hseed, rfl, hsame, hsame ▸ hrows⟩

/-- Of two layers that draw flips, the outer one takes the seed and the inner one draws from
entropy. -/
theorem seed_stops_at_first_reversal :
    let m : Model String Rat := .ofQubo [(("a", "a"), 1)] 0
    let params := Params.ofList [(SpinReversal.seedName, .int 7)]
    let s (b : Bool) : Session Unit := ⟨[], .standard (fun _ => .stream (fun _ => b)), ()⟩
    let stack : Stack := .spinReversal (.spinReversal (.exhaustive .new))
    params.get? SpinReversal.seedName = some (.int 7) ∧ (Value.int 7).asUInt64? = some 7 ∧
      (s false).randomness.ofSeed = (s true).randomness.ofSeed ∧
      (outcome (stack.sampler.sample m params) (s false)).1 ≠
        (outcome (stack.sampler.sample m params) (s true)).1 := by
  intro m params s stack
  refine ⟨rfl, by decide, rfl, fun h => ?_⟩
  have hrows := congrArg (fun r => r.toOption.map (·.samples.rows)) h
  revert hrows
  decide +kernel

end Stack
end BinaryQuadratic
