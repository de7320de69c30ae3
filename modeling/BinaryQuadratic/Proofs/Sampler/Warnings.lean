import BinaryQuadratic.Proofs.Sampler.Stack

namespace BinaryQuadratic

namespace SampleM

variable {σ V α β : Type}

/-- The warnings that a run adds to those of the session, whether it succeeds or fails. -/
def Logs (x : SampleM σ V α) (ws : List Warning) : Prop :=
  ∀ s, (outcome x s).2.warnings = s.warnings ++ ws

theorem Logs.pure (a : α) : Logs (pure a : SampleM σ V α) [] :=
  fun s => (List.append_nil s.warnings).symm

theorem Logs.throw (e : SampleError V) : Logs (throw e : SampleM σ V α) [] :=
  fun s => (List.append_nil s.warnings).symm

theorem Logs.warnUnknown (params : Params) (declared : Parameters) :
    Logs (logged (params.warnUnknown declared) : SampleM σ V Unit) (params.unknown declared) := by
  intro s
  rw [outcome_warnUnknown]

theorem Logs.ofModel (x : Except (ModelError V) α) : Logs (ofModel x : SampleM σ V α) [] := by
  cases x with
  | error e => exact .throw _
  | ok a => exact .pure a

theorem Logs.ofParam (x : Except ParamError α) : Logs (ofParam x : SampleM σ V α) [] := by
  cases x with
  | error e => exact .throw _
  | ok a => exact .pure a

theorem Logs.bits (seed : Option UInt64) : Logs (bits seed : SampleM σ V BitSource) [] := by
  cases seed with
  | none => exact fun s => (List.append_nil s.warnings).symm
  | some seed => exact fun s => (List.append_nil s.warnings).symm

/-- Where the rest of a run is silent, it makes no difference whether the rest is reached. -/
theorem Logs.bind {x : SampleM σ V α} {f : α → SampleM σ V β} {ws : List Warning} (hx : Logs x ws)
    (hf : ∀ a, Logs (f a) []) : Logs (x >>= f) ws := by
  intro s
  have hwarnings := hx s
  rw [outcome_bind]
  cases hrun : outcome x s with
  | mk r s' =>
    rw [hrun] at hwarnings
    cases r with
    | error e => exact hwarnings
    | ok a =>
      calc (outcome (f a) s').2.warnings = s'.warnings ++ [] := hf a s'
        _ = s'.warnings := List.append_nil _
        _ = s.warnings ++ ws := hwarnings

end SampleM

open SampleM

variable {σ V R : Type}

/-- Names that a layer leaves over for its child are known to the child: the layer declares no
others but the two that it takes itself. -/
theorem SpinReversal.unknown_remaining (child : Sampler σ V R) (params : Params) :
    (remaining child params).unknown child.parameters = [] := by
  rw [Params.unknown_eq_nil]
  intro name hleft
  simp only [remaining, Params.get?_erase, Params.get?_known] at hleft
  by_cases hseed : name = seedName
  · simp [hseed] at hleft
  by_cases htransforms : name = transformsName
  · simp [htransforms] at hleft
  by_cases hdeclared : (parametersOver child).contains name = true
  · have hnames : seedName ≠ name ∧ transformsName ≠ name :=
      ⟨fun h => hseed h.symm, fun h => htransforms h.symm⟩
    simpa [parametersOver, NameMap.contains_insert, hnames] using hdeclared
  · simp [hdeclared] at hleft

/-- Each call is answered by one warning for each unknown name, and no other. -/
def Sampler.ReportsUnknown (sampler : Sampler σ V R) : Prop :=
  ∀ m params, Logs (sampler.sample m params) (params.unknown sampler.parameters)

theorem TruncateConfig.reportsUnknown [Coefficient R] {child : Sampler σ V R}
    (h : child.ReportsUnknown) (config : TruncateConfig) :
    (Composite.truncate child config).ReportsUnknown :=
  fun m params => .bind (h m params) (fun _ => .pure _)

variable [DecidableEq V] [Coefficient R]

theorem ExhaustiveSampler.reportsUnknown (e : ExhaustiveSampler) :
    (e.sampler : Sampler σ V R).ReportsUnknown := by
  intro m params
  refine .bind (.warnUnknown _ _) (fun _ => ?_)
  split
  · exact .pure _
  split
  · exact .throw _
  · exact .throw _
  · exact .ofModel _

namespace SpinReversal

/-- However often a silent child is called, nothing is logged. -/
theorem logs_transforms {child : Sampler σ V R} {params : Params}
    (h : ∀ m, Logs (child.sample m params) []) (m : Model V R) (n : Nat) (source : BitSource) :
    Logs (transforms child m params n source) [] := by
  induction n generalizing source with
  | zero => exact .pure _
  | succ n ih =>
    have htransform : ∀ flips, Logs (transform child m params flips) [] := fun flips =>
      .bind (.ofModel _) (fun _ => .bind (h _) (fun _ => .ofModel _))
    exact .bind (htransform _) (fun _ => .bind (ih _) (fun _ => .pure _))

theorem reportsUnknown {child : Sampler σ V R} (h : child.ReportsUnknown) :
    (Composite.spinReversal child).ReportsUnknown := by
  intro m params
  have hchild : ∀ m', Logs (child.sample m' (remaining child params)) [] := by
    intro m'
    rw [← unknown_remaining child params]
    exact h m' (remaining child params)
  change Logs (sample child m params) (params.unknown (parametersOver child))
  rw [sample_eq]
  refine .bind (.warnUnknown _ _) (fun _ => .bind (.ofParam _) (fun count => ?_))
  refine .bind (.ofParam _) (fun seed => .bind (.bits seed) (fun source => ?_))
  exact .bind (logs_transforms hchild _ _ source) (fun _ => .bind (.ofModel _) (fun _ => .pure _))

end SpinReversal

namespace Stack

theorem reportsUnknown (stack : Stack) : (stack.sampler : Sampler σ V R).ReportsUnknown := by
  induction stack with
  | exhaustive e => exact e.reportsUnknown
  | spinReversal child ih => exact SpinReversal.reportsUnknown ih
  | truncate child config ih => exact TruncateConfig.reportsUnknown ih config

/-- A call on the outermost layer warns once of each name that this layer does not declare, in the
order of the names, and of nothing else, however many calls the layers below get and whether the
call succeeds or fails. -/
theorem unknown_names_reported_once (stack : Stack) (m : Model V R) (params : Params)
    (s : Session σ) :
    ∃ names : List String,
      (outcome (stack.sampler.sample m params) s).2.warnings =
        s.warnings ++ names.map .unknownParameter ∧
      names.Pairwise (· < ·) ∧
      ∀ name, name ∈ names ↔ params.contains name = true ∧
        (stack.sampler : Sampler σ V R).parameters.contains name = false := by
  refine ⟨params.names.filter
    (fun name => !(stack.sampler : Sampler σ V R).parameters.contains name),
    stack.reportsUnknown m params s, params.names_ascending.filter _, fun name => ?_⟩
  rw [List.mem_filter, Params.mem_names, Bool.not_eq_true']

end Stack
end BinaryQuadratic
