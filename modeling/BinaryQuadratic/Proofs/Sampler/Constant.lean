import BinaryQuadratic.Proofs.Sampler.Outcome
import BinaryQuadratic.Sampler.Exhaustive

namespace BinaryQuadratic

namespace SampleM

variable {σ V α β : Type}

/-- The result depends on nothing in the session. -/
def Constant (x : SampleM σ V α) : Prop :=
  ∀ s s', (outcome x s).1 = (outcome x s').1

theorem Constant.pure (a : α) : Constant (pure a : SampleM σ V α) :=
  fun _ _ => rfl

theorem Constant.throw (e : SampleError V) : Constant (throw e : SampleM σ V α) :=
  fun _ _ => rfl

theorem Constant.logged (x : Logging Unit) : Constant (logged x : SampleM σ V Unit) :=
  fun _ _ => rfl

theorem Constant.ofModel (x : Except (ModelError V) α) : Constant (ofModel x : SampleM σ V α) := by
  intro s s'
  rw [outcome_ofModel, outcome_ofModel]

theorem result_ofModel_ok {x : Except (ModelError V) α} {s : Session σ} {a : α} :
    (outcome (ofModel x) s).1 = .ok a ↔ x = .ok a := by
  rw [outcome_ofModel]
  cases x <;> simp [Except.mapError]

/-- It makes no difference in which session the second part runs. -/
theorem Constant.bind_ok {x : SampleM σ V α} {f : α → SampleM σ V β} (hf : ∀ a, Constant (f a))
    (s : Session σ) {b : β} : (outcome (x >>= f) s).1 = .ok b ↔
      ∃ a, (outcome x s).1 = .ok a ∧ (outcome (f a) s).1 = .ok b := by
  rw [outcome_bind]
  rcases outcome x s with ⟨e | a, s'⟩
  · simp
  · simp [hf a s' s]

theorem Constant.bind {x : SampleM σ V α} {f : α → SampleM σ V β} (hx : Constant x)
    (hf : ∀ a, Constant (f a)) : Constant (x >>= f) := by
  intro s s'
  have hresult := hx s s'
  rw [outcome_bind, outcome_bind]
  cases hrun : outcome x s with
  | mk r s₁ =>
    cases hrun' : outcome x s' with
    | mk r' s₁' =>
      rw [hrun, hrun'] at hresult
      obtain rfl : r = r' := hresult
      cases r with
      | error e => rfl
      | ok a => exact hf a s₁ s₁'

theorem Constant.mapM {f : α → SampleM σ V β} (hf : ∀ a, Constant (f a)) (as : List α) :
    Constant (as.mapM f) := by
  induction as with
  | nil => exact .pure _
  | cons a as ih =>
    rw [List.mapM_cons]
    exact .bind (hf a) (fun _ => .bind ih (fun _ => .pure _))

theorem Constant.mapM_cons_ok {f : α → SampleM σ V β} (hf : ∀ a, Constant (f a)) {a : α}
    {as : List α} (s : Session σ) {bs : List β} : (outcome ((a :: as).mapM f) s).1 = .ok bs ↔
      ∃ b rest, (outcome (f a) s).1 = .ok b ∧ (outcome (as.mapM f) s).1 = .ok rest ∧
        b :: rest = bs := by
  have hrest : ∀ b, Constant (as.mapM f >>= fun rest => Pure.pure (b :: rest)) :=
    fun b => .bind (mapM hf as) (fun _ => .pure _)
  rw [List.mapM_cons, bind_ok hrest]
  simp only [bind_ok (fun _ => Constant.pure _), outcome_pure, Except.ok.injEq]
  constructor
  · rintro ⟨b, hb, rest, hrest, he⟩
    exact ⟨b, rest, hb, hrest, he⟩
  · rintro ⟨b, rest, hb, hrest, he⟩
    exact ⟨b, hb, rest, hrest, he⟩

/-- A run over fewer elements succeeds where one that goes on after them does. -/
theorem Constant.mapM_prefix {f : α → SampleM σ V β} (hf : ∀ a, Constant (f a)) {as as' : List α}
    (h : as <+: as') {s : Session σ} {bs' : List β} (hb : (outcome (as'.mapM f) s).1 = .ok bs') :
    ∃ bs, (outcome (as.mapM f) s).1 = .ok bs ∧ bs <+: bs' ∧ bs.length = as.length := by
  induction as generalizing as' bs' with
  | nil => exact ⟨[], rfl, List.nil_prefix, rfl⟩
  | cons a as ih =>
    obtain ⟨as', rfl, htail⟩ := List.cons_prefix_iff.mp h
    obtain ⟨b, rest', ha, hrest', rfl⟩ := (mapM_cons_ok hf s).mp hb
    obtain ⟨rest, hrest, hprefix, hlength⟩ := ih htail hrest'
    refine ⟨b :: rest, (mapM_cons_ok hf s).mpr ⟨b, rest, ha, hrest, rfl⟩, ?_, ?_⟩
    · exact List.cons_prefix_cons.mpr ⟨rfl, hprefix⟩
    · rw [List.length_cons, List.length_cons, hlength]

end SampleM

open SampleM

theorem ExhaustiveSampler.constant {σ V R : Type} [DecidableEq V] [Coefficient R]
    (e : ExhaustiveSampler) (m : Model V R) (params : Params) :
    Constant (e.sampler.sample m params : SampleM σ V (SampleSet V R)) := by
  refine .bind (.logged _) (fun _ => ?_)
  split
  · exact .pure _
  split
  · exact .throw _
  · exact .throw _
  · exact .ofModel _

end BinaryQuadratic
