import BinaryQuadratic.Model.InPlace
import BinaryQuadratic.Proofs.Fallible

namespace BinaryQuadratic.Model

variable {V R : Type} [Coefficient R]

/-- A call that succeeds leaves a new model, and one that fails the model as it was. -/
def settled (m : Model V R) :
    Except (ModelError V) (Model V R) → Except (ModelError V) Unit × Model V R
  | .ok m' => (.ok (), m')
  | .error why => (.error why, m)

theorem run_addInteractionInPlace [DecidableEq V] (m : Model V R) (u v : V) (x : R) :
    (addInteractionInPlace u v x).run.run m = settled m (m.addInteraction u v x) := by
  unfold addInteractionInPlace addInteraction
  split
  · rfl
  · rfl

/-- What an interaction of position `k` leaves to the bias of its other variable. -/
def spread (t : Vartype) (k : Nat) (l : List (V × R)) (q : (Nat × Nat) × R) : List (V × R) :=
  match t with
  | .spin => l
  | .binary =>
    if q.1.1 = k then modifyBias q.1.2 (· + q.2) l
    else if q.1.2 = k then modifyBias q.1.1 (· + q.2) l
    else l

def turned (k : Nat) (q : (Nat × Nat) × R) : (Nat × Nat) × R :=
  (q.1, if q.1.1 = k ∨ q.1.2 = k then -q.2 else q.2)

/-- A flip by its parts: first the bias, then the interactions in their order. -/
theorem flipAt_eq (m : Model V R) (k : Nat) :
    m.flipAt k = { m.flipBias k with
      linear := m.quadratic.foldl (spread m.vartype k) (modifyBias k (- ·) m.linear)
      quadratic := m.quadratic.map (turned k) } := by
  cases ht : m.vartype with
  | spin =>
    have hkept : ∀ l : List (V × R), m.quadratic.foldl (spread .spin k) l = l := fun l =>
      List.foldl_fixed' (fun _ => rfl) _
    simp only [flipAt, flipBias, ht, hkept]
    rfl
  | binary =>
    simp only [flipAt, flipBias, ht]
    rfl

/-- One interaction is dealt with, where those before it have been. -/
theorem flipInteraction_next {k : Nat} {m : Model V R} {done rest : List ((Nat × Nat) × R)}
    {q : (Nat × Nat) × R} (h : m.quadratic = done ++ q :: rest) :
    m.flipInteraction k done.length =
      { m with linear := spread m.vartype k m.linear q, quadratic := done ++ turned k q :: rest } := by
  have hq : m.quadratic[done.length]? = some q := by simp [h]
  unfold flipInteraction
  rw [hq]
  dsimp only
  split
  · rename_i hother
    have hspread : spread m.vartype k m.linear q = m.linear := by
      cases m.vartype <;> simp [spread, hother]
    have hturned : turned k q = q := by simp [turned, hother]
    rw [hspread, hturned, ← h]
  · rename_i hone
    have hone : q.1.1 = k ∨ q.1.2 = k := by tauto
    have hturned : (q.1, -q.2) = turned k q := by simp [turned, hone]
    have hquadratic {f : (Nat × Nat) × R → (Nat × Nat) × R} (hf : f q = turned k q) :
        m.quadratic.modify done.length f = done ++ turned k q :: rest := by
      rw [h, List.modify_eq_take_cons_drop (by simp)]
      simp [hf]
    rw [hquadratic hturned]
    cases m.vartype with
    | spin => rfl
    | binary =>
      by_cases hi : q.1.1 = k
      · simp [spread, hi]
      · simp [spread, hi, hone.resolve_left hi]

/-- The loop, with the interactions of `done` behind it and those of `rest` ahead. -/
theorem foldl_flipInteraction {k : Nat} {m : Model V R} {done rest : List ((Nat × Nat) × R)}
    (h : m.quadratic = done ++ rest) :
    (List.range' done.length rest.length).foldl (flipInteraction k) m =
      { m with
        linear := rest.foldl (spread m.vartype k) m.linear
        quadratic := done ++ rest.map (turned k) } := by
  induction rest generalizing m done with
  | nil => simp [← h]
  | cons q rest ih =>
    let next : Model V R :=
      { m with linear := spread m.vartype k m.linear q, quadratic := done ++ turned k q :: rest }
    have hnext : next.quadratic = (done ++ [turned k q]) ++ rest := by simp [next]
    have hrest := ih hnext
    rw [List.length_append, List.length_singleton] at hrest
    rw [List.length_cons, List.range'_succ, List.foldl_cons, flipInteraction_next h, hrest]
    simp [next]

omit [Coefficient R] in
theorem run_forM_modify (step : Model V R → Nat → Model V R) (ns : List Nat) (m : Model V R) :
    (ns.forM (fun n => modify (step · n)) : InPlace V R Unit).run.run m =
      (.ok (), ns.foldl step m) := by
  induction ns generalizing m with
  | nil => rfl
  | cons n ns ih => exact ih (step m n)

theorem run_flipAtInPlace (m : Model V R) (k : Nat) :
    (flipAtInPlace k).run.run m = (.ok (), m.flipAt k) := by
  have hloop := foldl_flipInteraction (k := k) (m := m.flipBias k) (List.nil_append _).symm
  have hsteps : (flipAtInPlace k).run.run m = (.ok (),
      (List.range (m.flipBias k).numInteractions).foldl (flipInteraction k) (m.flipBias k)) :=
    run_forM_modify (flipInteraction k) _ (m.flipBias k)
  rw [hsteps, List.range_eq_range', flipAt_eq]
  exact congrArg (Except.ok (), ·) hloop

omit [Coefficient R] in
theorem run_bind_ok {α β : Type} {x : InPlace V R α} {f : α → InPlace V R β} {m m' : Model V R}
    {a : α} (h : x.run.run m = (.ok a, m')) : (x >>= f).run.run m = (f a).run.run m' := by
  rw [ExceptT.run_bind, StateT.run_bind, h]
  rfl

/-- A flip in place does what a flip says, and nothing where that fails. -/
theorem run_flipInPlace [DecidableEq V] (m : Model V R) (v : V) :
    (flipInPlace v).run.run m = settled m (m.flipVariable v) := by
  have hget : (get : InPlace V R (Model V R)).run.run m = (.ok m, m) := rfl
  rw [flipInPlace, run_bind_ok hget, flipVariable]
  cases m.indexOf? v with
  | none => rfl
  | some k => exact run_flipAtInPlace m k

/-- Calls in a row, as long as each succeeds. -/
theorem run_flipsInPlace [DecidableEq V] {m m' : Model V R} {vs : List V}
    (h : vs.foldlM flipVariable m = .ok m') :
    (vs.forM flipInPlace).run.run m = (.ok (), m') := by
  induction vs generalizing m with
  | nil =>
    cases h
    rfl
  | cons v vs ih =>
    obtain ⟨m₁, hv, hvs⟩ := foldlM_cons_ok.mp h
    have hstep := run_flipInPlace m v
    rw [hv] at hstep
    exact (run_bind_ok hstep).trans (ih hvs)

end BinaryQuadratic.Model
