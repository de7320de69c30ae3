import BinaryQuadratic.Proofs.Model.InPlace
import BinaryQuadratic.Proofs.Model.WellFormed

namespace BinaryQuadratic.Model

variable {V R : Type} [DecidableEq V] [Coefficient R]

/-- A call that may change a model. -/
inductive Edit (V R : Type) where
  | addVariable (v : V) (x : R)
  | addInteraction (u v : V) (x : R)
  | addOffset (x : R)
  | changeVartype (t : Vartype)
  | flipVariable (v : V)

namespace Edit

def perform : Edit V R → InPlace V R Unit
  | addVariable v x => do
    let _ ← addVariableInPlace v x
  | addInteraction u v x => addInteractionInPlace u v x
  | addOffset x => modify (·.addOffset x)
  | changeVartype t => modify (·.changeVartype t)
  | flipVariable v => flipInPlace v

/-- The model as a call leaves it, whether it succeeds or fails. -/
def apply (m : Model V R) (e : Edit V R) : Model V R :=
  (e.perform.run.run m).2

variable (m : Model V R)

theorem apply_addInteraction (u v : V) (x : R) :
    (addInteraction u v x).apply m = (settled m (m.addInteraction u v x)).2 :=
  congrArg Prod.snd (run_addInteractionInPlace m u v x)

theorem apply_flipVariable (v : V) :
    (flipVariable v).apply m = (settled m (m.flipVariable v)).2 :=
  congrArg Prod.snd (run_flipInPlace m v)

end Edit

/-- Models that come from a constructor or out of a file, and from any run of calls after. -/
inductive Reachable : Model V R → Prop where
  | empty (t : Vartype) : Reachable (empty t)
  | ofIsing (h : List (V × R)) (j : List ((V × V) × R)) (offset : R) {m : Model V R}
      (made : ofIsing h j offset = .ok m) : Reachable m
  | ofQubo (q : List ((V × V) × R)) (offset : R) : Reachable (ofQubo q offset)
  | ofEntries (entries : List (V × R)) (offset : R) (t : Vartype) :
      Reachable (ofEntries entries offset t)
  | edit {m : Model V R} (before : Reachable m) (e : Edit V R) : Reachable (e.apply m)

/-- Whatever is read from JSON is reachable: a file holds no interactions. -/
theorem reachable_ofJson? {j : Json} {m : Model Label Float} (h : ofJson? j = some m) :
    m.Reachable := by
  simp only [ofJson?, bind, Option.bind_eq_some_iff] at h
  obtain ⟨parts, _, h⟩ := h
  split at h
  · simp only [Option.bind_eq_some_iff] at h
    obtain ⟨entries, _, offset, _, t, _, he⟩ := h
    cases he
    exact .ofEntries entries offset t
  · cases h

/-- One call keeps the invariant, whether it succeeds or not. -/
theorem WellFormed.apply {m : Model V R} (h : m.WellFormed) (e : Edit V R) :
    (e.apply m).WellFormed := by
  cases e with
  | addVariable v x => exact h.addVariable v x
  | addInteraction u v x =>
    rw [Edit.apply_addInteraction]
    cases ha : m.addInteraction u v x with
    | error why => exact h
    | ok m' => exact h.addInteraction ha
  | addOffset x => exact h.addOffset x
  | changeVartype t => exact h.changeVartype t
  | flipVariable v =>
    rw [Edit.apply_flipVariable]
    cases hf : m.flipVariable v with
    | error why => exact h
    | ok m' => exact h.flipVariable hf

theorem Reachable.wellFormed {m : Model V R} (h : m.Reachable) : m.WellFormed := by
  induction h with
  | empty t => exact wellFormed_empty t
  | ofIsing h j offset made => exact wellFormed_ofIsing made
  | ofQubo q offset => exact wellFormed_ofQubo q offset
  | ofEntries entries offset t => exact wellFormed_ofEntries entries offset t
  | edit _ e ih => exact ih.apply e

end BinaryQuadratic.Model
