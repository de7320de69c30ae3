import BinaryQuadratic.Model.Transform

namespace BinaryQuadratic.Model

variable {V R : Type} [Coefficient R]

/-- A call that works on a model in place. What it did before an error stays done. -/
abbrev InPlace (V R : Type) :=
  ExceptT (ModelError V) (StateM (Model V R))

/-- Adds to the linear bias of `v`, and tells its position. -/
def addVariableInPlace [DecidableEq V] (v : V) (x : R) : InPlace V R Nat :=
  modifyGet (fun m =>
    let (m, i) := m.addVariable v x
    (i, m))

/-- The labels are compared before anything changes. -/
def addInteractionInPlace [DecidableEq V] (u v : V) (x : R) : InPlace V R Unit := do
  if u = v then throw (.selfLoop u)
  let i ← addVariableInPlace u Coefficient.zero
  let j ← addVariableInPlace v Coefficient.zero
  modify (·.addInteractionAt i j x)

/-- Turns the sign of the bias at position `k`; for bits, the old bias joins the offset. -/
def flipBias (k : Nat) (m : Model V R) : Model V R :=
  { m with
    linear := modifyBias k (- ·) m.linear
    offset :=
      match m.vartype with
      | .spin => m.offset
      | .binary => (m.biases[k]?).elim m.offset (m.offset + ·) }

/-- Turns the sign of interaction number `n`, if it is one of position `k`; for bits, the old bias
joins that of the other variable. -/
def flipInteraction (k : Nat) (m : Model V R) (n : Nat) : Model V R :=
  match m.quadratic[n]? with
  | none => m
  | some ((i, j), b) =>
    if i ≠ k ∧ j ≠ k then m
    else
      { m with
        linear :=
          match m.vartype with
          | .spin => m.linear
          | .binary => modifyBias (if i = k then j else i) (· + b) m.linear
        quadratic := m.quadratic.modify n (fun (key, b) => (key, -b)) }

def flipAtInPlace (k : Nat) : InPlace V R Unit := do
  modify (flipBias k)
  (List.range (← get).numInteractions).forM (fun n => modify (flipInteraction k · n))

/-- The variable is looked up before anything changes. -/
def flipInPlace [DecidableEq V] (v : V) : InPlace V R Unit := do
  match (← get).indexOf? v with
  | some k => flipAtInPlace k
  | none => throw (.unknownVariable v)

end BinaryQuadratic.Model
