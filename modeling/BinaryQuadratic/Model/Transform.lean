import BinaryQuadratic.Model.Basic

namespace BinaryQuadratic.Model

variable {V R : Type} [Coefficient R]

/-- Changes the bias at position `i`. -/
def modifyBias (i : Nat) (f : R → R) (linear : List (V × R)) : List (V × R) :=
  linear.modify i (fun (v, b) => (v, f b))

/-- Bits to spins, by `x = (s + 1) / 2`: a bias is halved, an interaction is quartered, and the
parts split off go to the biases of its two variables and to the offset. -/
def toSpin (m : Model V R) : Model V R :=
  let two : R := Coefficient.ofInt 2
  let four : R := Coefficient.ofInt 4
  let linear := m.linear.map (fun (v, b) => (v, b / two))
  let quadratic := m.quadratic.map (fun (k, b) => (k, b / four))
  { linear := quadratic.foldl
      (fun l ((i, j), b) => modifyBias j (· + b) (modifyBias i (· + b) l)) linear
    quadratic := quadratic
    offset := quadratic.foldl (fun x (_, b) => x + b)
      (linear.foldl (fun x (_, b) => x + b) m.offset)
    vartype := .spin }

/-- Spins to bits, by `s = 2x - 1`. -/
def toBinary (m : Model V R) : Model V R :=
  let two : R := Coefficient.ofInt 2
  let four : R := Coefficient.ofInt 4
  let linear := m.linear.map (fun (v, b) => (v, b * two))
  { linear := m.quadratic.foldl
      (fun l ((i, j), b) => modifyBias j (· - two * b) (modifyBias i (· - two * b) l)) linear
    quadratic := m.quadratic.map (fun (k, b) => (k, four * b))
    offset := m.quadratic.foldl (fun x (_, b) => x + b)
      (m.linear.foldl (fun x (_, b) => x - b) m.offset)
    vartype := .binary }

/-- The model over another domain, with equal energies at corresponding samples. -/
def changeVartype (m : Model V R) (t : Vartype) : Model V R :=
  match m.vartype, t with
  | .binary, .spin => m.toSpin
  | .spin, .binary => m.toBinary
  | _, _ => m

/-- Negates what stands at position `k`. For bits, where `x` becomes `1 - x`, the bias also goes to
the offset and each interaction to the other variable's bias. -/
def flipAt (m : Model V R) (k : Nat) : Model V R :=
  let negated := modifyBias k (- ·) m.linear
  let quadratic := m.quadratic.map (fun ((i, j), b) => ((i, j), if i = k ∨ j = k then -b else b))
  match m.vartype with
  | .spin => { m with linear := negated, quadratic := quadratic }
  | .binary =>
    { m with
      linear := m.quadratic.foldl
        (fun l ((i, j), b) =>
          if i = k then modifyBias j (· + b) l
          else if j = k then modifyBias i (· + b) l
          else l) negated
      quadratic := quadratic
      offset := (m.biases[k]?).elim m.offset (m.offset + ·) }

/-- The model whose energies, at samples with `v` flipped, are those of `m` before. -/
def flipVariable [DecidableEq V] (m : Model V R) (v : V) : Except (ModelError V) (Model V R) :=
  match m.indexOf? v with
  | some k => .ok (m.flipAt k)
  | none => .error (.unknownVariable v)

end BinaryQuadratic.Model
