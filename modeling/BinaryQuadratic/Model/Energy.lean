import BinaryQuadratic.Model.Basic

namespace BinaryQuadratic.Model

variable {V R : Type} [Coefficient R]

/-- `offset + Σ bᵢ xᵢ + Σ bᵢⱼ xᵢ xⱼ`, with both sums taken in order before the offset joins. -/
def evaluate (m : Model V R) (sample : List Int) : R :=
  let xs : List R := sample.map Coefficient.ofInt
  let x (i : Nat) : R := xs.getD i Coefficient.zero
  let linear := Coefficient.sum (m.biases.zipWith (· * ·) xs)
  let quadratic := Coefficient.sum (m.quadratic.map (fun ((i, j), b) => b * x i * x j))
  m.offset + linear + quadratic

/-- A sample has one value for each variable, in the order of the variables. Its length is checked
before its values. -/
def energy (m : Model V R) (sample : List Int) : Except (ModelError V) R :=
  if sample.length ≠ m.numVariables then .error (.sampleLength m.numVariables sample.length)
  else
    match sample.find? (fun x => !m.vartype.contains x) with
    | some x => .error (.invalidValue x m.vartype)
    | none => .ok (m.evaluate sample)

def energies (m : Model V R) (samples : List (List Int)) : Except (ModelError V) (List R) :=
  samples.mapM m.energy

end BinaryQuadratic.Model
