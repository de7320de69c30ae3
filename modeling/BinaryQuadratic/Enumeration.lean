import BinaryQuadratic.SampleSet.Matrix
import BinaryQuadratic.Vartype
import BinaryQuadratic.Word

namespace BinaryQuadratic

/-- Every assignment of `n` variables, the last changing fastest. -/
def assignments (t : Vartype) : Nat → List (List Int)
  | 0 => [[]]
  | n + 1 =>
    let rest := assignments t n
    rest.map (t.low :: ·) ++ rest.map (t.high :: ·)

/-- The number of assignments, which has to fit a 64-bit word. -/
def assignmentCount? (n : Nat) : Option Nat :=
  if n < 64 then some (1 <<< n) else none

/-- The number of values in all of them. It has to fit a word, and no buffer is larger than half
the words can count. -/
def bufferSize? (n : Nat) : Option Nat := do
  let rows ← assignmentCount? n
  let size := rows * n
  if size < Word.bound ∧ size ≤ Word.signedBound - 1 then some size else none

inductive EnumerationError where
  | tooManyVariables (n : Nat)
  | shape
  deriving DecidableEq, Repr

/-- Every assignment of `n` variables, one in each row of a matrix. -/
def enumerate (t : Vartype) (n : Nat) : Except EnumerationError Matrix :=
  match assignmentCount? n, bufferSize? n with
  | some rows, some _ =>
    match Matrix.reshape? rows n (assignments t n).flatten with
    | some a => .ok a
    | none => .error .shape
  | _, _ => .error (.tooManyVariables n)

end BinaryQuadratic
