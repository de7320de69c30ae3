import BinaryQuadratic.Model.Energy
import BinaryQuadratic.SampleSet.Matrix

namespace BinaryQuadratic

/-- Samples with their energies and the number of times each occurred. A column holds the values of
one variable. -/
structure SampleSet (V R : Type) where
  labels : List V
  samples : Matrix
  energies : List R
  occurrences : List Nat
  vartype : Vartype
  deriving DecidableEq

/-- One row of a sample set. -/
structure Record (R : Type) where
  sample : List Int
  energy : R
  occurrences : Nat
  deriving DecidableEq, Repr

/-- The first element that stands further left as well, or in `seen`. -/
def firstRepeat? [DecidableEq α] (seen : List α) : List α → Option α
  | [] => none
  | x :: xs => if x ∈ seen then some x else firstRepeat? (x :: seen) xs

namespace SampleSet

variable {V R : Type}

def size (s : SampleSet V R) : Nat :=
  s.samples.nrows

def isEmpty (s : SampleSet V R) : Bool :=
  s.size == 0

def numVariables (s : SampleSet V R) : Nat :=
  s.labels.length

def empty (t : Vartype) : SampleSet V R :=
  ⟨[], .empty, [], [], t⟩

/-- The rows in order, as far as every column of data reaches. -/
def records (s : SampleSet V R) : List (Record R) :=
  (s.samples.rows.zip (s.energies.zip s.occurrences)).map
    (fun (sample, energy, n) => ⟨sample, energy, n⟩)

/-- Samples that occur once each, with given energies. -/
def ofSamples (samples : Matrix) (labels : List V) (t : Vartype) (energies : List R) :
    Except (ModelError V) (SampleSet V R) :=
  if samples.ncols ≠ labels.length then
    .error (.sampleLength labels.length samples.ncols)
  else if energies.length ≠ samples.nrows then
    .error (.energyCount samples.nrows energies.length)
  else
    match samples.values.find? (fun x => !t.contains x) with
    | some x => .error (.invalidValue x t)
    | none => .ok ⟨labels, samples, energies, List.replicate samples.nrows 1, t⟩

/-- The positions in a model of a permutation of its variables. -/
def columnsOf [DecidableEq V] (m : Model V R) (labels : List V) :
    Except (ModelError V) (List Nat) := do
  if labels.length ≠ m.numVariables then
    throw (.sampleLength m.numVariables labels.length)
  let columns ← labels.mapM (fun v =>
    match m.indexOf? v with
    | some i => .ok i
    | none => .error (.unknownVariable v))
  match firstRepeat? [] labels with
  | some v => throw (.duplicateVariable v)
  | none => return columns

/-- Samples with the energies that a model gives them. The columns may be in any order; they are
put into that of the model before it sees them, unless they already are. -/
def ofModel [DecidableEq V] [Coefficient R] (samples : Matrix) (labels : List V)
    (m : Model V R) : Except (ModelError V) (SampleSet V R) := do
  let columns ← columnsOf m labels
  let energies ←
    if columns = List.range columns.length then m.energies samples.rows
    else if samples.ncols ≠ columns.length then
      .error (.sampleLength columns.length samples.ncols)
    else m.energies (samples.scatter columns).rows
  ofSamples samples labels m.vartype energies

/-- The rows at the given positions. -/
def select (s : SampleSet V R) (indices : List Nat) : SampleSet V R :=
  { s with
    samples := s.samples.select indices
    energies := pick indices s.energies
    occurrences := pick indices s.occurrences }

/-- Equality in every field, with energies compared as numbers. -/
def beq [DecidableEq V] [BEq R] (s s' : SampleSet V R) : Bool :=
  s.labels == s'.labels && s.samples == s'.samples && s.energies == s'.energies &&
    s.occurrences == s'.occurrences && s.vartype == s'.vartype

instance [DecidableEq V] [BEq R] : BEq (SampleSet V R) := ⟨beq⟩

end SampleSet
end BinaryQuadratic
