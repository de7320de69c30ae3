import BinaryQuadratic.SampleSet.Combine
import BinaryQuadratic.SampleSet.Table

namespace BinaryQuadratic.SampleSet.Checked

/-! Operations on sets whose parts may differ in size, as those of a set that was read may. There
is no answer where a row or a column is asked for that some part does not have. -/

variable {V R : Type}

/-- Whether row `i` has values, an energy and a count. -/
def reaches (s : SampleSet V R) (i : Nat) : Bool :=
  i < s.size && i < s.energies.length && i < s.occurrences.length

def select (s : SampleSet V R) (indices : List Nat) : Option (SampleSet V R) :=
  if indices.all (reaches s) then some (s.select indices) else none

def aggregate (s : SampleSet V R) : Option (SampleSet V R) := do
  let merged ← select s (s.groups.map (·.row))
  return { merged with occurrences := s.groups.map (·.occurrences) }

/-- Flips the first column of label `v`, which may lie outside the samples. -/
def flipVariable [DecidableEq V] (s : SampleSet V R) (v : V) :
    ExceptT (ModelError V) Option (SampleSet V R) :=
  match s.labels.findIdx? (· = v) with
  | none => throw (.unknownVariable v)
  | some column =>
    if column < s.samples.ncols then
      pure { s with samples := s.samples.mapColumn column s.vartype.flip }
    else ExceptT.lift none

/-- What comes first decides: a label that is unknown, or one without a column. -/
def flipVariables [DecidableEq V] (s : SampleSet V R) (vs : List V) :
    ExceptT (ModelError V) Option (SampleSet V R) :=
  vs.foldlM flipVariable s

section
variable [Coefficient R]

/-- The energy of a single row is compared with none. -/
def sortedIndices (s : SampleSet V R) : Option (List Nat) :=
  if s.size ≤ max 1 s.energies.length then some s.sortedIndices else none

/-- Energies are looked through to their end, whether they have rows or not. -/
def lowest (s : SampleSet V R) : Option (SampleSet V R) :=
  match s.first? with
  | none => some s
  | some r =>
    select s ((s.energies.zipIdx.filter (fun (e, _) => Coefficient.near e r.energy)).map (·.2))

def truncate (s : SampleSet V R) (n : Nat) : SortBy → Option (SampleSet V R)
  | .energy => do select s ((← sortedIndices s).take n)
  | .unsorted => select s (List.range (min s.size n))

end

section
variable [VariableLabel V]

/-- Each row shows a value for each label. -/
def table (s : SampleSet V Float) (total : Nat) : Option String := do
  let order ← sortedIndices s
  if order.all (reaches s) && (order.isEmpty || s.numVariables ≤ s.samples.ncols) then
    return s.table total
  else none

def display (o : Word.Overflow) (s : SampleSet V Float) : Option String := do
  table s (← o.sum? s.occurrences)

end

end BinaryQuadratic.SampleSet.Checked
