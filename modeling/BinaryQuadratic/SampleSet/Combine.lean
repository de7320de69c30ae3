import BinaryQuadratic.SampleSet.Basic

namespace BinaryQuadratic

/-- Equal rows: their values, the position of the first of them and their joint count. -/
structure Group where
  sample : List Int
  row : Nat
  occurrences : Nat
  deriving DecidableEq, Repr

/-- Counts a row into the group of its values, or into a new one at the end. Counts have no bound
here; `aggregateInWords` adds them as words. -/
def Group.count (sample : List Int) (row n : Nat) : List Group → List Group
  | [] => [⟨sample, row, n⟩]
  | g :: gs =>
    if g.sample == sample then { g with occurrences := g.occurrences + n } :: gs
    else g :: count sample row n gs

namespace SampleSet

variable {V R : Type}

def groups (s : SampleSet V R) : List Group :=
  s.records.zipIdx.foldl (fun gs (r, i) => Group.count r.sample i r.occurrences gs) []

/-- Equal rows merged, with the place and energy of the first and the sum of the counts. -/
def aggregate (s : SampleSet V R) : SampleSet V R :=
  let groups := s.groups
  { s.select (groups.map (·.row)) with occurrences := groups.map (·.occurrences) }

/-- The same samples over another domain; energies stay. -/
def changeVartype (s : SampleSet V R) (t : Vartype) : SampleSet V R :=
  { s with samples := s.samples.map (s.vartype.convert t), vartype := t }

variable [DecidableEq V]

/-- Flips the first column of label `v`. -/
def flipVariable (s : SampleSet V R) (v : V) : Except (ModelError V) (SampleSet V R) :=
  match s.labels.findIdx? (· = v) with
  | some column => .ok { s with samples := s.samples.mapColumn column s.vartype.flip }
  | none => .error (.unknownVariable v)

/-- Flips a column once for each time it is named; energies stay. -/
def flipVariables (s : SampleSet V R) (vs : List V) : Except (ModelError V) (SampleSet V R) :=
  vs.foldlM flipVariable s

/-- Whether the rows of `s'` can follow those of `s`. -/
def checkJoins (s s' : SampleSet V R) : Except (ModelError V) Unit :=
  if s'.labels ≠ s.labels then .error .variableMismatch
  else if s'.vartype ≠ s.vartype then .error (.vartypeMismatch s.vartype s'.vartype)
  else .ok ()

/-- The rows of all sets, in order. The first set that does not fit is reported. -/
def concatenate : List (SampleSet V R) → Except (ModelError V) (SampleSet V R)
  | [] => .error .nothingToConcatenate
  | s :: rest => do
    rest.forM s.checkJoins
    let sets := s :: rest
    match Matrix.concat? s.samples.ncols (sets.map (·.samples)) with
    | none => throw .shape
    | some samples =>
      return { s with
        samples := samples
        energies := sets.flatMap (·.energies)
        occurrences := sets.flatMap (·.occurrences) }

end SampleSet
end BinaryQuadratic
