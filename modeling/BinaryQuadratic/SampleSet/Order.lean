import BinaryQuadratic.SampleSet.Basic

namespace BinaryQuadratic

/-- Which rows come first when a set is cut short. -/
inductive SortBy where
  | energy
  | unsorted
  deriving DecidableEq, Repr

instance : Inhabited SortBy := ⟨.energy⟩

namespace SampleSet

variable {V R : Type} [Coefficient R]

/-- The earlier of two records, unless the later has less energy. -/
def lesser (a b : Record R) : Record R :=
  if Coefficient.cmp b.energy a.energy == .lt then b else a

/-- The row of lowest energy, the earliest of several. -/
def first? (s : SampleSet V R) : Option (Record R) :=
  match s.records with
  | [] => none
  | r :: rs => some (rs.foldl lesser r)

/-- Whether a row of energy `a` can stand before one of energy `b`. A row that lacks an energy only
stands before others that do. -/
def mayPrecede : Option R → Option R → Bool
  | some a, some b => Coefficient.le a b
  | _, none => true
  | none, some _ => false

/-- The positions of all rows in ascending energy, and in row order where energies are equal. -/
def sortedIndices (s : SampleSet V R) : List Nat :=
  let energies := s.energies.toArray
  (List.range s.size).mergeSort (fun i j => mayPrecede energies[i]? energies[j]?)

/-- The rows whose energy is within `1e-8` of the lowest. -/
def lowest (s : SampleSet V R) : SampleSet V R :=
  match s.first? with
  | none => s
  | some r =>
    s.select ((s.energies.zipIdx.filter (fun (e, _) => Coefficient.near e r.energy)).map (·.2))

/-- At most `n` rows. -/
def truncate (s : SampleSet V R) (n : Nat) : SortBy → SampleSet V R
  | .energy => s.select (s.sortedIndices.take n)
  | .unsorted => s.select (List.range (min s.size n))

end SampleSet
end BinaryQuadratic
