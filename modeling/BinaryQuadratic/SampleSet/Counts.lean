import BinaryQuadratic.SampleSet.Combine
import BinaryQuadratic.Word

namespace BinaryQuadratic

/-- Counts a row into its group, where a joint count is a word. -/
def Group.countWord (o : Word.Overflow) (sample : List Int) (row n : Nat) :
    List Group → Option (List Group)
  | [] => some [⟨sample, row, n⟩]
  | g :: gs =>
    if g.sample == sample then do
      let total ← o.word? (g.occurrences + n)
      return { g with occurrences := total } :: gs
    else do return g :: (← countWord o sample row n gs)

namespace SampleSet

variable {V R : Type}

def groupsInWords (o : Word.Overflow) (s : SampleSet V R) : Option (List Group) :=
  s.records.zipIdx.foldlM (fun gs (r, i) => Group.countWord o r.sample i r.occurrences gs) []

/-- Equal rows merged, with counts that are added as words. -/
def aggregateInWords (o : Word.Overflow) (s : SampleSet V R) : Option (SampleSet V R) := do
  let groups ← s.groupsInWords o
  return { s.select (groups.map (·.row)) with occurrences := groups.map (·.occurrences) }

end SampleSet
end BinaryQuadratic
