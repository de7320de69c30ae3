import BinaryQuadratic.SampleSet.Order
import BinaryQuadratic.Text.Decimal
import BinaryQuadratic.Word

namespace BinaryQuadratic.SampleSet

/-- Puts spaces before a text that has fewer than `width` characters. -/
def padLeft (width : Nat) (s : String) : String :=
  String.ofList (List.replicate (width - s.length) ' ') ++ s

def energyHeading : String :=
  "energy"

def occurrencesHeading : String :=
  "num_oc."

/-- Spins show their sign. -/
def valueText (t : Vartype) (x : Int) : String :=
  if t = .spin ∧ 0 ≤ x then "+" ++ toString x else toString x

/-- The greatest of some widths, zero if there are none. -/
def widest (widths : List Nat) : Nat :=
  widths.foldl max 0

/-- A line: the first cell, then each other one after a space. -/
def tableLine (index : String) (cells : List String) : String :=
  index ++ String.join (cells.map (" " ++ ·))

variable {V : Type} [VariableLabel V]

/-- The width of a column: the bytes of its label, and room for a sign. -/
def columnWidth (v : V) : Nat :=
  max 2 (VariableLabel.plain v).utf8ByteSize

/-- The rows in ascending energy, each with its position. -/
def orderedRecords (s : SampleSet V Float) : List (Nat × Record Float) :=
  let records := s.records.toArray
  s.sortedIndices.filterMap (fun i => records[i]?.map (i, ·))

def summaryLine (s : SampleSet V Float) (total : Nat) : String :=
  "['" ++ s.vartype.name ++ "', " ++ toString s.size ++ " rows, " ++
    toString total ++ " samples, " ++ toString s.numVariables ++ " variables]"

/-- A heading, the rows in ascending energy and a summary, which says that there are `total`
samples. -/
def tableLines (s : SampleSet V Float) (total : Nat) : List String :=
  let rows := s.orderedRecords.map (fun (i, r) => (toString i, r, Text.real r.energy))
  let indexWidth := widest (rows.map (·.1.length))
  let energyWidth := max energyHeading.length (widest (rows.map (·.2.2.length)))
  let widths := s.labels.map columnWidth
  let heading := tableLine (padLeft indexWidth "")
    (List.zipWith (fun w v => padLeft w (VariableLabel.plain v)) widths s.labels ++
      [padLeft energyWidth energyHeading, occurrencesHeading])
  let line : String × Record Float × String → String := fun (index, r, energy) =>
    tableLine (padLeft indexWidth index)
      (List.zipWith (fun w x => padLeft w (valueText s.vartype x)) widths r.sample ++
        [padLeft energyWidth energy,
          padLeft occurrencesHeading.length (toString r.occurrences)])
  heading :: (rows.map line ++ [s.summaryLine total])

def table (s : SampleSet V Float) (total : Nat) : String :=
  "\n".intercalate (s.tableLines total)

/-- The table with the sum of its counts, which are words. -/
def display (o : Word.Overflow) (s : SampleSet V Float) : Option String :=
  (o.sum? s.occurrences).map s.table

end BinaryQuadratic.SampleSet
