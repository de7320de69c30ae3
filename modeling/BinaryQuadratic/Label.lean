import BinaryQuadratic.Text.Quoted

namespace BinaryQuadratic

/-- Types of variable labels: how a table heads their columns, and how a message names them. -/
class VariableLabel (V : Type) where
  plain : V → String
  quoted : V → String

/-- A variable labelled by a name or by a number; `0` and `"0"` are different variables. -/
inductive Label where
  | name (s : String)
  | number (n : Int)
  deriving DecidableEq, Repr

instance : VariableLabel Label where
  plain
    | .name s => s
    | .number n => toString n
  quoted
    | .name s => Text.quoted s
    | .number n => toString n

end BinaryQuadratic
