import BinaryQuadratic.Label
import BinaryQuadratic.Vartype

namespace BinaryQuadratic

/-- Inconsistent data given to a model or a sample set. -/
inductive ModelError (V : Type) where
  | selfLoop (v : V)
  | unknownVariable (v : V)
  | duplicateVariable (v : V)
  | sampleLength (expected found : Nat)
  | invalidValue (value : Int) (vartype : Vartype)
  | energyCount (expected found : Nat)
  | variableMismatch
  | vartypeMismatch (expected found : Vartype)
  | nothingToConcatenate
  | shape
  deriving DecidableEq, Repr

def ModelError.message [VariableLabel V] : ModelError V → String
  | selfLoop v => "interaction between `" ++ VariableLabel.quoted v ++ "` and itself"
  | unknownVariable v => "unknown variable `" ++ VariableLabel.quoted v ++ "`"
  | duplicateVariable v => "variable `" ++ VariableLabel.quoted v ++ "` appears more than once"
  | sampleLength expected found =>
    "sample has " ++ toString found ++ " values, expected " ++ toString expected
  | invalidValue value vartype => toString value ++ " is not a " ++ vartype.name ++ " value"
  | energyCount expected found =>
    toString found ++ " energies given for " ++ toString expected ++ " samples"
  | variableMismatch => "sample sets have different variables"
  | vartypeMismatch expected found =>
    "expected " ++ expected.name ++ " samples, found " ++ found.name ++ " samples"
  | nothingToConcatenate => "nothing to concatenate"
  | shape => "ShapeError/IncompatibleShape: incompatible shapes"

end BinaryQuadratic
