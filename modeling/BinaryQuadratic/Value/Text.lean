import BinaryQuadratic.Text.Decimal
import BinaryQuadratic.Text.Quoted
import BinaryQuadratic.Value.Basic

namespace BinaryQuadratic.Value

mutual

def text : Value → String
  | bool b => toString b
  | int n => toString n.toInt
  | uint n => toString n.toNat
  | float x => Text.real x
  | str s => Text.quoted s
  | list items => "[" ++ ", ".intercalate (textItems items) ++ "]"
  | map entries => "\x7b" ++ ", ".intercalate (textEntries entries) ++ "\x7d"

def textItems : List Value → List String
  | [] => []
  | x :: xs => text x :: textItems xs

def textEntries : List (String × Value) → List String
  | [] => []
  | (k, x) :: es => (Text.quoted k ++ ": " ++ text x) :: textEntries es

end

instance : ToString Value := ⟨text⟩

end BinaryQuadratic.Value
