import BinaryQuadratic.Json.Record
import BinaryQuadratic.Vartype

namespace BinaryQuadratic.Vartype

def toJson : Vartype → Json
  | spin => .str "Spin"
  | binary => .str "Binary"

def ofJson? (j : Json) : Option Vartype :=
  match j.case? with
  | some "Spin" => some spin
  | some "Binary" => some binary
  | _ => none

end BinaryQuadratic.Vartype
