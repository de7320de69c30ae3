import BinaryQuadratic.Json.Basic
import BinaryQuadratic.Text.Decimal

namespace BinaryQuadratic.Json.Writer

/-- Quotes, backslashes and control characters are escaped; all else stands as it is. -/
def escape (c : Char) : List Char :=
  match c with
  | '"' => ['\\', '"']
  | '\\' => ['\\', '\\']
  | '\x08' => ['\\', 'b']
  | '\x0c' => ['\\', 'f']
  | '\n' => ['\\', 'n']
  | '\r' => ['\\', 'r']
  | '\t' => ['\\', 't']
  | _ =>
    if c.toNat < 0x20 then
      let hex := Nat.toDigits 16 c.toNat
      '\\' :: 'u' :: (List.replicate (4 - hex.length) '0' ++ hex)
    else [c]

def string (s : String) (rest : List Char) : List Char :=
  '"' :: (s.toList.flatMap escape ++ '"' :: rest)

/-- Numbers in JSON: positional from `0.00001` up to `10 ^ 16`. -/
def layout : Text.DecimalLayout :=
  ⟨-5, 16⟩

mutual

/-- Writes a value in front of `rest`, without blanks. -/
def value : Json → List Char → List Char
  | null, rest | unreadable, rest => "null".toList ++ rest
  | bool true, rest => "true".toList ++ rest
  | bool false, rest => "false".toList ++ rest
  | int n, rest => (toString n).toList ++ rest
  | float x, rest => (Text.double layout x).toList ++ rest
  | str s, rest => string s rest
  | arr [], rest => '[' :: ']' :: rest
  | arr (x :: xs), rest => '[' :: value x (items xs rest)
  | obj [], rest => '{' :: '}' :: rest
  | obj ((k, x) :: ms), rest => '{' :: string k (':' :: value x (members ms rest))

def items : List Json → List Char → List Char
  | [], rest => ']' :: rest
  | x :: xs, rest => ',' :: value x (items xs rest)

def members : List (String × Json) → List Char → List Char
  | [], rest => '}' :: rest
  | (k, x) :: ms, rest => ',' :: string k (':' :: value x (members ms rest))

end

end Writer

def write (j : Json) : String :=
  String.ofList (Writer.value j [])

end BinaryQuadratic.Json
