import BinaryQuadratic.Json.Basic
import BinaryQuadratic.Text.Nearest

namespace BinaryQuadratic.Json.Reader

def isBlank (c : Char) : Bool :=
  c == ' ' || c == '\t' || c == '\n' || c == '\r'

def skipBlanks (cs : List Char) : List Char :=
  cs.dropWhile isBlank

/-- What a string is made of: characters, and 16-bit units written as `\u` escapes. -/
inductive Piece where
  | char (c : Char)
  | unit (n : Nat)

def hexDigit? (c : Char) : Option Nat :=
  if c.isDigit then some (c.toNat - '0'.toNat)
  else if 'a' ≤ c ∧ c ≤ 'f' then some (c.toNat - 'a'.toNat + 10)
  else if 'A' ≤ c ∧ c ≤ 'F' then some (c.toNat - 'A'.toNat + 10)
  else none

def unit? (a b c d : Char) : Option Nat := do
  return (((← hexDigit? a) * 16 + (← hexDigit? b)) * 16 + (← hexDigit? c)) * 16 + (← hexDigit? d)

def escaped? : Char → Option Char
  | '"' => some '"'
  | '\\' => some '\\'
  | '/' => some '/'
  | 'b' => some '\x08'
  | 'f' => some '\x0c'
  | 'n' => some '\n'
  | 'r' => some '\r'
  | 't' => some '\t'
  | _ => none

/-- The rest of a string whose opening quote has been read. -/
def pieces? : List Char → Option (List Piece × List Char)
  | [] => none
  | '"' :: rest => some ([], rest)
  | '\\' :: 'u' :: a :: b :: c :: d :: rest => do
    let n ← unit? a b c d
    let (ps, rest) ← pieces? rest
    return (.unit n :: ps, rest)
  | '\\' :: e :: rest => do
    let c ← escaped? e
    let (ps, rest) ← pieces? rest
    return (.char c :: ps, rest)
  | c :: rest =>
    if c == '\\' || c.toNat < 0x20 then none
    else do
      let (ps, rest) ← pieces? rest
      return (.char c :: ps, rest)

/-- Two units may join into one character; half a pair denotes nothing. -/
def joinPieces : List Piece → Option (List Char)
  | [] => some []
  | .char c :: ps => (joinPieces ps).map (c :: ·)
  | .unit n :: ps =>
    if 0xd800 ≤ n ∧ n < 0xdc00 then
      match ps with
      | .unit m :: qs =>
        if 0xdc00 ≤ m ∧ m < 0xe000 then
          let c := Char.ofNat (0x10000 + (n - 0xd800) * 0x400 + (m - 0xdc00))
          (joinPieces qs).map (c :: ·)
        else none
      | _ => none
    else if 0xdc00 ≤ n ∧ n < 0xe000 then none
    else (joinPieces ps).map (Char.ofNat n :: ·)

/-- The rest of a string, `none` inside where it has no value. -/
def string? (cs : List Char) : Option (Option String × List Char) := do
  let (ps, rest) ← pieces? cs
  return ((joinPieces ps).map String.ofList, rest)

def ofDigits (ds : List Char) : Nat :=
  ds.foldl (fun n c => n * 10 + (c.toNat - '0'.toNat)) 0

/-- One digit or more. -/
def digits? (cs : List Char) : Option (List Char × List Char) :=
  let ds := cs.takeWhile Char.isDigit
  if ds.isEmpty then none else some (ds, cs.dropWhile Char.isDigit)

/-- The double nearest to a decimal, if that is finite. -/
def real (negative : Bool) (d : Text.Decimal) : Json :=
  let bits := d.nearest
  if bits < Text.Magnitude.infinite then
    float (Float.ofBits (UInt64.ofNat (if negative then Word.signedBound + bits else bits)))
  else unreadable

/-- A number without fraction and exponent is an integer if 64 bits hold it, with or without a
sign, and is read as a double otherwise. Minus zero is a double. -/
def integer (negative : Bool) (magnitude : Nat) : Json :=
  if negative then
    if magnitude ≠ 0 ∧ magnitude ≤ Word.signedBound then int (-magnitude)
    else real true ⟨magnitude, 0⟩
  else if magnitude < Word.bound then int magnitude
  else real false ⟨magnitude, 0⟩

/-- The digits before the point: a single zero, or no leading zero. -/
def whole? : List Char → Option (List Char × List Char)
  | '0' :: rest => if (rest.head?.any Char.isDigit) then none else some (['0'], rest)
  | cs => digits? cs

def fraction? : List Char → Option (List Char × List Char)
  | '.' :: rest => digits? rest
  | cs => some ([], cs)

def exponent? : List Char → Option (Option Int × List Char)
  | c :: rest =>
    if c == 'e' || c == 'E' then
      match rest with
      | '+' :: rest => do let (ds, rest) ← digits? rest; return (some (ofDigits ds), rest)
      | '-' :: rest => do let (ds, rest) ← digits? rest; return (some (-ofDigits ds), rest)
      | rest => do let (ds, rest) ← digits? rest; return (some (ofDigits ds), rest)
    else some (none, c :: rest)
  | [] => some (none, [])

def magnitude? (negative : Bool) (cs : List Char) : Option (Json × List Char) := do
  let (whole, cs) ← whole? cs
  let (fraction, cs) ← fraction? cs
  let (exponent, cs) ← exponent? cs
  if fraction.isEmpty && exponent.isNone then
    return (integer negative (ofDigits whole), cs)
  else
    let shift := exponent.getD 0 - fraction.length
    return (real negative ⟨ofDigits (whole ++ fraction), shift⟩, cs)

def number? : List Char → Option (Json × List Char)
  | '-' :: rest => magnitude? true rest
  | cs => magnitude? false cs

/-- An object is unreadable as a whole when one of its keys is. -/
def object (members : List (Option String × Json)) : Json :=
  match members.mapM (fun (k, x) => k.map (·, x)) with
  | some members => obj members
  | none => unreadable

mutual

def value? : Nat → List Char → Option (Json × List Char)
  | 0, _ => none
  | fuel + 1, cs =>
    match skipBlanks cs with
    | 'n' :: 'u' :: 'l' :: 'l' :: rest => some (null, rest)
    | 't' :: 'r' :: 'u' :: 'e' :: rest => some (bool true, rest)
    | 'f' :: 'a' :: 'l' :: 's' :: 'e' :: rest => some (bool false, rest)
    | '"' :: rest => do
      let (s, rest) ← string? rest
      return (s.elim unreadable str, rest)
    | '[' :: rest =>
      match skipBlanks rest with
      | ']' :: rest => some (arr [], rest)
      | rest => do
        let (items, rest) ← items? fuel rest
        return (arr items, rest)
    | '{' :: rest =>
      match skipBlanks rest with
      | '}' :: rest => some (obj [], rest)
      | rest => do
        let (members, rest) ← members? fuel rest
        return (object members, rest)
    | rest => number? rest

/-- The items of an array up to its closing bracket, of which there is at least one. -/
def items? : Nat → List Char → Option (List Json × List Char)
  | 0, _ => none
  | fuel + 1, cs => do
    let (x, rest) ← value? fuel cs
    match skipBlanks rest with
    | ']' :: rest => return ([x], rest)
    | ',' :: rest =>
      let (xs, rest) ← items? fuel rest
      return (x :: xs, rest)
    | _ => none

def members? : Nat → List Char → Option (List (Option String × Json) × List Char)
  | 0, _ => none
  | fuel + 1, cs =>
    match skipBlanks cs with
    | '"' :: rest => do
      let (key, rest) ← string? rest
      match skipBlanks rest with
      | ':' :: rest =>
        let (x, rest) ← value? fuel rest
        match skipBlanks rest with
        | '}' :: rest => return ([(key, x)], rest)
        | ',' :: rest =>
          let (xs, rest) ← members? fuel rest
          return ((key, x) :: xs, rest)
        | _ => none
      | _ => none
    | _ => none

end

end Reader

/-- Reads one JSON value with blanks around it. Two steps for each character are enough, one for a
list and one for the value in it. -/
def parse? (text : String) : Option Json :=
  let cs := text.toList
  match Reader.value? (2 * cs.length + 2) cs with
  | some (j, rest) => if (Reader.skipBlanks rest).isEmpty then some j else none
  | none => none

end BinaryQuadratic.Json
