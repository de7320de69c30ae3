import BinaryQuadratic.Word

namespace BinaryQuadratic.Text

/-- The number `digits * 10 ^ exponent`. -/
structure Decimal where
  digits : Nat
  exponent : Int
  deriving DecidableEq, Repr

/-- The magnitude `mantissa * 2 ^ exponent` of a finite double. `narrow` marks a power of two whose
lower neighbour is only half as far away as the upper one. -/
structure Magnitude where
  mantissa : Nat
  exponent : Int
  narrow : Bool
  deriving DecidableEq, Repr

namespace Magnitude

/-- The bits of a double below its exponent. -/
abbrev fractionBound : Nat :=
  0x10000000000000

/-- The exponents of a double. -/
abbrev powerBound : Nat :=
  0x800

def ofBits (bits : Nat) : Magnitude :=
  let fraction := bits % fractionBound
  let power := bits / fractionBound % powerBound
  if power = 0 then ⟨fraction, -1074, false⟩
  else ⟨fractionBound + fraction, (power : Int) - 1075, fraction == 0 && power != 1⟩

/-- Four times the mantissas of the midpoints to both neighbours. -/
def bounds (x : Magnitude) : Nat × Nat :=
  (4 * x.mantissa - if x.narrow then 1 else 2, 4 * x.mantissa + 2)

/-- The factors that turn quarters of the mantissa's unit into multiples of `10 ^ place`:
`quarters * num / den`. -/
def scale (x : Magnitude) (place : Int) : Nat × Nat :=
  (Nat.pow 2 (x.exponent - 2).toNat * Nat.pow 10 (-place).toNat,
    Nat.pow 2 (2 - x.exponent).toNat * Nat.pow 10 place.toNat)

/-- The multiple of `10 ^ place` next to `x` that reads back as `x`; the nearer of two, and of two
equally near the upper. A midpoint reads back as the neighbour with the even mantissa. -/
def onGrid? (x : Magnitude) (place : Int) : Option Nat :=
  let (num, den) := x.scale place
  let (lower, upper) := x.bounds
  let inside (n : Nat) : Bool :=
    if x.mantissa % 2 = 0 then lower * num ≤ n * den && n * den ≤ upper * num
    else lower * num < n * den && n * den < upper * num
  let exact := 4 * x.mantissa * num
  let below := exact / den
  if inside (below + 1) then
    if inside below && 2 * exact < (2 * below + 1) * den then some below else some (below + 1)
  else if inside below then some below
  else none

/-- An exponent of ten no smaller than that of the leading digit. -/
def topPlace (x : Magnitude) : Int :=
  (x.mantissa.log2 + x.exponent + 1) * 30103 / 100000 + 1

/-- Goes to finer grids until one holds a number that reads back. Seventeen digits always do, so
twenty places suffice. -/
def search (x : Magnitude) : Nat → Int → Decimal
  | 0, place => ⟨(x.onGrid? place).getD 0, place⟩
  | fuel + 1, place =>
    match x.onGrid? place with
    | some n => ⟨n, place⟩
    | none => search x fuel (place - 1)

/-- The decimal with the fewest digits that reads back as `x`, and the nearest of those. -/
def shortest (x : Magnitude) : Decimal :=
  if x.mantissa = 0 then ⟨0, 0⟩ else x.search 20 x.topPlace

end Magnitude

/-- How decimals are laid out: magnitudes from `10 ^ positionalFrom` up to, and without,
`10 ^ positionalTo` are written without an exponent. -/
structure DecimalLayout where
  positionalFrom : Int
  positionalTo : Int
  deriving DecidableEq, Repr

namespace DecimalLayout

/-- Digits with trailing zeros dropped, and the exponent of the first of them. Zero keeps one. -/
def significant (d : Decimal) : List Char × Int :=
  let all := Nat.toDigits 10 d.digits
  let kept := (all.reverse.dropWhile (· == '0')).reverse
  if kept.isEmpty then (['0'], 0) else (kept, d.exponent + all.length - 1)

def positional (digits : List Char) (leading : Int) : List Char :=
  if leading < 0 then
    '0' :: '.' :: (List.replicate (-leading - 1).toNat '0' ++ digits)
  else
    let width := leading.toNat + 1
    let whole := digits.take width ++ List.replicate (width - digits.length) '0'
    let fraction := digits.drop width
    whole ++ '.' :: (if fraction.isEmpty then ['0'] else fraction)

def scientific (digits : List Char) (leading : Int) : List Char :=
  let mantissa := match digits with
    | d :: e :: rest => d :: '.' :: e :: rest
    | _ => digits
  mantissa ++ 'e' :: (toString leading).toList

def write (layout : DecimalLayout) (d : Decimal) : List Char :=
  let (digits, leading) := significant d
  if d.digits = 0 || (layout.positionalFrom ≤ leading && leading < layout.positionalTo) then
    positional digits leading
  else scientific digits leading

end DecimalLayout

/-- The text of a double: the shortest that reads back as the same double, with a point or an
exponent in it. -/
def double (layout : DecimalLayout) (x : Float) : String :=
  let bits := x.toBits.toNat
  let sign := if bits < Word.signedBound then [] else ['-']
  if x.isNaN then "NaN"
  else if x.isInf then String.ofList (sign ++ "inf".toList)
  else
    let magnitude := Magnitude.ofBits (bits % Word.signedBound)
    String.ofList (sign ++ layout.write magnitude.shortest)

/-- Energies and real parameters: positional from `0.0001` up to `10 ^ 16`. -/
def realLayout : DecimalLayout :=
  ⟨-4, 16⟩

abbrev real (x : Float) : String :=
  double realLayout x

end BinaryQuadratic.Text
