import BinaryQuadratic.Text.Decimal

namespace BinaryQuadratic.Text

namespace Magnitude

/-- The bits of infinity. Below are those of all finite magnitudes, in ascending order. -/
abbrev infinite : Nat :=
  0x7ff0000000000000

/-- Whether a decimal is read as `x` or as a greater magnitude. The midpoint to the lower neighbour
is read as the one with the even mantissa. -/
def startsBelow (x : Magnitude) (d : Decimal) : Bool :=
  let (num, den) := x.scale d.exponent
  if x.mantissa % 2 = 0 then x.bounds.1 * num ≤ d.digits * den
  else x.bounds.1 * num < d.digits * den

end Magnitude

namespace Decimal

/-- Settles the lowest `n` bits from the highest of them down: a bit is set if what it makes of
`bits` starts below `d`. -/
def climb (d : Decimal) : Nat → Nat → Nat
  | 0, bits => bits
  | n + 1, bits =>
    let next := bits + Nat.pow 2 n
    if (Magnitude.ofBits next).startsBelow d then climb d n next else climb d n bits

/-- The bits of the magnitude nearest to a decimal, those of infinity or more if there is none.
Exponents far out of range are settled by the number of digits. -/
def nearest (d : Decimal) : Nat :=
  let size := d.exponent + (Nat.toDigits 10 d.digits).length
  if d.digits = 0 || size < -330 then 0
  else if 310 < size then Magnitude.infinite
  else d.climb 63 0

end Decimal

end BinaryQuadratic.Text
