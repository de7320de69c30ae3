namespace BinaryQuadratic

def rotateLeft (x : UInt64) (k : UInt64) : UInt64 :=
  (x <<< k) ||| (x >>> (64 - k))

def rotateRight32 (x : UInt32) (k : UInt32) : UInt32 :=
  (x >>> k) ||| (x <<< (32 - k))

/-- The state of a xoshiro256++ generator. -/
structure Xoshiro where
  s0 : UInt64
  s1 : UInt64
  s2 : UInt64
  s3 : UInt64
  deriving DecidableEq, Repr

namespace Xoshiro

/-- One step of the congruential generator that spreads a seed over the state. -/
def spread (state : UInt64) : UInt64 :=
  state * 6364136223846793005 + 11634580027462260723

/-- The 32-bit word taken from a state of that generator. -/
def word (state : UInt64) : UInt64 :=
  let mixed := (((state >>> 18) ^^^ state) >>> 27).toUInt32
  (rotateRight32 mixed (state >>> 59).toUInt32).toUInt64

/-- Two words in a row, the first in the lower half. -/
def seedWord (state : UInt64) : UInt64 × UInt64 :=
  let first := spread state
  let second := spread first
  (word first ||| (word second <<< 32), second)

def ofSeed (seed : UInt64) : Xoshiro :=
  let (s0, state) := seedWord seed
  let (s1, state) := seedWord state
  let (s2, state) := seedWord state
  let (s3, _) := seedWord state
  ⟨s0, s1, s2, s3⟩

def next (g : Xoshiro) : UInt64 × Xoshiro :=
  let output := rotateLeft (g.s0 + g.s3) 23 + g.s0
  let s2 := g.s2 ^^^ g.s0
  let s3 := g.s3 ^^^ g.s1
  let s1 := g.s1 ^^^ s2
  let s0 := g.s0 ^^^ s3
  (output, ⟨s0, s1, s2 ^^^ (g.s1 <<< 17), rotateLeft s3 45⟩)

/-- The top bit of the next word. -/
def nextBit (g : Xoshiro) : Bool × Xoshiro :=
  let (output, g) := g.next
  (output >>> 63 == 1, g)

end Xoshiro
end BinaryQuadratic
