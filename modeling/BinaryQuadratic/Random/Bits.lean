import BinaryQuadratic.Random.Xoshiro

namespace BinaryQuadratic

/-- An endless supply of random bits, from a generator or from anywhere else. -/
inductive BitSource where
  | generator (g : Xoshiro)
  | stream (bits : Nat → Bool)

namespace BitSource

def next : BitSource → Bool × BitSource
  | generator g => let (b, g) := g.nextBit; (b, generator g)
  | stream bits => (bits 0, stream (fun i => bits (i + 1)))

def draw (source : BitSource) : Nat → List Bool × BitSource
  | 0 => ([], source)
  | n + 1 =>
    let (b, source) := source.next
    let (bs, source) := source.draw n
    (b :: bs, source)

theorem length_draw (source : BitSource) (n : Nat) : (source.draw n).1.length = n := by
  induction n generalizing source with
  | zero => rfl
  | succ n ih => simp [draw, ih]

end BitSource

/-- Where samplers get their bits: from a seed that is given, or from a source of entropy, of which
there is a new one for each call without a seed. -/
structure Randomness where
  ofSeed : UInt64 → BitSource
  entropy : Nat → BitSource

namespace Randomness

/-- Seeds start a generator; without one, the given sources are used in turn. -/
def standard (entropy : Nat → BitSource) : Randomness :=
  ⟨fun seed => .generator (.ofSeed seed), entropy⟩

def fresh (r : Randomness) : BitSource × Randomness :=
  (r.entropy 0, { r with entropy := fun i => r.entropy (i + 1) })

end Randomness
end BinaryQuadratic
