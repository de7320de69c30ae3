namespace BinaryQuadratic

/-- The domain shared by every variable of a model: spins `-1, 1` or bits `0, 1`. -/
inductive Vartype where
  | spin
  | binary
  deriving DecidableEq, Repr, Ord

namespace Vartype

def low : Vartype → Int
  | spin => -1
  | binary => 0

def high : Vartype → Int
  | spin => 1
  | binary => 1

/-- The admissible values, in the order assignments are enumerated. -/
def values (t : Vartype) : List Int :=
  [t.low, t.high]

def contains (t : Vartype) (x : Int) : Bool :=
  t.values.contains x

/-- The value of `target` that corresponds to `x`. Division goes toward zero, which only shows
outside the domain. There is no bound on values here; `convertByte?` has that of eight bits. -/
def convert (t target : Vartype) (x : Int) : Int :=
  match t, target with
  | spin, binary => (x + 1).tdiv 2
  | binary, spin => 2 * x - 1
  | _, _ => x

/-- The other value of the domain. -/
def flip : Vartype → Int → Int
  | spin, x => -x
  | binary, x => 1 - x

/-- A number that eight bits hold with a sign, as values are stored. -/
def byte? (x : Int) : Option Int :=
  if -128 ≤ x ∧ x ≤ 127 then some x else none

/-- `convert` where eight bits hold every step. -/
def convertByte? (t target : Vartype) (x : Int) : Option Int :=
  match t, target with
  | spin, binary => (byte? (x + 1)).map (·.tdiv 2)
  | binary, spin => (byte? (2 * x)).bind (fun y => byte? (y - 1))
  | _, _ => some x

/-- `flip` where eight bits hold the result. -/
def flipByte? : Vartype → Int → Option Int
  | spin, x => byte? (-x)
  | binary, x => byte? (1 - x)

def name : Vartype → String
  | spin => "SPIN"
  | binary => "BINARY"

instance : ToString Vartype := ⟨name⟩

/-- A text that names no domain. -/
structure UnknownName where
  text : String
  deriving DecidableEq, Repr

def UnknownName.message (e : UnknownName) : String :=
  "`" ++ e.text ++ "` is not a vartype, expected `SPIN` or `BINARY`"

/-- Reads a domain's name; only ASCII letters may differ in case. -/
def parse (text : String) : Except UnknownName Vartype :=
  let letters := text.toList.map Char.toLower
  if letters = "spin".toList then .ok spin
  else if letters = "binary".toList then .ok binary
  else .error ⟨text⟩

theorem contains_iff (t : Vartype) (x : Int) : t.contains x = true ↔ x = t.low ∨ x = t.high := by
  simp [contains, values]

theorem flip_flip (t : Vartype) (x : Int) : t.flip (t.flip x) = x := by
  cases t <;> simp only [flip] <;> omega

end Vartype
end BinaryQuadratic
