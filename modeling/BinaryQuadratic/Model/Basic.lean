import BinaryQuadratic.Coefficient
import BinaryQuadratic.Model.Error

namespace BinaryQuadratic

/-- Adds `x` to the entry of `k`. A new entry goes last, and starts from zero. -/
def accumulate [DecidableEq K] [Coefficient R] (k : K) (x : R) : List (K × R) → List (K × R)
  | [] => [(k, Coefficient.zero + x)]
  | (k', x') :: rest =>
    if k' = k then (k', x' + x) :: rest else (k', x') :: accumulate k x rest

/-- A quadratic objective over two-valued variables. Variables keep the order in which they came;
an interaction is filed under the positions of its two variables, the smaller first. -/
structure Model (V R : Type) where
  linear : List (V × R)
  quadratic : List ((Nat × Nat) × R)
  offset : R
  vartype : Vartype
  deriving DecidableEq

namespace Model

variable {V R : Type}

def numVariables (m : Model V R) : Nat :=
  m.linear.length

def numInteractions (m : Model V R) : Nat :=
  m.quadratic.length

def isEmpty (m : Model V R) : Bool :=
  m.linear.isEmpty

def labels (m : Model V R) : List V :=
  m.linear.map (·.1)

def biases (m : Model V R) : List R :=
  m.linear.map (·.2)

def label? (m : Model V R) (i : Nat) : Option V :=
  m.labels[i]?

/-- The interactions by label. -/
def interactions (m : Model V R) : List ((V × V) × R) :=
  m.quadratic.filterMap (fun ((i, j), b) => do
    return ((← m.label? i, ← m.label? j), b))

/-- The key under which the interaction of positions `i` and `j` is filed. -/
def pairKey (i j : Nat) : Nat × Nat :=
  (min i j, max i j)

section
variable [DecidableEq V]

def indexOf? (m : Model V R) (v : V) : Option Nat :=
  m.labels.findIdx? (· = v)

def bias? (m : Model V R) (v : V) : Option R :=
  (m.linear.find? (·.1 = v)).map (·.2)

def interaction? (m : Model V R) (u v : V) : Option R := do
  let key := pairKey (← m.indexOf? u) (← m.indexOf? v)
  return (← m.quadratic.find? (·.1 = key)).2

/-- The position of `v`, or the one it gets when it is added next. -/
def place (m : Model V R) (v : V) : Nat :=
  (m.indexOf? v).getD m.numVariables

end

variable [Coefficient R]

def empty (t : Vartype) : Model V R :=
  ⟨[], [], Coefficient.zero, t⟩

def addOffset (m : Model V R) (x : R) : Model V R :=
  { m with offset := m.offset + x }

def addInteractionAt (m : Model V R) (i j : Nat) (x : R) : Model V R :=
  { m with quadratic := accumulate (pairKey i j) x m.quadratic }

variable [DecidableEq V]

/-- Adds to the linear bias of `v`, and tells its position. -/
def addVariable (m : Model V R) (v : V) (x : R) : Model V R × Nat :=
  ({ m with linear := accumulate v x m.linear }, m.place v)

/-- Adds to the interaction of two different variables, adding zero to the bias of either. -/
def join (m : Model V R) (u v : V) (x : R) : Model V R :=
  let (m, i) := m.addVariable u Coefficient.zero
  let (m, j) := m.addVariable v Coefficient.zero
  m.addInteractionAt i j x

def addInteraction (m : Model V R) (u v : V) (x : R) : Except (ModelError V) (Model V R) :=
  if u = v then .error (.selfLoop u) else .ok (m.join u v x)

/-- A spin model. -/
def ofIsing (h : List (V × R)) (j : List ((V × V) × R)) (offset : R) :
    Except (ModelError V) (Model V R) := do
  let m := h.foldl (fun m (v, x) => (m.addVariable v x).1) (empty .spin)
  let m ← j.foldlM (fun m ((u, v), x) => m.addInteraction u v x) m
  return m.addOffset offset

/-- A binary model. An entry on the diagonal is a linear bias, since a bit is its own square. -/
def ofQubo (q : List ((V × V) × R)) (offset : R) : Model V R :=
  let m := q.foldl
    (fun m ((u, v), x) => if u = v then (m.addVariable u x).1 else m.join u v x)
    (empty .binary)
  m.addOffset offset

end Model
end BinaryQuadratic
