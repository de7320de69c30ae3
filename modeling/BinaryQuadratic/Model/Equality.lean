import BinaryQuadratic.Model.Basic

namespace BinaryQuadratic.Model

variable {V R : Type} [DecidableEq V] [Coefficient R]

/-- Equality of domain, offset, biases and interactions, whatever the order of the variables. -/
def beq (m m' : Model V R) : Bool :=
  m.vartype == m'.vartype && m.offset == m'.offset &&
    m.numVariables == m'.numVariables && m.linear.all (fun (v, b) => (m'.bias? v).any (b == ·)) &&
    m.numInteractions == m'.numInteractions &&
    m.interactions.all (fun ((u, v), b) => (m'.interaction? u v).any (· == b))

instance : BEq (Model V R) := ⟨beq⟩

end BinaryQuadratic.Model
