import BinaryQuadratic.Proofs.Model.Identity

namespace BinaryQuadratic.Model

/-- The other value of a variable, as a map on all numbers. -/
def complement (t : Vartype) (x : Rat) : Rat :=
  match t with
  | .spin => -x
  | .binary => 1 - x

theorem complement_complement (t : Vartype) (x : Rat) : complement t (complement t x) = x := by
  cases t <;> simp only [complement] <;> ring

/-- Values that are each other's complement stay so over another domain. -/
theorem rescale_complement (t target : Vartype) (x : Rat) :
    rescale t target (complement t x) = complement target (rescale t target x) := by
  cases t <;> cases target <;> simp only [rescale, complement] <;> ring

variable {V : Type} {m : Model V Rat}

theorem WellFormed.polynomial_flipAt (h : m.WellFormed) {k : Nat} (hk : k < m.numVariables)
    (x : Nat → Rat) :
    (m.flipAt k).polynomial x =
      m.polynomial (Function.update x k (complement m.vartype (x k))) := by
  cases ht : m.vartype with
  | spin => exact h.polynomial_flipAt_spin ht hk x
  | binary => exact h.polynomial_flipAt_binary ht hk x

/-- What a flip moved into other biases and the offset, the next flip takes out again. -/
theorem WellFormed.flipAt_flipAt (h : m.WellFormed) {k : Nat} (hk : k < m.numVariables) :
    (m.flipAt k).flipAt k = m := by
  have hk' : k < (m.flipAt k).numVariables := by rwa [numVariables_flipAt]
  refine h.eq_of_polynomial ((h.flipAt k).flipAt k) (by simp) (by simp) (by simp) (fun x => ?_)
  rw [(h.flipAt k).polynomial_flipAt hk', h.polynomial_flipAt hk, vartype_flipAt,
    Function.update_self, Function.update_idem, complement_complement, Function.update_eq_self]

/-- Also where the two variables interact. -/
theorem WellFormed.flipAt_comm (h : m.WellFormed) {j k : Nat} (hj : j < m.numVariables)
    (hk : k < m.numVariables) : (m.flipAt j).flipAt k = (m.flipAt k).flipAt j := by
  by_cases hjk : j = k
  · rw [hjk]
  have hj' : j < (m.flipAt k).numVariables := by rwa [numVariables_flipAt]
  have hk' : k < (m.flipAt j).numVariables := by rwa [numVariables_flipAt]
  have hkj : k ≠ j := fun he => hjk he.symm
  refine ((h.flipAt k).flipAt j).eq_of_polynomial ((h.flipAt j).flipAt k) (by simp) (by simp)
    (by simp) (fun x => ?_)
  rw [(h.flipAt j).polynomial_flipAt hk', h.polynomial_flipAt hj,
    (h.flipAt k).polynomial_flipAt hj', h.polynomial_flipAt hk, vartype_flipAt, vartype_flipAt,
    Function.update_of_ne hjk, Function.update_of_ne hkj, Function.update_comm hjk]

theorem WellFormed.changeVartype_flipAt (h : m.WellFormed) {k : Nat} (hk : k < m.numVariables)
    (t : Vartype) : (m.flipAt k).changeVartype t = (m.changeVartype t).flipAt k := by
  have hk' : k < (m.changeVartype t).numVariables := by rwa [numVariables_changeVartype]
  refine ((h.changeVartype t).flipAt k).eq_of_polynomial ((h.flipAt k).changeVartype t) (by simp)
    (by simp) (by simp) (fun x => ?_)
  rw [(h.flipAt k).polynomial_changeVartype, h.polynomial_flipAt hk,
    (h.changeVartype t).polynomial_flipAt hk', h.polynomial_changeVartype, vartype_flipAt,
    vartype_changeVartype, ← rescale_complement]
  refine congrArg m.polynomial (funext (fun i => ?_))
  by_cases hi : i = k
  · rw [hi, Function.update_self, Function.update_self]
  · rw [Function.update_of_ne hi, Function.update_of_ne hi]

variable [DecidableEq V]

/-- A flip done twice leads back to the model, two flips may be done in either order, and a flip
before a change of the domain is a flip after it, also where it fails. This is so of every bias,
every interaction and the offset, not only of the energies that they add up to. -/
theorem rewritings_commute (m : Model V Rat) (hm : m.Reachable) :
    (∀ v ∈ m.labels, ∃ flipped, m.flipVariable v = .ok flipped ∧
      flipped.flipVariable v = .ok m) ∧
    (∀ u ∈ m.labels, ∀ v ∈ m.labels, ∃ first second both,
      m.flipVariable u = .ok first ∧ first.flipVariable v = .ok both ∧
        m.flipVariable v = .ok second ∧ second.flipVariable u = .ok both) ∧
    ∀ v t, (m.changeVartype t).flipVariable v =
      (m.flipVariable v).map (fun flipped => flipped.changeVartype t) := by
  have h := hm.wellFormed
  refine ⟨fun v hv => ?_, fun u hu v hv => ?_, fun v t => ?_⟩
  · obtain ⟨k, hk⟩ := List.mem_iff_getElem?.mp hv
    have hback := (h.flipAt k).flipVariable_of_label ((labels_flipAt m k).symm ▸ hk)
    rw [h.flipAt_flipAt (lt_of_label hk)] at hback
    exact ⟨m.flipAt k, h.flipVariable_of_label hk, hback⟩
  · obtain ⟨j, hj⟩ := List.mem_iff_getElem?.mp hu
    obtain ⟨k, hk⟩ := List.mem_iff_getElem?.mp hv
    have hthen := (h.flipAt k).flipVariable_of_label ((labels_flipAt m k).symm ▸ hj)
    rw [← h.flipAt_comm (lt_of_label hj) (lt_of_label hk)] at hthen
    exact ⟨m.flipAt j, m.flipAt k, (m.flipAt j).flipAt k, h.flipVariable_of_label hj,
      (h.flipAt j).flipVariable_of_label ((labels_flipAt m j).symm ▸ hk),
      h.flipVariable_of_label hk, hthen⟩
  · have hplace : (m.changeVartype t).indexOf? v = m.indexOf? v := by
      rw [indexOf?, labels_changeVartype, indexOf?]
    rw [flipVariable, flipVariable, hplace]
    cases hk : m.indexOf? v with
    | none => rfl
    | some k => exact congrArg Except.ok (h.changeVartype_flipAt (indexOf?_lt hk) t).symm

/-- Two bits that interact with a third, all of them flipped, and one that is in no model. -/
theorem rewritings_of_three_bits :
    let m : Model String Rat := ofQubo [(("a", "b"), 3), (("c", "b"), -5), (("b", "b"), 2)] 1
    m.Reachable ∧ "a" ∈ m.labels ∧ "b" ∈ m.labels ∧
      (∃ flipped, m.flipVariable "b" = .ok flipped ∧ flipped.flipVariable "b" = .ok m) ∧
      (∃ first second both, m.flipVariable "a" = .ok first ∧ first.flipVariable "b" = .ok both ∧
        m.flipVariable "b" = .ok second ∧ second.flipVariable "a" = .ok both) ∧
      (m.changeVartype .spin).flipVariable "b" =
        (m.flipVariable "b").map (fun flipped => flipped.changeVartype .spin) := by
  intro m
  have hm : m.Reachable := .ofQubo _ _
  have ha : "a" ∈ m.labels := by decide
  have hb : "b" ∈ m.labels := by decide
  obtain ⟨htwice, heither, hdomain⟩ := rewritings_commute m hm
  exact ⟨hm, ha, hb, htwice "b" hb, heither "a" ha "b" hb, hdomain "b" .spin⟩

end BinaryQuadratic.Model
