import BinaryQuadratic.Proofs.Model.Counterpart
import BinaryQuadratic.Proofs.Model.Reachable

namespace BinaryQuadratic.Model

section
variable {V R : Type}

/-- The listing by label shows the labels at the keys. -/
theorem labels_interactions_of_same {m m' : Model V R} (hlabels : m'.labels = m.labels)
    (hkeys : m'.keys = m.keys) : m'.interactions.map (·.1) = m.interactions.map (·.1) := by
  have hlisted : ∀ m : Model V R, m.interactions.map (·.1) =
      m.keys.filterMap (fun k => do return (← m.labels[k.1]?, ← m.labels[k.2]?)) := by
    intro m
    rw [interactions, keys, List.map_filterMap, List.filterMap_map]
    refine List.filterMap_congr (fun q _ => ?_)
    simp [label?, Option.map_bind]
  rw [hlisted, hlisted, hlabels, hkeys]

end

variable {V : Type} {m m' : Model V Rat}

/-! A polynomial tells its coefficients: at zero, where one variable is one, and where two are. -/

theorem linearPart_zero (l : List (V × Rat)) : linearPart l (fun _ => 0) = 0 := by
  simp [linearPart]

theorem quadraticPart_zero (qs : List ((Nat × Nat) × Rat)) : quadraticPart qs (fun _ => 0) = 0 := by
  simp [quadraticPart]

theorem polynomial_zero (m : Model V Rat) : m.polynomial (fun _ => 0) = m.offset := by
  rw [polynomial, linearPart_zero, quadraticPart_zero, add_zero, add_zero]

/-- One at position `i`, and zero elsewhere. -/
def unitAt (i : Nat) : Nat → Rat :=
  Function.update (fun _ => 0) i 1

/-- No interaction is of a variable with itself. -/
theorem WellFormed.polynomial_unitAt (h : m.WellFormed) {i : Nat} (hi : i < m.numVariables) :
    m.polynomial (unitAt i) = m.offset + biasAt m.linear i := by
  have hlinear : linearPart m.linear (unitAt i) = biasAt m.linear i := by
    rw [unitAt, linearPart_update hi, linearPart_zero]
    ring
  have hquadratic : quadraticPart m.quadratic (unitAt i) = 0 := by
    refine List.sum_eq_zero (List.forall_mem_map.mpr (fun q hq => ?_))
    have hlt := h.lt_of_mem hq
    by_cases hq1 : q.1.1 = i
    · have hq2 : q.1.2 ≠ i := by omega
      simp [unitAt, hq2]
    · simp [unitAt, hq1]
  rw [polynomial, hlinear, hquadratic, add_zero]

/-- Where only two variables are not zero, no interaction shows but theirs. -/
theorem WellFormed.polynomial_pair (h : m.WellFormed) {i j : Nat} {b : Rat}
    (hq : ((i, j), b) ∈ m.quadratic) :
    m.polynomial (Function.update (unitAt i) j 1) =
      m.offset + (biasAt m.linear i + biasAt m.linear j) + b := by
  obtain ⟨hi, hj⟩ := h.range hq
  have hij : i < j := h.lt_of_mem hq
  have hlinear : linearPart m.linear (Function.update (unitAt i) j 1) =
      biasAt m.linear i + biasAt m.linear j := by
    have hzero : unitAt i j = 0 := by simp [unitAt, hij.ne']
    rw [linearPart_update hj, unitAt, linearPart_update hi, linearPart_zero, ← unitAt, hzero]
    ring
  have hquadratic : quadraticPart m.quadratic (Function.update (unitAt i) j 1) = b := by
    rw [← sum_at_key h.keys hq, quadraticPart]
    refine congrArg List.sum (List.map_congr_left (fun q hq => ?_))
    -- of two ordered pairs that differ, one has an end that the other lacks
    by_cases hkey : q.1 = (i, j)
    · simp [hkey, unitAt, Function.update_apply, hij.ne]
    · rw [if_neg hkey]
      have hlt := h.lt_of_mem hq
      rw [Prod.ext_iff] at hkey
      have hout : q.1.1 ≠ i ∧ q.1.1 ≠ j ∨ q.1.2 ≠ i ∧ q.1.2 ≠ j := by omega
      rcases hout with ⟨hi', hj'⟩ | ⟨hi', hj'⟩
      · simp [unitAt, hi', hj']
      · simp [unitAt, hi', hj']
  rw [polynomial, hlinear, hquadratic]

/-- Labels and keys, domain and polynomial make up a model. -/
theorem WellFormed.eq_of_polynomial (h : m.WellFormed) (h' : m'.WellFormed)
    (hlabels : m'.labels = m.labels) (hkeys : m'.keys = m.keys) (hvartype : m'.vartype = m.vartype)
    (hpolynomial : ∀ x, m'.polynomial x = m.polynomial x) : m' = m := by
  have hsize : m'.numVariables = m.numVariables := by
    rw [← length_labels, hlabels, length_labels]
  have hoffset : m'.offset = m.offset := by
    rw [← polynomial_zero, hpolynomial, polynomial_zero]
  have hbias : ∀ i < m.numVariables, biasAt m'.linear i = biasAt m.linear i := by
    intro i hi
    have hunit := hpolynomial (unitAt i)
    rw [h'.polynomial_unitAt (hsize ▸ hi), h.polynomial_unitAt hi, hoffset] at hunit
    exact add_left_cancel hunit
  have hlinear : m'.linear = m.linear := by
    refine ext_values hlabels (fun i v b b' hb hb' => ?_)
    have hi : i < m.numVariables := (List.getElem?_eq_some_iff.mp hb).1
    simpa [biasAt, hb, hb'] using hbias i hi
  have hquadratic : m'.quadratic = m.quadratic := by
    refine ext_values hkeys (fun n k b b' hb hb' => ?_)
    have hq := List.mem_of_getElem? hb
    obtain ⟨hi, hj⟩ := h.range hq
    have hpair := hpolynomial (Function.update (unitAt k.1) k.2 1)
    rw [h'.polynomial_pair (List.mem_of_getElem? hb'), h.polynomial_pair hq, hoffset, hbias _ hi,
      hbias _ hj] at hpair
    exact add_left_cancel hpair
  cases m
  cases m'
  simp_all

theorem rescale_rescale (t target : Vartype) (x : Rat) :
    rescale target t (rescale t target x) = x := by
  cases t <;> cases target <;> simp only [rescale] <;> ring

/-- The way to another domain and back leads to the same model, not only to the same energies. -/
theorem WellFormed.changeVartype_changeVartype (h : m.WellFormed) (t : Vartype) :
    (m.changeVartype t).changeVartype m.vartype = m := by
  refine h.eq_of_polynomial ((h.changeVartype t).changeVartype _) (by simp) (by simp) (by simp)
    (fun x => ?_)
  rw [(h.changeVartype t).polynomial_changeVartype, h.polynomial_changeVartype]
  simp only [vartype_changeVartype, rescale_rescale]

/-- A model over another domain has the variables and the interactions of the model, in their order;
samples keep their energies when their values are converted one by one; and the way back leads to
the model itself. -/
theorem domain_change_keeps_energies [DecidableEq V] (m : Model V Rat) (hm : m.Reachable)
    (t : Vartype) :
    (∀ x, m.Fits x → ∃ e, m.energy x = .ok e ∧
      (m.changeVartype t).energy (x.map (m.vartype.convert t)) = .ok e) ∧
    (m.changeVartype t).vartype = t ∧ (m.changeVartype t).labels = m.labels ∧
    (m.changeVartype t).keys = m.keys ∧
    (m.changeVartype t).interactions.map (·.1) = m.interactions.map (·.1) ∧
    (m.changeVartype t).changeVartype m.vartype = m := by
  have h := hm.wellFormed
  refine ⟨fun x hx => ?_, vartype_changeVartype m t, labels_changeVartype m t,
    keys_changeVartype m t,
    labels_interactions_of_same (labels_changeVartype m t) (keys_changeVartype m t),
    h.changeVartype_changeVartype t⟩
  exact ⟨m.evaluate x, energy_ok.mpr ⟨hx, rfl⟩,
    energy_ok.mpr ⟨hx.changeVartype t, (h.evaluate_convert hx t).symm⟩⟩

/-- Three bits that all interact, one of them mentioned twice. -/
theorem domain_change_of_three_bits :
    let q : List ((String × String) × Rat) :=
      [(("a", "b"), 3), (("c", "a"), 5), (("b", "c"), -2), (("b", "b"), 7), (("b", "a"), 1)]
    let m := ofQubo q (1 / 2)
    m.Reachable ∧ m.Fits [1, 1, 0] ∧
      (∃ e, m.energy [1, 1, 0] = .ok e ∧ (m.changeVartype .spin).energy [1, 1, -1] = .ok e) ∧
      (m.changeVartype .spin).interactions.map (·.1) = [("a", "b"), ("a", "c"), ("b", "c")] ∧
      (m.changeVartype .spin).changeVartype .binary = m := by
  intro q m
  have hm : m.Reachable := .ofQubo _ _
  have hx : m.Fits [1, 1, 0] := ⟨rfl, by decide⟩
  obtain ⟨henergy, _, _, _, hpairs, hback⟩ := domain_change_keeps_energies m hm .spin
  exact ⟨hm, hx, henergy _ hx, hpairs.trans rfl, hback⟩

end BinaryQuadratic.Model
