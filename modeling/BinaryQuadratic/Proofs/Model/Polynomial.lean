import BinaryQuadratic.Proofs.Model.Bounds

namespace BinaryQuadratic.Model
open Finset

variable {V : Type}

/-- The bias at a position, zero where there is no variable. -/
def biasAt (l : List (V × Rat)) (i : Nat) : Rat :=
  (l.map (·.2)).getD i 0

def linearPart (l : List (V × Rat)) (x : Nat → Rat) : Rat :=
  ∑ i ∈ range l.length, biasAt l i * x i

def quadraticPart (qs : List ((Nat × Nat) × Rat)) (x : Nat → Rat) : Rat :=
  (qs.map (fun q => q.2 * x q.1.1 * x q.1.2)).sum

/-- The objective as a polynomial in the values at the positions. -/
def polynomial (m : Model V Rat) (x : Nat → Rat) : Rat :=
  m.offset + linearPart m.linear x + quadraticPart m.quadratic x

def valueAt (sample : List Int) (i : Nat) : Rat :=
  (sample.getD i 0 : Int)

theorem linearPart_cons (e : V × Rat) (l : List (V × Rat)) (x : Nat → Rat) :
    linearPart (e :: l) x = e.2 * x 0 + linearPart l (fun i => x (i + 1)) := by
  simp only [linearPart, List.length_cons, sum_range_succ', biasAt, List.map_cons,
    List.getD_cons_succ, List.getD_cons_zero]
  ring

theorem coefficient_sum (xs : List Rat) : Coefficient.sum xs = xs.sum := by
  have hfold : ∀ (xs : List Rat) (a : Rat), xs.foldl (· + ·) a = a + xs.sum := by
    intro xs
    induction xs with
    | nil => simp
    | cons x xs ih =>
      intro a
      rw [List.foldl_cons, ih, List.sum_cons, add_assoc]
  rw [Coefficient.sum, hfold]
  exact zero_add _

theorem sum_zipWith_eq_linearPart (l : List (V × Rat)) (sample : List Int)
    (h : sample.length = l.length) :
    ((l.map (·.2)).zipWith (· * ·) (sample.map Coefficient.ofInt)).sum =
      linearPart l (valueAt sample) := by
  induction l generalizing sample with
  | nil => simp [linearPart]
  | cons e l ih =>
    cases sample with
    | nil => simp at h
    | cons x sample =>
      have hrest := ih sample (by simpa using h)
      simp only [List.map_cons, List.zipWith_cons_cons, List.sum_cons, hrest, linearPart_cons]
      rfl

/-- In exact arithmetic the order of the sums does not matter. -/
theorem evaluate_eq_polynomial {m : Model V Rat} {sample : List Int}
    (h : sample.length = m.numVariables) : m.evaluate sample = m.polynomial (valueAt sample) := by
  have hvalue : ∀ i, (sample.map Coefficient.ofInt).getD i (Coefficient.zero : Rat) =
      valueAt sample i := by
    intro i
    cases hx : sample[i]? <;> simp [valueAt, hx] <;> rfl
  simp only [evaluate, hvalue, coefficient_sum, biases, sum_zipWith_eq_linearPart m.linear sample h]
  rfl

/-- Only the positions of the model are looked at. -/
theorem WellFormed.quadraticPart_congr {m : Model V Rat} (h : m.WellFormed) {x y : Nat → Rat}
    (hxy : ∀ i < m.numVariables, x i = y i) :
    quadraticPart m.quadratic x = quadraticPart m.quadratic y := by
  refine congrArg List.sum (List.map_congr_left (fun q hq => ?_))
  obtain ⟨hi, hj⟩ := h.range hq
  rw [hxy _ hi, hxy _ hj]

theorem WellFormed.polynomial_congr {m : Model V Rat} (h : m.WellFormed) {x y : Nat → Rat}
    (hxy : ∀ i < m.numVariables, x i = y i) : m.polynomial x = m.polynomial y := by
  have hlinear : linearPart m.linear x = linearPart m.linear y :=
    sum_congr rfl (fun i hi => by rw [hxy i (mem_range.mp hi)])
  rw [polynomial, polynomial, hlinear, h.quadraticPart_congr hxy]

theorem biasAt_modifyBias {k : Nat} {l : List (V × Rat)} (f : Rat → Rat) (hk : k < l.length)
    (i : Nat) : biasAt (modifyBias k f l) i = if i = k then f (biasAt l k) else biasAt l i := by
  by_cases hi : i = k
  · subst hi
    simp [biasAt, modifyBias, hk]
  · have hne : k ≠ i := fun h => hi h.symm
    simp [biasAt, modifyBias, hi, hne]

theorem linearPart_modifyBias {k : Nat} {l : List (V × Rat)} (f : Rat → Rat) (hk : k < l.length)
    (x : Nat → Rat) :
    linearPart (modifyBias k f l) x = linearPart l x + (f (biasAt l k) - biasAt l k) * x k := by
  have hterm : ∀ i, biasAt (modifyBias k f l) i * x i =
      biasAt l i * x i + if i = k then (f (biasAt l k) - biasAt l k) * x k else 0 := by
    intro i
    rw [biasAt_modifyBias f hk]
    by_cases hi : i = k
    · subst hi
      simp only [↓reduceIte]
      ring
    · simp [hi]
  rw [linearPart, length_modifyBias, sum_congr rfl (fun i _ => hterm i), sum_add_distrib,
    sum_ite_eq', if_pos (mem_range.mpr hk)]
  rfl

/-- Replacing the value at one position adds its bias times the change. -/
theorem linearPart_update {k : Nat} {l : List (V × Rat)} (hk : k < l.length) (x : Nat → Rat)
    (c : Rat) :
    linearPart l (Function.update x k c) = linearPart l x + biasAt l k * (c - x k) := by
  have hterm : ∀ i, biasAt l i * Function.update x k c i =
      biasAt l i * x i + if i = k then biasAt l k * (c - x k) else 0 := by
    intro i
    by_cases hi : i = k
    · subst hi
      simp only [Function.update_self, ↓reduceIte]
      ring
    · simp [hi]
  rw [linearPart, sum_congr rfl (fun i _ => hterm i), sum_add_distrib, sum_ite_eq',
    if_pos (mem_range.mpr hk)]
  rfl

theorem linearPart_affine (l : List (V × Rat)) (x : Nat → Rat) (a c : Rat) :
    linearPart l (fun i => a * x i + c) = a * linearPart l x + c * linearPart l (fun _ => 1) := by
  simp only [linearPart, mul_sum, ← sum_add_distrib]
  exact sum_congr rfl (fun i _ => by ring)

theorem linearPart_scale (l : List (V × Rat)) (x : Nat → Rat) {f : Rat → Rat} {a : Rat}
    (hf : ∀ b, f b = a * b) :
    linearPart (l.map (fun (v, b) => (v, f b))) x = a * linearPart l x := by
  induction l generalizing x with
  | nil => simp [linearPart]
  | cons e l ih =>
    obtain ⟨v, b⟩ := e
    rw [List.map_cons, linearPart_cons, linearPart_cons, ih]
    simp only [hf]
    ring

/-- What a fold over the interactions adds up, when each adds something. -/
theorem linearPart_foldl {n : Nat} {step : List (V × Rat) → (Nat × Nat) × Rat → List (V × Rat)}
    {added : (Nat × Nat) × Rat → Rat} {x : Nat → Rat} {qs : List ((Nat × Nat) × Rat)}
    (hlength : ∀ l q, (step l q).length = l.length)
    (hstep : ∀ q ∈ qs, ∀ l, l.length = n → linearPart (step l q) x = linearPart l x + added q)
    {l : List (V × Rat)} (hl : l.length = n) :
    linearPart (qs.foldl step l) x = linearPart l x + (qs.map added).sum := by
  induction qs generalizing l with
  | nil => simp
  | cons q qs ih =>
    rw [List.foldl_cons, ih (fun p hp => hstep p (by simp [hp])) ((hlength l q).trans hl),
      hstep q (by simp) l hl, List.map_cons, List.sum_cons, add_assoc]

theorem foldl_add_biases (l : List (V × Rat)) (o : Rat) :
    l.foldl (fun x (_, b) => x + b) o = o + linearPart l (fun _ => 1) := by
  induction l generalizing o with
  | nil => simp [linearPart]
  | cons e l ih =>
    rw [List.foldl_cons, ih, linearPart_cons]
    ring

theorem foldl_sub_biases (l : List (V × Rat)) (o : Rat) :
    l.foldl (fun x (_, b) => x - b) o = o - linearPart l (fun _ => 1) := by
  induction l generalizing o with
  | nil => simp [linearPart]
  | cons e l ih =>
    rw [List.foldl_cons, ih, linearPart_cons]
    ring

theorem foldl_add_interactions (qs : List ((Nat × Nat) × Rat)) (o : Rat) :
    qs.foldl (fun x (_, b) => x + b) o = o + (qs.map (·.2)).sum := by
  induction qs generalizing o with
  | nil => simp
  | cons q qs ih =>
    rw [List.foldl_cons, ih, List.map_cons, List.sum_cons]
    ring

/-- The biases of the interactions, each times the sum of its two values. -/
def pairPart (qs : List ((Nat × Nat) × Rat)) (x : Nat → Rat) : Rat :=
  (qs.map (fun q => q.2 * (x q.1.1 + x q.1.2))).sum

/-- Each interaction adds `c` times its bias to the biases of both its variables. -/
theorem linearPart_spread {f : Rat → Rat → Rat} {c : Rat} (hf : ∀ q b, f q b = b + c * q)
    {l : List (V × Rat)} {qs : List ((Nat × Nat) × Rat)}
    (hqs : ∀ q ∈ qs, q.1.1 < l.length ∧ q.1.2 < l.length) (x : Nat → Rat) :
    linearPart (qs.foldl (fun l ((i, j), b) => modifyBias j (f b) (modifyBias i (f b) l)) l) x =
      linearPart l x + c * pairPart qs x := by
  rw [pairPart, ← List.sum_map_mul_left]
  apply linearPart_foldl (n := l.length) _ _ rfl
  · intro l q
    rw [length_modifyBias, length_modifyBias]
  · intro q hq l' hl'
    obtain ⟨hi, hj⟩ := hqs q hq
    dsimp only
    rw [linearPart_modifyBias _ (by rw [length_modifyBias, hl']; exact hj),
      linearPart_modifyBias _ (hl' ▸ hi), hf, hf]
    ring

theorem quadraticPart_affine (qs : List ((Nat × Nat) × Rat)) (x : Nat → Rat) (a c : Rat) :
    quadraticPart qs (fun i => a * x i + c) =
      a ^ 2 * quadraticPart qs x + a * c * pairPart qs x + c ^ 2 * (qs.map (·.2)).sum := by
  induction qs with
  | nil => simp [quadraticPart, pairPart]
  | cons q qs ih =>
    simp only [quadraticPart, pairPart, List.map_cons, List.sum_cons] at ih ⊢
    rw [ih]
    ring

/-- A sum in which the biases occur as factors grows with them. -/
theorem sum_scale {g : (Nat × Nat) × Rat → Rat} {a : Rat} (hg : ∀ k b, g (k, a * b) = a * g (k, b))
    {f : Rat → Rat} (hf : ∀ b, f b = a * b) (qs : List ((Nat × Nat) × Rat)) :
    ((qs.map (fun (k, b) => (k, f b))).map g).sum = a * (qs.map g).sum := by
  induction qs with
  | nil => simp
  | cons q qs ih =>
    obtain ⟨k, b⟩ := q
    simp only [List.map_cons, List.sum_cons] at ih ⊢
    rw [ih, hf, hg]
    ring

theorem ofInt_rat (n : Int) : (Coefficient.ofInt n : Rat) = n :=
  rfl

/-- Substituting `x = (s + 1) / 2` in the polynomial. -/
theorem WellFormed.polynomial_toSpin {m : Model V Rat} (h : m.WellFormed) (s : Nat → Rat) :
    m.toSpin.polynomial s = m.polynomial (fun i => 1 / 2 * s i + 1 / 2) := by
  let halves : List (V × Rat) := m.linear.map (fun (v, b) => (v, b / Coefficient.ofInt 2))
  let quarters : List ((Nat × Nat) × Rat) :=
    m.quadratic.map (fun (k, b) => (k, b / Coefficient.ofInt 4))
  have htwo : ∀ b : Rat, b / Coefficient.ofInt 2 = 1 / 2 * b := by
    intro b
    rw [ofInt_rat]
    ring
  have hfour : ∀ b : Rat, b / Coefficient.ofInt 4 = 1 / 4 * b := by
    intro b
    rw [ofInt_rat]
    ring
  have hrange : ∀ q ∈ quarters, q.1.1 < halves.length ∧ q.1.2 < halves.length := by
    intro q hq
    obtain ⟨p, hp, rfl⟩ := List.mem_map.mp hq
    simpa [halves, numVariables] using h.range hp
  have hlinear : linearPart m.toSpin.linear s = linearPart halves s + 1 * pairPart quarters s :=
    linearPart_spread (f := fun q b => b + q) (fun q b => by rw [one_mul]) hrange s
  have hoffset : m.toSpin.offset =
      m.offset + linearPart halves (fun _ => 1) + (quarters.map (·.2)).sum := by
    rw [← foldl_add_biases, ← foldl_add_interactions]
    rfl
  have hhalves : ∀ x, linearPart halves x = 1 / 2 * linearPart m.linear x := fun x =>
    linearPart_scale m.linear x htwo
  have htotal : (quarters.map (·.2)).sum = 1 / 4 * (m.quadratic.map (·.2)).sum :=
    sum_scale (fun k b => rfl) hfour m.quadratic
  have hpairs : pairPart quarters s = 1 / 4 * pairPart m.quadratic s :=
    sum_scale (fun k b => mul_assoc _ _ _) hfour m.quadratic
  have hquadratic : quadraticPart m.toSpin.quadratic s = 1 / 4 * quadraticPart m.quadratic s :=
    sum_scale (fun k b => by ring) hfour m.quadratic
  rw [polynomial, polynomial, hlinear, hoffset, hhalves, hhalves, htotal, hpairs, hquadratic,
    linearPart_affine, quadraticPart_affine]
  ring

/-- Substituting `s = 2 x - 1` in the polynomial. -/
theorem WellFormed.polynomial_toBinary {m : Model V Rat} (h : m.WellFormed) (x : Nat → Rat) :
    m.toBinary.polynomial x = m.polynomial (fun i => 2 * x i + -1) := by
  let doubles : List (V × Rat) := m.linear.map (fun (v, b) => (v, b * Coefficient.ofInt 2))
  have hrange : ∀ q ∈ m.quadratic, q.1.1 < doubles.length ∧ q.1.2 < doubles.length := by
    intro q hq
    simpa [doubles, numVariables] using h.range hq
  have hlinear : linearPart m.toBinary.linear x =
      linearPart doubles x + -2 * pairPart m.quadratic x := by
    refine linearPart_spread (f := fun q b => b - Coefficient.ofInt 2 * q) (fun q b => ?_) hrange x
    rw [ofInt_rat]
    ring
  have hoffset : m.toBinary.offset =
      m.offset - linearPart m.linear (fun _ => 1) + (m.quadratic.map (·.2)).sum := by
    rw [← foldl_sub_biases, ← foldl_add_interactions]
    rfl
  have hdoubles : linearPart doubles x = 2 * linearPart m.linear x :=
    linearPart_scale (f := (· * Coefficient.ofInt 2)) m.linear x (fun b => mul_comm b _)
  have hquadratic : quadraticPart m.toBinary.quadratic x = 4 * quadraticPart m.quadratic x :=
    sum_scale (fun k b => by ring) (fun b => rfl) m.quadratic
  rw [polynomial, polynomial, hlinear, hoffset, hdoubles, hquadratic, linearPart_affine,
    quadraticPart_affine]
  ring

/-- Changing the sign of one spin. -/
theorem WellFormed.polynomial_flipAt_spin {m : Model V Rat} (h : m.WellFormed)
    (ht : m.vartype = .spin) {k : Nat} (hk : k < m.numVariables) (x : Nat → Rat) :
    (m.flipAt k).polynomial x = m.polynomial (Function.update x k (-x k)) := by
  have hflip : m.flipAt k =
      { m with
        linear := modifyBias k (fun b => -b) m.linear
        quadratic := m.quadratic.map
          (fun ((i, j), b) => ((i, j), if i = k ∨ j = k then -b else b)) } := by
    simp only [Model.flipAt, ht]
  have hlinear : linearPart (modifyBias k (fun b => -b) m.linear) x =
      linearPart m.linear (Function.update x k (-x k)) := by
    rw [linearPart_modifyBias _ hk, linearPart_update hk]
    ring
  rw [hflip, polynomial, polynomial, hlinear, quadraticPart, quadraticPart, List.map_map]
  refine congrArg (_ + List.sum ·) (List.map_congr_left (fun q hq => ?_))
  have hij := h.lt_of_mem hq
  obtain ⟨⟨i, j⟩, b⟩ := q
  simp only [Function.comp_apply, Function.update_apply]
  by_cases hi : i = k
  · have hj : j ≠ k := by
      dsimp only at hij
      omega
    simp [hi, hj]
  · by_cases hj : j = k <;> simp [hi, hj]

/-- Replacing one bit by its complement. -/
theorem WellFormed.polynomial_flipAt_binary {m : Model V Rat} (h : m.WellFormed)
    (ht : m.vartype = .binary) {k : Nat} (hk : k < m.numVariables) (x : Nat → Rat) :
    (m.flipAt k).polynomial x = m.polynomial (Function.update x k (1 - x k)) := by
  -- What an interaction of position `k` leaves behind at its other position.
  let added : (Nat × Nat) × Rat → Rat := fun q =>
    if q.1.1 = k then q.2 * x q.1.2 else if q.1.2 = k then q.2 * x q.1.1 else 0
  have hlinear : linearPart (m.flipAt k).linear x =
      linearPart (modifyBias k (fun b => -b) m.linear) x + (m.quadratic.map added).sum := by
    simp only [Model.flipAt, ht]
    apply linearPart_foldl (n := m.numVariables)
    · intro l q
      split
      · exact length_modifyBias ..
      · split
        · exact length_modifyBias ..
        · rfl
    · intro q hq l hl
      obtain ⟨hi, hj⟩ := h.range hq
      dsimp only [added]
      split
      · rw [linearPart_modifyBias _ (hl ▸ hj)]
        ring
      · split
        · rw [linearPart_modifyBias _ (hl ▸ hi)]
          ring
        · rw [add_zero]
    · exact length_modifyBias ..
  have hoffset : (m.flipAt k).offset = m.offset + biasAt m.linear k := by
    have hk : k < m.linear.length := hk
    simp only [Model.flipAt, ht, biases, biasAt]
    simp [hk]
  have hquadratic : (m.quadratic.map added).sum + quadraticPart (m.flipAt k).quadratic x =
      quadraticPart m.quadratic (Function.update x k (1 - x k)) := by
    simp only [Model.flipAt, ht]
    rw [quadraticPart, quadraticPart, List.map_map, ← List.sum_map_add]
    refine congrArg List.sum (List.map_congr_left (fun q hq => ?_))
    have hij := h.lt_of_mem hq
    obtain ⟨⟨i, j⟩, b⟩ := q
    simp only [added, Function.comp_apply, Function.update_apply]
    by_cases hi : i = k
    · have hj : j ≠ k := by
        dsimp only at hij
        omega
      simp only [hi, hj, or_false, ↓reduceIte]
      ring
    · by_cases hj : j = k
      · simp only [hi, hj, or_true, ↓reduceIte]
        ring
      · simp [hi, hj]
  rw [polynomial, polynomial, hlinear, hoffset, ← hquadratic, linearPart_modifyBias _ hk,
    linearPart_update hk]
  ring

/-- The conversion of values as a map on all numbers. -/
def rescale (t target : Vartype) (x : Rat) : Rat :=
  match t, target with
  | .spin, .binary => 1 / 2 * x + 1 / 2
  | .binary, .spin => 2 * x + -1
  | _, _ => x

theorem WellFormed.polynomial_changeVartype {m : Model V Rat} (h : m.WellFormed) (t : Vartype)
    (x : Nat → Rat) :
    (m.changeVartype t).polynomial x = m.polynomial (fun i => rescale t m.vartype (x i)) := by
  cases hm : m.vartype with
  | spin =>
    cases t with
    | spin => simp only [Model.changeVartype, hm, rescale]
    | binary => simpa only [Model.changeVartype, hm, rescale] using h.polynomial_toBinary x
  | binary =>
    cases t with
    | spin => simpa only [Model.changeVartype, hm, rescale] using h.polynomial_toSpin x
    | binary => simp only [Model.changeVartype, hm, rescale]

/-- The energy of values given by label. -/
def energyAt (m : Model V Rat) (x : V → Int) : Rat :=
  m.evaluate (m.labels.map x)

theorem linearPart_labels (l : List (V × Rat)) (x : V → Int) :
    linearPart l (valueAt ((l.map (·.1)).map x)) = (l.map (fun e => e.2 * (x e.1 : Rat))).sum := by
  induction l with
  | nil => simp [linearPart]
  | cons e l ih =>
    simp only [List.map_cons, List.sum_cons, linearPart_cons, ← ih]
    rfl

theorem energyAt_eq (m : Model V Rat) (x : V → Int) :
    m.energyAt x = m.offset + (m.linear.map (fun e => e.2 * (x e.1 : Rat))).sum +
      quadraticPart m.quadratic (valueAt (m.labels.map x)) := by
  rw [energyAt, evaluate_eq_polynomial (by simp), polynomial, ← linearPart_labels]
  rfl

theorem valueAt_label {m : Model V Rat} {i : Nat} {v : V} (h : m.labels[i]? = some v)
    (x : V → Int) : valueAt (m.labels.map x) i = x v := by
  simp [valueAt, h]

end BinaryQuadratic.Model
