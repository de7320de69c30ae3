import BinaryQuadratic.Proofs.Model.Energy
import BinaryQuadratic.Proofs.Model.Reachable

namespace BinaryQuadratic.Model

variable {V R : Type} [Coefficient R]

/-! The functions that go by position, with every position looked at before it is used. No answer
means that one of them lay outside; an error of the function itself is an answer. -/

def modifyBias? (i : Nat) (f : R → R) (l : List (V × R)) : Option (List (V × R)) :=
  if i < l.length then some (modifyBias i f l) else none

def evaluate? (m : Model V R) (sample : List Int) : Option R := do
  let xs : List R := sample.map Coefficient.ofInt
  let linear := Coefficient.sum (m.biases.zipWith (· * ·) xs)
  let terms ← m.quadratic.mapM (fun ((i, j), b) => do return b * (← xs[i]?) * (← xs[j]?))
  return m.offset + linear + Coefficient.sum terms

def energy? (m : Model V R) (sample : List Int) : Option (Except (ModelError V) R) :=
  if sample.length ≠ m.numVariables then
    some (.error (.sampleLength m.numVariables sample.length))
  else
    match sample.find? (fun x => !m.vartype.contains x) with
    | some x => some (.error (.invalidValue x m.vartype))
    | none => (m.evaluate? sample).map .ok

def energies? (m : Model V R) : List (List Int) → Option (Except (ModelError V) (List R))
  | [] => some (.ok [])
  | sample :: samples => do
    match ← m.energy? sample with
    | .error why => return .error why
    | .ok e => return (← m.energies? samples).map (e :: ·)

def toSpin? (m : Model V R) : Option (Model V R) := do
  let two : R := Coefficient.ofInt 2
  let four : R := Coefficient.ofInt 4
  let linear ← (m.quadratic.map (fun (k, b) => (k, b / four))).foldlM
    (fun l ((i, j), b) => do modifyBias? j (· + b) (← modifyBias? i (· + b) l))
    (m.linear.map (fun (v, b) => (v, b / two)))
  return { m.toSpin with linear := linear }

def toBinary? (m : Model V R) : Option (Model V R) := do
  let two : R := Coefficient.ofInt 2
  let linear ← m.quadratic.foldlM
    (fun l ((i, j), b) => do modifyBias? j (· - two * b) (← modifyBias? i (· - two * b) l))
    (m.linear.map (fun (v, b) => (v, b * two)))
  return { m.toBinary with linear := linear }

def changeVartype? (m : Model V R) (t : Vartype) : Option (Model V R) :=
  match m.vartype, t with
  | .binary, .spin => m.toSpin?
  | .spin, .binary => m.toBinary?
  | _, _ => some m

def flipAt? (m : Model V R) (k : Nat) : Option (Model V R) := do
  let negated ← modifyBias? k (- ·) m.linear
  match m.vartype with
  | .spin => return { m.flipAt k with linear := negated }
  | .binary =>
    let linear ← m.quadratic.foldlM
      (fun l ((i, j), b) =>
        if i = k then modifyBias? j (· + b) l
        else if j = k then modifyBias? i (· + b) l
        else some l) negated
    return { m.flipAt k with linear := linear }

def flipVariable? [DecidableEq V] (m : Model V R) (v : V) :
    Option (Except (ModelError V) (Model V R)) :=
  match m.indexOf? v with
  | some k => (m.flipAt? k).map .ok
  | none => some (.error (.unknownVariable v))

section
omit [Coefficient R]

@[simp] theorem length_modifyBias (i : Nat) (f : R → R) (l : List (V × R)) :
    (modifyBias i f l).length = l.length := by
  simp [modifyBias]

theorem modifyBias?_of_lt {i : Nat} {f : R → R} {l : List (V × R)} (h : i < l.length) :
    modifyBias? i f l = some (modifyBias i f l) := by
  simp [modifyBias?, h]

/-- A fold whose steps all stay inside is the plain fold. A step only has to be looked at on lists
as long as the first, because none changes the length. -/
theorem foldlM_in_range {A : Type} {f? : List (V × R) → A → Option (List (V × R))}
    {f : List (V × R) → A → List (V × R)} {as : List A} {n : Nat}
    (hstep : ∀ a ∈ as, ∀ l, l.length = n → f? l a = some (f l a))
    (hlength : ∀ l a, (f l a).length = l.length) {l : List (V × R)} (hl : l.length = n) :
    as.foldlM f? l = some (as.foldl f l) := by
  induction as generalizing l with
  | nil => rfl
  | cons a as ih =>
    rw [List.foldlM_cons, hstep a (by simp) l hl]
    exact ih (fun b hb => hstep b (by simp [hb])) ((hlength l a).trans hl)

theorem WellFormed.lt_of_mem {m : Model V R} (h : m.WellFormed) {q : (Nat × Nat) × R}
    (hq : q ∈ m.quadratic) : q.1.1 < q.1.2 :=
  (h.ordered q.1 (List.mem_map.mpr ⟨q, hq, rfl⟩)).1

theorem WellFormed.range {m : Model V R} (h : m.WellFormed) {q : (Nat × Nat) × R}
    (hq : q ∈ m.quadratic) : q.1.1 < m.numVariables ∧ q.1.2 < m.numVariables := by
  obtain ⟨hlt, hj⟩ := h.ordered q.1 (List.mem_map.mpr ⟨q, hq, rfl⟩)
  exact ⟨Nat.lt_trans hlt hj, hj⟩

end

theorem WellFormed.evaluate? {m : Model V R} (h : m.WellFormed) {sample : List Int}
    (hn : sample.length = m.numVariables) : m.evaluate? sample = some (m.evaluate sample) := by
  simp only [Model.evaluate?]
  rw [mapM_eq_pure (g := fun ((i, j), b) =>
    b * (sample.map Coefficient.ofInt).getD i Coefficient.zero *
      (sample.map Coefficient.ofInt).getD j Coefficient.zero)]
  · rfl
  · intro q hq
    obtain ⟨hi, hj⟩ := h.range hq
    rw [← hn] at hi hj
    simp [hi, hj]

theorem WellFormed.energy? {m : Model V R} (h : m.WellFormed) (sample : List Int) :
    m.energy? sample = some (m.energy sample) := by
  unfold Model.energy? Model.energy
  by_cases hn : sample.length = m.numVariables
  · cases sample.find? (fun x => !m.vartype.contains x) with
    | none => simp [hn, h.evaluate? hn]
    | some x => simp [hn]
  · simp [hn]

theorem WellFormed.energies? {m : Model V R} (h : m.WellFormed) (samples : List (List Int)) :
    m.energies? samples = some (m.energies samples) := by
  unfold energies
  induction samples with
  | nil => rfl
  | cons sample samples ih =>
    rw [Model.energies?, h.energy?, List.mapM_cons]
    cases m.energy sample with
    | error why => rfl
    | ok e =>
      rw [ih]
      cases samples.mapM m.energy <;> rfl

theorem WellFormed.toSpin? {m : Model V R} (h : m.WellFormed) : m.toSpin? = some m.toSpin := by
  rw [Model.toSpin?, foldlM_in_range (n := m.numVariables)
    (f := fun l ((i, j), b) => modifyBias j (· + b) (modifyBias i (· + b) l))]
  · rfl
  · intro q hq l hl
    obtain ⟨p, hp, rfl⟩ := List.mem_map.mp hq
    obtain ⟨hi, hj⟩ := h.range hp
    simp [modifyBias?, length_modifyBias, hl, hi, hj]
  · simp [length_modifyBias]
  · simp [numVariables]

theorem WellFormed.toBinary? {m : Model V R} (h : m.WellFormed) :
    m.toBinary? = some m.toBinary := by
  rw [Model.toBinary?, foldlM_in_range (n := m.numVariables)
    (f := fun l ((i, j), b) => modifyBias j (· - Coefficient.ofInt 2 * b)
      (modifyBias i (· - Coefficient.ofInt 2 * b) l))]
  · rfl
  · intro q hq l hl
    obtain ⟨hi, hj⟩ := h.range hq
    simp [modifyBias?, length_modifyBias, hl, hi, hj]
  · simp [length_modifyBias]
  · simp [numVariables]

theorem WellFormed.changeVartype? {m : Model V R} (h : m.WellFormed) (t : Vartype) :
    m.changeVartype? t = some (m.changeVartype t) := by
  unfold Model.changeVartype? Model.changeVartype
  cases m.vartype <;> cases t
  · rfl
  · exact h.toBinary?
  · exact h.toSpin?
  · rfl

theorem WellFormed.flipAt? {m : Model V R} (h : m.WellFormed) {k : Nat} (hk : k < m.numVariables) :
    m.flipAt? k = some (m.flipAt k) := by
  rw [Model.flipAt?, modifyBias?_of_lt hk]
  unfold Model.flipAt
  cases ht : m.vartype with
  | spin => rfl
  | binary =>
    rw [Option.bind_eq_bind, Option.bind_some]
    dsimp only
    rw [foldlM_in_range (n := m.numVariables) (f := fun l ((i, j), b) =>
      if i = k then modifyBias j (· + b) l else if j = k then modifyBias i (· + b) l else l)]
    · rfl
    · intro q hq l hl
      obtain ⟨hi, hj⟩ := h.range hq
      by_cases hik : q.1.1 = k
      · simp [modifyBias?, hik, hl, hj]
      · by_cases hjk : q.1.2 = k <;> simp [modifyBias?, hik, hjk, hl, hi]
    · intro l q
      dsimp only
      split
      · simp [length_modifyBias]
      · split <;> simp [length_modifyBias]
    · simp [length_modifyBias, numVariables]

omit [Coefficient R] in
theorem indexOf?_lt [DecidableEq V] {m : Model V R} {v : V} {k : Nat} (h : m.indexOf? v = some k) :
    k < m.numVariables := by
  rw [← length_labels]
  exact (List.findIdx?_eq_some_iff_getElem.mp h).1

theorem WellFormed.flipVariable? [DecidableEq V] {m : Model V R} (h : m.WellFormed) (v : V) :
    m.flipVariable? v = some (m.flipVariable v) := by
  unfold Model.flipVariable? Model.flipVariable
  cases hk : m.indexOf? v with
  | none => rfl
  | some k => simp [h.flipAt? (indexOf?_lt hk)]

/-- After any run of calls, failing ones included, labels and keys are distinct, a key names two
different variables of the model, and so no function goes outside the sample or the biases. -/
theorem reachable_in_range [DecidableEq V] (m : Model V R) (h : m.Reachable) :
    m.labels.Nodup ∧ m.keys.Nodup ∧ (∀ k ∈ m.keys, k.1 < k.2 ∧ k.2 < m.numVariables) ∧
      m.interactions.length = m.numInteractions ∧
      (∀ sample, (∃ e, m.energy sample = .ok e) ↔
        sample.length = m.numVariables ∧ ∀ x ∈ sample, m.vartype.contains x = true) ∧
      (∀ sample, m.energy? sample = some (m.energy sample)) ∧
      (∀ samples, m.energies? samples = some (m.energies samples)) ∧
      (∀ t, m.changeVartype? t = some (m.changeVartype t)) ∧
      ∀ v, m.flipVariable? v = some (m.flipVariable v) := by
  have hw := h.wellFormed
  refine ⟨hw.labels, hw.keys, hw.ordered, hw.length_interactions, ?_, hw.energy?, hw.energies?,
    hw.changeVartype?, hw.flipVariable?⟩
  intro sample
  constructor
  · rintro ⟨e, he⟩
    exact (energy_ok.mp he).1
  · intro hf
    exact ⟨_, energy_ok.mpr ⟨hf, rfl⟩⟩

/-- A pair given in both orders, a variable that cannot be joined with itself, and one joined from
the right: two keys remain, and both are in range. -/
theorem reachable_in_range_of_joins :
    let q : List ((String × String) × Rat) := [(("a", "b"), 1), (("b", "a"), 2), (("b", "b"), 3)]
    let m := Edit.apply (Edit.apply (ofQubo q 0) (.addInteraction "c" "c" 1))
      (.addInteraction "c" "a" 5)
    m.Reachable ∧ m.keys = [(0, 1), (0, 2)] ∧ m.numVariables = 3 ∧ m.interactions.length = 2 ∧
      m.changeVartype? .spin = some (m.changeVartype .spin) := by
  intro q m
  have h : m.Reachable := .edit (.edit (.ofQubo q 0) _) _
  obtain ⟨_, _, _, hlength, _, _, _, hspin, _⟩ := reachable_in_range m h
  exact ⟨h, by decide, by decide, hlength, hspin .spin⟩

end BinaryQuadratic.Model
