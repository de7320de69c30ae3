import BinaryQuadratic.Model.Equality
import BinaryQuadratic.Proofs.Double
import BinaryQuadratic.Proofs.Model.Contents
import BinaryQuadratic.Proofs.Model.Energy
import BinaryQuadratic.Proofs.Model.Polynomial
import BinaryQuadratic.Proofs.Model.Reachable

namespace BinaryQuadratic.Model

variable {V : Type}

section
variable {R : Type} {m m' : Model V R}

theorem mem_labels_of_mem {v : V} {b : R} (h : (v, b) ∈ m.linear) : v ∈ m.labels :=
  List.mem_map.mpr ⟨_, h, rfl⟩

theorem mem_pairs_of_mem {e : (V × V) × R} (h : e ∈ m.interactions) : s(e.1.1, e.1.2) ∈ m.pairs :=
  List.mem_map.mpr ⟨e, h, rfl⟩

theorem WellFormed.length_pairs (h : m.WellFormed) : m.pairs.length = m.numInteractions := by
  rw [pairs, List.length_map, h.length_interactions]

variable [BEq R]

/-- Two models say the same, by label and in whatever order: over one domain they have equal
offsets, the same variables with equal biases, and interactions of the same pairs with equal
biases. -/
structure SameByLabel (m m' : Model V R) : Prop where
  vartype : m.vartype = m'.vartype
  offset : (m.offset == m'.offset) = true
  labels : ∀ v, v ∈ m.labels ↔ v ∈ m'.labels
  biases : ∀ v b b', (v, b) ∈ m.linear → (v, b') ∈ m'.linear → (b == b') = true
  pairs : ∀ p, p ∈ m.pairs ↔ p ∈ m'.pairs
  interactions : ∀ e ∈ m.interactions, ∀ e' ∈ m'.interactions,
    s(e.1.1, e.1.2) = s(e'.1.1, e'.1.2) → (e.2 == e'.2) = true

theorem SameByLabel.exists_bias (h : m.SameByLabel m') {v : V} {b : R} (hb : (v, b) ∈ m.linear) :
    ∃ b', (v, b') ∈ m'.linear ∧ (b == b') = true := by
  obtain ⟨⟨w, b'⟩, hb', rfl⟩ := List.mem_map.mp ((h.labels v).mp (mem_labels_of_mem hb))
  exact ⟨b', hb', h.biases _ b b' hb hb'⟩

theorem SameByLabel.exists_interaction (h : m.SameByLabel m') {e : (V × V) × R}
    (he : e ∈ m.interactions) :
    ∃ e' ∈ m'.interactions, s(e.1.1, e.1.2) = s(e'.1.1, e'.1.2) ∧ (e.2 == e'.2) = true := by
  obtain ⟨e', he', hpair⟩ := List.mem_map.mp ((h.pairs _).mp (mem_pairs_of_mem he))
  exact ⟨e', he', hpair.symm, h.interactions e he e' he' hpair.symm⟩

variable [PartialEquivBEq R]

theorem SameByLabel.symm (h : m.SameByLabel m') : m'.SameByLabel m :=
  ⟨h.vartype.symm, PartialEquivBEq.symm h.offset, fun v => (h.labels v).symm,
    fun v b b' hb hb' => PartialEquivBEq.symm (h.biases v b' b hb' hb), fun p => (h.pairs p).symm,
    fun e he e' he' hpair => PartialEquivBEq.symm (h.interactions e' he' e he hpair.symm)⟩

theorem SameByLabel.trans {m'' : Model V R} (h : m.SameByLabel m') (g : m'.SameByLabel m'') :
    m.SameByLabel m'' := by
  refine ⟨h.vartype.trans g.vartype, PartialEquivBEq.trans h.offset g.offset,
    fun v => (h.labels v).trans (g.labels v), fun v b b'' hb hb'' => ?_,
    fun p => (h.pairs p).trans (g.pairs p), fun e he e'' he'' hpair => ?_⟩
  · obtain ⟨b', hb', hequal⟩ := h.exists_bias hb
    exact PartialEquivBEq.trans hequal (g.biases v b' b'' hb' hb'')
  · obtain ⟨e', he', hpair', hequal⟩ := h.exists_interaction he
    exact PartialEquivBEq.trans hequal
      (g.interactions e' he' e'' he'' (hpair'.symm.trans hpair))

end

section
variable {m m' : Model V Rat}

/-- What an interaction adds to the energy, with its variables in no order. -/
def pairTerm (x : V → Int) (e : Sym2 V × Rat) : Rat :=
  e.2 * (e.1.map (fun v => (x v : Rat))).mul

/-- Summed by label, an interaction weighs the values of its two variables. -/
theorem WellFormed.quadraticPart_labels (h : m.WellFormed) (x : V → Int) :
    quadraticPart m.quadratic (valueAt (m.labels.map x)) =
      ((m.interactions.map unordered).map (pairTerm x)).sum := by
  have hterm : ∀ q ∈ m.quadratic,
      Option.map (pairTerm x ∘ unordered) (do
        return ((← m.label? q.1.1, ← m.label? q.1.2), q.2)) =
      some (q.2 * valueAt (m.labels.map x) q.1.1 * valueAt (m.labels.map x) q.1.2) := by
    intro q hq
    obtain ⟨u, v, hu, hv⟩ := h.labels_of_key (List.mem_map.mpr ⟨q, hq, rfl⟩)
    rw [valueAt_label hu, valueAt_label hv, mul_assoc]
    simp [hu, hv, unordered, pairTerm]
  rw [interactions, List.map_map, List.map_filterMap, List.filterMap_congr hterm,
    List.filterMap_eq_map']
  rfl

/-- Exact numbers that compare equal are the same, so equal entries are too. -/
theorem SameByLabel.linear_subset (hsame : m.SameByLabel m') : m.linear ⊆ m'.linear := by
  intro e he
  obtain ⟨b', hb', hequal⟩ := hsame.exists_bias he
  rwa [← eq_of_beq hequal] at hb'

theorem SameByLabel.unordered_subset (hsame : m.SameByLabel m') :
    m.interactions.map unordered ⊆ m'.interactions.map unordered := by
  intro p hp
  obtain ⟨e, he, rfl⟩ := List.mem_map.mp hp
  obtain ⟨e', he', hpair, hequal⟩ := hsame.exists_interaction he
  exact List.mem_map.mpr ⟨e', he', Prod.ext hpair.symm (eq_of_beq hequal).symm⟩

end

variable [DecidableEq V]

section
variable {R : Type} [Coefficient R] [PartialEquivBEq R] {m m' : Model V R}

/-- The comparison looks up in one model what the other has, and checks the sizes. Since no label
and no pair stands twice, nothing is left over on either side. -/
theorem WellFormed.sameByLabel_of_beq (h : m.WellFormed) (h' : m'.WellFormed)
    (hbeq : m.beq m' = true) : m.SameByLabel m' := by
  simp only [beq, Bool.and_eq_true, beq_iff_eq, List.all_eq_true, Option.any_eq_true] at hbeq
  obtain ⟨⟨⟨⟨⟨hvartype, hoffset⟩, hvariables⟩, hlinear⟩, hinteractions⟩, hquadratic⟩ := hbeq
  have hlabels : m.labels.Perm m'.labels := by
    refine (List.subperm_of_subset h.labels (fun v hv => ?_)).perm_of_length_le ?_
    · obtain ⟨e, he, rfl⟩ := List.mem_map.mp hv
      obtain ⟨b', hb', _⟩ := hlinear e he
      exact isSome_bias?.mp (Option.isSome_of_mem hb')
    · rw [length_labels, length_labels, hvariables]
  have hpairs : m.pairs.Perm m'.pairs := by
    refine (List.subperm_of_subset h.pairs_nodup (fun p hp => ?_)).perm_of_length_le ?_
    · obtain ⟨e, he, rfl⟩ := List.mem_map.mp hp
      obtain ⟨b', hb', _⟩ := hquadratic e he
      exact h'.mem_pairs.mpr (Option.isSome_of_mem hb')
    · rw [h.length_pairs, h'.length_pairs, hinteractions]
  refine ⟨hvartype, hoffset, fun v => hlabels.mem_iff, fun v b b' hb hb' => ?_,
    fun p => hpairs.mem_iff, fun e he e' he' hpair => ?_⟩
  · obtain ⟨c, hc, hequal⟩ := hlinear (v, b) hb
    cases hc.symm.trans (h'.bias?_of_mem hb')
    exact hequal
  · obtain ⟨c, hc, hequal⟩ := hquadratic e he
    have hc : m'.pair? s(e.1.1, e.1.2) = some c := hc
    rw [hpair, h'.pair?_of_mem he'] at hc
    cases hc
    exact PartialEquivBEq.symm hequal

theorem SameByLabel.beq (hsame : m.SameByLabel m') (h : m.WellFormed) (h' : m'.WellFormed) :
    m.beq m' = true := by
  have hlabels := (List.perm_ext_iff_of_nodup h.labels h'.labels).mpr hsame.labels
  have hpairs := (List.perm_ext_iff_of_nodup h.pairs_nodup h'.pairs_nodup).mpr hsame.pairs
  have hvariables : m.numVariables = m'.numVariables := by
    simpa using hlabels.length_eq
  have hinteractions : m.numInteractions = m'.numInteractions := by
    simpa [h.length_pairs, h'.length_pairs] using hpairs.length_eq
  simp only [Model.beq, Bool.and_eq_true, beq_iff_eq, List.all_eq_true, Option.any_eq_true]
  refine ⟨⟨⟨⟨⟨hsame.vartype, hsame.offset⟩, hvariables⟩, fun e he => ?_⟩, hinteractions⟩,
    fun e he => ?_⟩
  · obtain ⟨b', hb', hequal⟩ := hsame.exists_bias he
    exact ⟨b', h'.bias?_of_mem hb', hequal⟩
  · obtain ⟨e', he', hpair, hequal⟩ := hsame.exists_interaction he
    refine ⟨e'.2, ?_, PartialEquivBEq.symm hequal⟩
    change m'.pair? s(e.1.1, e.1.2) = some e'.2
    rw [hpair, h'.pair?_of_mem he']

theorem WellFormed.beq_iff (h : m.WellFormed) (h' : m'.WellFormed) :
    m.beq m' = true ↔ m.SameByLabel m' :=
  ⟨h.sameByLabel_of_beq h', fun hsame => hsame.beq h h'⟩

/-- A model equals itself if its numbers do. -/
theorem WellFormed.beq_self (h : m.WellFormed) (hoffset : (m.offset == m.offset) = true)
    (hlinear : ∀ e ∈ m.linear, (e.2 == e.2) = true)
    (hquadratic : ∀ e ∈ m.quadratic, (e.2 == e.2) = true) : m.beq m = true := by
  refine (h.beq_iff h).mpr ⟨rfl, hoffset, fun v => Iff.rfl, fun v b b' hb hb' => ?_,
    fun p => Iff.rfl, fun e he e' he' hpair => ?_⟩
  · cases (h.bias?_of_mem hb).symm.trans (h.bias?_of_mem hb')
    exact hlinear _ hb
  · obtain ⟨i, j, _, _, hq⟩ := mem_interactions.mp he
    have hfiled := h.pair?_of_mem he
    rw [hpair, h.pair?_of_mem he'] at hfiled
    rw [Option.some.inj hfiled]
    exact hquadratic _ hq

end

section
variable {m m' : Model V Rat}

/-- Models of the same contents are equal, whatever the order of their variables. -/
theorem WellFormed.beq_of_contents (h : m.WellFormed) (h' : m'.WellFormed)
    (hc : m.contents = m'.contents) (ho : m.offset = m'.offset) (ht : m.vartype = m'.vartype) :
    m.beq m' = true := by
  have hbias : ∀ v, m.bias? v = m'.bias? v := congrFun (congrArg Contents.bias hc)
  have hpair : ∀ p, m.pair? p = m'.pair? p := congrFun (congrArg Contents.pair hc)
  refine (h.beq_iff h').mpr ⟨ht, by simp [ho], fun v => ?_, fun v b b' hb hb' => ?_, fun p => ?_,
    fun e he e' he' hsame => ?_⟩
  · rw [← isSome_bias?, ← isSome_bias?, hbias]
  · have hequal := (h.bias?_of_mem hb).symm.trans ((hbias v).trans (h'.bias?_of_mem hb'))
    simpa using hequal
  · rw [h.mem_pairs, h'.mem_pairs, hpair]
  · have hequal := (h.pair?_of_mem he).symm.trans ((hpair _).trans (hsame ▸ h'.pair?_of_mem he'))
    simpa using hequal

theorem WellFormed.nodup_unordered (h : m.WellFormed) : (m.interactions.map unordered).Nodup := by
  refine List.Nodup.of_map Prod.fst ?_
  rw [List.map_map]
  exact h.pairs_nodup

/-- In exact arithmetic the energy depends on what a model says, not on the order in which it says
it. -/
theorem SameByLabel.energyAt (hsame : m.SameByLabel m') (h : m.WellFormed) (h' : m'.WellFormed)
    (x : V → Int) : m.energyAt x = m'.energyAt x := by
  have hlinear : m.linear.Perm m'.linear :=
    (List.perm_ext_iff_of_nodup h.labels.of_map h'.labels.of_map).mpr
      (fun e => ⟨fun he => hsame.linear_subset he, fun he => hsame.symm.linear_subset he⟩)
  have hinteractions : (m.interactions.map unordered).Perm (m'.interactions.map unordered) :=
    (List.perm_ext_iff_of_nodup h.nodup_unordered h'.nodup_unordered).mpr
      (fun p => ⟨fun hp => hsame.unordered_subset hp, fun hp => hsame.symm.unordered_subset hp⟩)
  rw [energyAt_eq, energyAt_eq, h.quadraticPart_labels, h'.quadraticPart_labels,
    eq_of_beq hsame.offset, (hlinear.map _).sum_eq, (hinteractions.map _).sum_eq]

end

/-- Biases and offset are numbers, infinite ones included. -/
structure WithoutNaN (m : Model V Float) : Prop where
  offset : m.offset.isNaN = false
  linear : ∀ e ∈ m.linear, e.2.isNaN = false
  quadratic : ∀ e ∈ m.quadratic, e.2.isNaN = false

theorem WithoutNaN.beq_self {m : Model V Float} (h : m.WithoutNaN) (hm : m.WellFormed) :
    m.beq m = true :=
  hm.beq_self (Coefficient.float_beq_self h.offset)
    (fun e he => Coefficient.float_beq_self (h.linear e he))
    (fun e he => Coefficient.float_beq_self (h.quadratic e he))

theorem SameByLabel.energy_eq {m m' : Model V Rat} (hsame : m.SameByLabel m') (h : m.WellFormed)
    (h' : m'.WellFormed) {x : V → Int} (hx : ∀ v ∈ m.labels, m.vartype.contains (x v) = true) :
    ∃ e, m.energy (m.labels.map x) = .ok e ∧ m'.energy (m'.labels.map x) = .ok e := by
  have hx' : ∀ v ∈ m'.labels, m'.vartype.contains (x v) = true := by
    intro v hv
    rw [← hsame.vartype]
    exact hx v ((hsame.labels v).mpr hv)
  refine ⟨m.energyAt x, energy_ok.mpr ⟨⟨by simp, List.forall_mem_map.mpr hx⟩, rfl⟩,
    energy_ok.mpr ⟨⟨by simp, List.forall_mem_map.mpr hx'⟩, hsame.energyAt h h' x⟩⟩

/-- Models are equal exactly if they say the same by label, in whatever order they were built. So
the comparison is symmetric and transitive, and reflexive where there is no NaN, and an assignment
of values to labels has one energy in equal models, each taking the values in its own order. -/
theorem equal_by_label :
    (∀ a b : Model V Float, a.Reachable → b.Reachable → (a.beq b = true ↔ a.SameByLabel b)) ∧
    (∀ a : Model V Float, a.Reachable → a.WithoutNaN → a.beq a = true) ∧
    (∀ a b : Model V Float, a.Reachable → b.Reachable → a.beq b = true → b.beq a = true) ∧
    (∀ a b c : Model V Float, a.Reachable → b.Reachable → c.Reachable →
      a.beq b = true → b.beq c = true → a.beq c = true) ∧
    ∀ a b : Model V Rat, a.Reachable → b.Reachable → a.beq b = true → ∀ x : V → Int,
      (∀ v ∈ a.labels, a.vartype.contains (x v) = true) →
        ∃ e, a.energy (a.labels.map x) = .ok e ∧ b.energy (b.labels.map x) = .ok e := by
  refine ⟨fun a b ha hb => ha.wellFormed.beq_iff hb.wellFormed,
    fun a ha hnumbers => hnumbers.beq_self ha.wellFormed, fun a b ha hb hab => ?_,
    fun a b c ha hb hc hab hbc => ?_, fun a b ha hb hab x hx => ?_⟩
  · have hsame := ha.wellFormed.sameByLabel_of_beq hb.wellFormed hab
    exact hsame.symm.beq hb.wellFormed ha.wellFormed
  · have hsame := ha.wellFormed.sameByLabel_of_beq hb.wellFormed hab
    have hsame' := hb.wellFormed.sameByLabel_of_beq hc.wellFormed hbc
    exact (hsame.trans hsame').beq ha.wellFormed hc.wellFormed
  · have hsame := ha.wellFormed.sameByLabel_of_beq hb.wellFormed hab
    exact hsame.energy_eq ha.wellFormed hb.wellFormed hx

/-- Three bits, two of them joined, in three orders: once with the pair turned, and once with its
bias in two parts. -/
theorem equal_models_of_three_bits :
    let a : Model String Float := ofQubo [(("a", "b"), 3), (("c", "c"), -1)] 0.5
    let b : Model String Float := ofQubo [(("c", "c"), -1), (("b", "a"), 3)] 0.5
    let c : Model String Float := ofQubo [(("b", "a"), 1), (("c", "c"), -1), (("a", "b"), 2)] 0.5
    let a' : Model String Rat := ofQubo [(("a", "b"), 3), (("c", "c"), -1)] (1 / 2)
    let b' : Model String Rat := ofQubo [(("c", "c"), -1), (("b", "a"), 3)] (1 / 2)
    (a.Reachable ∧ b.Reachable ∧ c.Reachable ∧ a.WithoutNaN) ∧ a.beq a = true ∧
      b.beq a = true ∧ b.SameByLabel c ∧ a.beq c = true ∧
      ∃ e, a'.energy [0, 1, 1] = .ok e ∧ b'.energy [1, 1, 0] = .ok e := by
  intro a b c a' b'
  have ha : a.Reachable := .ofQubo _ _
  have hb : b.Reachable := .ofQubo _ _
  have hc : c.Reachable := .ofQubo _ _
  have hnumbers : a.WithoutNaN :=
    ⟨by decide +kernel, by decide +kernel, by decide +kernel⟩
  have hab : a.beq b = true := by decide +kernel
  have hbc : b.beq c = true := by decide +kernel
  have hab' : a'.beq b' = true := by decide +kernel
  let x : String → Int := fun v => if v = "a" then 0 else 1
  obtain ⟨hiff, hrefl, hsymm, htrans, henergies⟩ := equal_by_label (V := String)
  have henergy := henergies a' b' (.ofQubo _ _) (.ofQubo _ _) hab' x (by decide)
  exact ⟨⟨ha, hb, hc, hnumbers⟩, hrefl a ha hnumbers, hsymm a b ha hb hab,
    (hiff b c hb hc).mp hbc, htrans a b c ha hb hc hab hbc, henergy⟩

end BinaryQuadratic.Model
