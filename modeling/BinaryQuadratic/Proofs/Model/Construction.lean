import BinaryQuadratic.Proofs.Model.Equality

namespace BinaryQuadratic

/-- A sum over entries with given factors grows by what is added to an entry, times its factor. -/
theorem sum_accumulate [DecidableEq K] (f : K → Rat) (k : K) (b : Rat) (es : List (K × Rat)) :
    ((accumulate k b es).map (fun e => e.2 * f e.1)).sum =
      (es.map (fun e => e.2 * f e.1)).sum + b * f k := by
  induction es with
  | nil =>
    have hzero : (Coefficient.zero : Rat) + b = b := zero_add b
    simp [accumulate, hzero]
  | cons e es ih =>
    by_cases he : e.1 = k
    · simp only [accumulate, he, ↓reduceIte, List.map_cons, List.sum_cons]
      ring
    · simp only [accumulate, he, ↓reduceIte, List.map_cons, List.sum_cons, ih]
      ring

namespace Model

variable {V : Type}

theorem quadraticPart_accumulate (k : Nat × Nat) (b : Rat) (qs : List ((Nat × Nat) × Rat))
    (y : Nat → Rat) :
    quadraticPart (accumulate k b qs) y = quadraticPart qs y + b * (y k.1 * y k.2) := by
  simp only [quadraticPart, mul_assoc]
  exact sum_accumulate (fun k => y k.1 * y k.2) k b qs

variable {m : Model V Rat} (x : V → Int)

theorem energyAt_addOffset (c : Rat) : (m.addOffset c).energyAt x = m.energyAt x + c := by
  have hlabels : (m.addOffset c).labels = m.labels := rfl
  rw [energyAt_eq, energyAt_eq, hlabels]
  change m.offset + c + (m.linear.map _).sum + quadraticPart m.quadratic _ = _
  ring

theorem energyAt_addInteractionAt {i j : Nat} {u v : V} (hu : m.labels[i]? = some u)
    (hv : m.labels[j]? = some v) (b : Rat) :
    (m.addInteractionAt i j b).energyAt x = m.energyAt x + b * (x u * x v) := by
  have hlabels : (m.addInteractionAt i j b).labels = m.labels := rfl
  have hquadratic : (m.addInteractionAt i j b).quadratic = accumulate (pairKey i j) b m.quadratic :=
    rfl
  let y := valueAt (m.labels.map x)
  have hfactor : y (pairKey i j).1 * y (pairKey i j).2 = x u * x v := by
    rw [← valueAt_label hu x, ← valueAt_label hv x]
    rcases Nat.le_total i j with hij | hji
    · rw [pairKey, Nat.min_eq_left hij, Nat.max_eq_right hij]
    · rw [pairKey, Nat.min_eq_right hji, Nat.max_eq_left hji, mul_comm]
  rw [energyAt_eq, energyAt_eq, hlabels, hquadratic, quadraticPart_accumulate, hfactor, ← add_assoc]
  rfl

variable [DecidableEq V]

theorem WellFormed.energyAt_addVariable (h : m.WellFormed) (v : V) (b : Rat) :
    (m.addVariable v b).1.energyAt x = m.energyAt x + b * x v := by
  have hvalues : ∀ i < m.numVariables,
      valueAt ((m.addVariable v b).1.labels.map x) i = valueAt (m.labels.map x) i := by
    intro i hi
    simp only [valueAt, List.getD_eq_getElem?_getD, List.getElem?_map,
      labels_addVariable_of_lt v b hi]
  have hlinear : ((m.addVariable v b).1.linear.map (fun e => e.2 * (x e.1 : Rat))).sum =
      (m.linear.map (fun e => e.2 * (x e.1 : Rat))).sum + b * x v :=
    sum_accumulate (fun w => (x w : Rat)) v b m.linear
  have hquadratic := h.quadraticPart_congr hvalues
  rw [energyAt_eq, energyAt_eq, hlinear, ← hquadratic]
  change m.offset + _ + quadraticPart m.quadratic _ = _
  ring

theorem WellFormed.energyAt_join (h : m.WellFormed) (u v : V) (b : Rat) :
    (m.join u v b).energyAt x = m.energyAt x + b * (x u * x v) := by
  obtain ⟨i, j, hu, hv, he⟩ := join_eq_addInteractionAt m u v b
  rw [he, energyAt_addInteractionAt x hu hv, Model.mention,
    (h.addVariable u _).energyAt_addVariable, h.energyAt_addVariable]
  change _ + 0 * _ + 0 * _ + _ = _
  ring

/-- What an entry adds to the energy. -/
def term (x : V → Int) (e : (V × V) × Rat) : Rat :=
  if e.1.1 = e.1.2 then e.2 * x e.1.1 else e.2 * (x e.1.1 * x e.1.2)

theorem WellFormed.energyAt_file (h : m.WellFormed) (e : (V × V) × Rat) :
    (m.file e).energyAt x = m.energyAt x + term x e := by
  unfold Model.file term
  split
  · exact h.energyAt_addVariable x _ _
  · exact h.energyAt_join x _ _ _

/-- What a model has become after entries were filed, in whatever order. -/
structure Filed (m : Model V Rat) (es : List ((V × V) × Rat)) (m' : Model V Rat) : Prop where
  wellFormed : m'.WellFormed
  contents : m'.contents = (es.map unordered).foldl Contents.record m.contents
  offset : m'.offset = m.offset
  vartype : m'.vartype = m.vartype
  energyAt : ∀ x, m'.energyAt x = m.energyAt x + (es.map (term x)).sum

theorem WellFormed.filed (h : m.WellFormed) (es : List ((V × V) × Rat)) :
    Filed m es (es.foldl Model.file m) := by
  induction es generalizing m with
  | nil => exact ⟨h, rfl, rfl, rfl, by simp⟩
  | cons e es ih =>
    have hrest := ih (h.file e)
    refine ⟨hrest.wellFormed, ?_, ?_, ?_, fun x => ?_⟩
    · rw [List.foldl_cons, hrest.contents, h.contents_file]
      rfl
    · exact hrest.offset.trans (offset_file m e)
    · exact hrest.vartype.trans (vartype_file m e)
    · rw [List.foldl_cons, hrest.energyAt, h.energyAt_file, List.map_cons, List.sum_cons, add_assoc]

/-- The model of a list of entries. -/
def gather {R : Type} [Coefficient R] (t : Vartype) (es : List ((V × V) × R)) (offset : R) :
    Model V R :=
  (es.foldl Model.file (empty t)).addOffset offset

theorem filed_empty (t : Vartype) (es : List ((V × V) × Rat)) :
    Filed (empty t) es (es.foldl Model.file (empty t)) :=
  (wellFormed_empty t).filed es

theorem wellFormed_gather (t : Vartype) (es : List ((V × V) × Rat)) (offset : Rat) :
    (gather t es offset).WellFormed :=
  (filed_empty t es).wellFormed.addOffset offset

theorem vartype_gather (t : Vartype) (es : List ((V × V) × Rat)) (offset : Rat) :
    (gather t es offset).vartype = t :=
  (filed_empty t es).vartype

theorem contents_gather (t : Vartype) (es : List ((V × V) × Rat)) (offset : Rat) :
    (gather t es offset).contents =
      (es.map unordered).foldl Contents.record (empty t : Model V Rat).contents :=
  (filed_empty t es).contents

theorem energyAt_gather (t : Vartype) (es : List ((V × V) × Rat)) (offset : Rat) :
    (gather t es offset).energyAt x = offset + (es.map (term x)).sum := by
  have hempty : (empty t : Model V Rat).energyAt x = 0 := by
    rw [energyAt_eq]
    simp [empty, quadraticPart]
    rfl
  rw [gather, energyAt_addOffset, (filed_empty t es).energyAt, hempty, zero_add, add_comm]

theorem mem_labels_gather (t : Vartype) {es : List ((V × V) × Rat)} (offset : Rat)
    {e : (V × V) × Rat} (he : e ∈ es) : e.1.1 ∈ (gather t es offset).labels := by
  rw [← isSome_bias?]
  change ((gather t es offset).contents.bias e.1.1).isSome = true
  rw [contents_gather, Contents.isSome_bias_foldl]
  exact .inr ⟨unordered e, List.mem_map.mpr ⟨e, he, rfl⟩, Sym2.mem_mk_left ..⟩

theorem energy_gather {t : Vartype} {es : List ((V × V) × Rat)} {offset : Rat}
    (hx : ∀ v ∈ (gather t es offset).labels, t.contains (x v) = true) :
    (gather t es offset).energy ((gather t es offset).labels.map x) =
      .ok (offset + (es.map (term x)).sum) := by
  refine energy_ok.mpr ⟨⟨by simp, ?_⟩, (energyAt_gather x t es offset).symm⟩
  rw [vartype_gather]
  exact List.forall_mem_map.mpr hx

/-- Entries in another order, some with their variables exchanged, make an equal model. -/
theorem beq_gather (t : Vartype) {es es' : List ((V × V) × Rat)} (offset : Rat)
    (h : (es.map unordered).Perm (es'.map unordered)) :
    (gather t es offset).beq (gather t es' offset) = true := by
  have hcontents : (gather t es offset).contents = (gather t es' offset).contents := by
    rw [contents_gather, contents_gather]
    exact h.foldl_eq' (fun _ _ _ _ c => c.record_comm _ _) _
  have hoffset : (gather t es offset).offset = (gather t es' offset).offset := by
    change _ + offset = _ + offset
    rw [(filed_empty t es).offset, (filed_empty t es').offset]
  exact (wellFormed_gather t es offset).beq_of_contents (wellFormed_gather t es' offset) hcontents
    hoffset (by rw [vartype_gather, vartype_gather])

section
variable {R : Type} [Coefficient R]

theorem ofQubo_eq_gather (q : List ((V × V) × R)) (offset : R) :
    ofQubo q offset = gather .binary q offset :=
  rfl

/-- The first interaction of a variable with itself, if there is one, ends a run of joins. -/
theorem foldlM_addInteraction (j : List ((V × V) × R)) (m : Model V R) :
    j.foldlM (fun m e => m.addInteraction e.1.1 e.1.2 e.2) m =
      match j.find? (fun e => e.1.1 = e.1.2) with
      | some e => .error (.selfLoop e.1.1)
      | none => .ok (j.foldl Model.file m) := by
  induction j generalizing m with
  | nil => rfl
  | cons e j ih =>
    rw [List.foldlM_cons, addInteraction]
    by_cases he : e.1.1 = e.1.2
    · simp [he, bind, Except.bind]
    · have hstep : m.file e = m.join e.1.1 e.1.2 e.2 := if_neg he
      rw [if_neg he, List.find?_cons_of_neg (by simpa using he), List.foldl_cons, hstep, ← ih]
      rfl

/-- A bias as an entry on the diagonal. -/
def diagonal (e : V × R) : (V × V) × R :=
  ((e.1, e.1), e.2)

theorem ofIsing_eq_gather (h : List (V × R)) (j : List ((V × V) × R)) (offset : R) :
    ofIsing h j offset =
      match j.find? (fun e => e.1.1 = e.1.2) with
      | some e => .error (.selfLoop e.1.1)
      | none => .ok (gather .spin (h.map diagonal ++ j) offset) := by
  have hlinear : (h.map diagonal).foldl Model.file (empty .spin) =
      h.foldl (fun m e => (m.addVariable e.1 e.2).1) (empty .spin) := by
    rw [List.foldl_map]
    simp [Model.file, diagonal]
  have hrun : ofIsing h j offset =
      j.foldlM (fun m e => m.addInteraction e.1.1 e.1.2 e.2)
          ((h.map diagonal).foldl Model.file (empty .spin)) >>=
        fun m => .ok (m.addOffset offset) := by
    rw [hlinear]
    rfl
  rw [hrun, foldlM_addInteraction, gather, List.foldl_append]
  cases j.find? (fun e => e.1.1 = e.1.2) <;> rfl

theorem ofIsing_ok {h : List (V × R)} {j : List ((V × V) × R)} {offset : R} {m : Model V R} :
    ofIsing h j offset = .ok m ↔
      (∀ e ∈ j, e.1.1 ≠ e.1.2) ∧ m = gather .spin (h.map diagonal ++ j) offset := by
  rw [ofIsing_eq_gather]
  cases hfind : j.find? (fun e => e.1.1 = e.1.2) with
  | none =>
    have hproper : ∀ e ∈ j, e.1.1 ≠ e.1.2 := by simpa using hfind
    simp only [Except.ok.injEq]
    exact ⟨fun hm => ⟨hproper, hm.symm⟩, fun hm => hm.2.symm⟩
  | some e =>
    have hloop : e.1.1 = e.1.2 := by simpa using List.find?_some hfind
    simp only [reduceCtorEq, false_iff, not_and]
    exact fun hproper => absurd hloop (hproper e (List.mem_of_find?_eq_some hfind))

end

/-- The square of a bit is the bit. -/
theorem term_of_bits {e : (V × V) × Rat} (he : Vartype.binary.contains (x e.1.1) = true) :
    term x e = e.2 * x e.1.1 * x e.1.2 := by
  unfold term
  split
  · rename_i h
    rw [← h]
    rcases (Vartype.contains_iff _ _).mp he with h | h <;> simp [h, Vartype.low, Vartype.high]
  · ring

theorem term_of_ne {e : (V × V) × Rat} (he : e.1.1 ≠ e.1.2) :
    term x e = e.2 * x e.1.1 * x e.1.2 := by
  rw [term, if_neg he]
  ring

theorem energy_ofIsing {h : List (V × Rat)} {j : List ((V × V) × Rat)} {offset : Rat}
    (hm : ofIsing h j offset = .ok m)
    (hx : ∀ v ∈ m.labels, Vartype.spin.contains (x v) = true) :
    m.energy (m.labels.map x) = .ok (offset + (h.map (fun e => e.2 * (x e.1 : Rat))).sum +
      (j.map (fun e => e.2 * (x e.1.1 : Rat) * (x e.1.2 : Rat))).sum) := by
  obtain ⟨hproper, rfl⟩ := ofIsing_ok.mp hm
  have hterms : j.map (term x) = j.map (fun e => e.2 * (x e.1.1 : Rat) * (x e.1.2 : Rat)) :=
    List.map_congr_left (fun e he => term_of_ne x (hproper e he))
  have hbiases : (h.map diagonal).map (term x) = h.map (fun e => e.2 * (x e.1 : Rat)) := by
    simp [term, diagonal]
  rw [energy_gather x hx, List.map_append, hterms, hbiases, List.sum_append, add_assoc]

theorem energy_ofQubo {q : List ((V × V) × Rat)} {offset : Rat}
    (hx : ∀ v ∈ (ofQubo q offset).labels, Vartype.binary.contains (x v) = true) :
    (ofQubo q offset).energy ((ofQubo q offset).labels.map x) =
      .ok (offset + (q.map (fun e => e.2 * (x e.1.1 : Rat) * (x e.1.2 : Rat))).sum) := by
  rw [ofQubo_eq_gather] at hx ⊢
  have hterms : q.map (term x) = q.map (fun e => e.2 * (x e.1.1 : Rat) * (x e.1.2 : Rat)) :=
    List.map_congr_left (fun e he => term_of_bits x (hx _ (mem_labels_gather .binary offset he)))
  rw [energy_gather x hx, hterms]

theorem ofIsing_perm {h h' : List (V × Rat)} {j j' : List ((V × V) × Rat)} {offset : Rat}
    (hm : ofIsing h j offset = .ok m) (hh : h.Perm h')
    (hj : (j.map unordered).Perm (j'.map unordered)) :
    ∃ m', ofIsing h' j' offset = .ok m' ∧ m.beq m' = true := by
  obtain ⟨hproper, rfl⟩ := ofIsing_ok.mp hm
  have hproper' : ∀ e ∈ j', e.1.1 ≠ e.1.2 := by
    intro e' he' hloop
    obtain ⟨e, he, hsame⟩ := List.mem_map.mp (hj.mem_iff.mpr (List.mem_map.mpr ⟨e', he', rfl⟩))
    have hpair : s(e.1.1, e.1.2) = s(e'.1.1, e'.1.2) := congrArg Prod.fst hsame
    apply hproper e he
    rcases Sym2.eq_iff.mp hpair with ⟨hu, hv⟩ | ⟨hu, hv⟩ <;> rw [hu, hv, hloop]
  refine ⟨_, ofIsing_ok.mpr ⟨hproper', rfl⟩, beq_gather .spin offset ?_⟩
  rw [List.map_append, List.map_append]
  exact ((hh.map diagonal).map unordered).append hj

/-- What is built from entries fails only for the first variable joined with itself, and has the
sum of the entries as its energy: labels and pairs may repeat, and the order of the entries and of
the two variables in each does not matter. -/
theorem built_from_entries (h : List (V × Rat)) (j q : List ((V × V) × Rat)) (offset : Rat) :
    (∀ why, ofIsing h j offset = .error why ↔
      ∃ e, j.find? (fun e => e.1.1 = e.1.2) = some e ∧ why = .selfLoop e.1.1) ∧
    (∀ m, ofIsing h j offset = .ok m → ∀ x : V → Int,
      (∀ v ∈ m.labels, Vartype.spin.contains (x v) = true) →
      m.energy (m.labels.map x) = .ok (offset + (h.map (fun e => e.2 * (x e.1 : Rat))).sum +
        (j.map (fun e => e.2 * (x e.1.1 : Rat) * (x e.1.2 : Rat))).sum)) ∧
    (∀ x : V → Int, (∀ v ∈ (ofQubo q offset).labels, Vartype.binary.contains (x v) = true) →
      (ofQubo q offset).energy ((ofQubo q offset).labels.map x) =
        .ok (offset + (q.map (fun e => e.2 * (x e.1.1 : Rat) * (x e.1.2 : Rat))).sum)) ∧
    (∀ h' j', h.Perm h' → (j.map unordered).Perm (j'.map unordered) →
      ∀ m, ofIsing h j offset = .ok m →
        ∃ m', ofIsing h' j' offset = .ok m' ∧ m.beq m' = true) ∧
    ∀ q', (q.map unordered).Perm (q'.map unordered) →
      (ofQubo q offset).beq (ofQubo q' offset) = true := by
  refine ⟨fun why => ?_, fun m hm x hx => energy_ofIsing x hm hx, fun x hx => energy_ofQubo x hx,
    fun h' j' hh hj m hm => ofIsing_perm hm hh hj, fun q' hq => beq_gather .binary offset hq⟩
  rw [ofIsing_eq_gather]
  cases j.find? (fun e => e.1.1 = e.1.2) <;> simp [eq_comm]

/-- A repeated label, a pair in both orders, a diagonal entry and its variable in a pair. -/
theorem built_from_repeated_entries :
    let h : List (String × Rat) := [("a", 1), ("b", 5), ("a", 2)]
    let j : List ((String × String) × Rat) := [(("a", "b"), 3), (("b", "a"), 4)]
    let j' : List ((String × String) × Rat) := [(("a", "b"), 4), (("a", "b"), 3)]
    let q := (("a", "a"), 7) :: j
    let q' := j' ++ [(("a", "a"), 7)]
    (∃ m m', ofIsing h j 1 = .ok m ∧ ofIsing h.reverse j' 1 = .ok m' ∧ m.beq m' = true ∧
      m.energy [-1, 1] = .ok (1 + (-1 + (5 + (-2 + 0))) + (-3 + (-4 + 0)))) ∧
    ofIsing h q 1 = .error (.selfLoop "a") ∧ (ofQubo q 1).beq (ofQubo q' 1) = true ∧
    (ofQubo q 1).energy [1, 0] = .ok (1 + (7 + (0 + (0 + 0)))) := by
  intro h j j' q q'
  have hswap : (j.map unordered).Perm (j'.map unordered) := by
    have hpair : s("b", "a") = s("a", "b") := Sym2.eq_swap
    simpa [j, j', unordered, hpair] using List.Perm.swap _ _ _
  have hdiagonal : (q.map unordered).Perm (q'.map unordered) := by
    simpa [q, q'] using (hswap.cons (unordered (("a", "a"), 7))).trans
      (List.perm_append_singleton _ _).symm
  let x : String → Int := fun v => if v = "a" then -1 else 1
  let y : String → Int := fun v => if v = "a" then 1 else 0
  obtain ⟨_, hising, hqubo, hsame, hsame'⟩ := built_from_entries h j q 1
  obtain ⟨hloop, _⟩ := built_from_entries h q q 1
  have hm : ∃ m, ofIsing h j 1 = .ok m ∧ m.labels = ["a", "b"] := ⟨_, rfl, rfl⟩
  obtain ⟨m, hm, hlabels⟩ := hm
  obtain ⟨m', hm', hbeq⟩ := hsame h.reverse j' (List.reverse_perm h).symm hswap m hm
  have henergy := hising m hm x (by rw [hlabels]; decide)
  have hbits := hqubo y (by decide)
  have hlabels' : (ofQubo q 1).labels = ["a", "b"] := rfl
  refine ⟨⟨m, m', hm, hm', hbeq, ?_⟩, ?_, hsame' q' hdiagonal, ?_⟩
  · rw [hlabels] at henergy
    simpa [h, j, x] using henergy
  · exact (hloop _).mpr ⟨_, rfl, rfl⟩
  · rw [hlabels'] at hbits
    simpa [q, j, y] using hbits

end Model
end BinaryQuadratic
