import BinaryQuadratic.Proofs.Coefficient
import BinaryQuadratic.Proofs.Json.RoundTrip
import BinaryQuadratic.Proofs.Model.Equality
import BinaryQuadratic.Proofs.Model.Reachable
import BinaryQuadratic.Proofs.Vartype

namespace BinaryQuadratic.Model

section
variable {V R : Type} [DecidableEq V]

theorem assignBias_of_not_mem {v : V} {l : List (V × R)} (h : v ∉ l.map (·.1)) (b : R) :
    assignBias v b l = l ++ [(v, b)] := by
  induction l with
  | nil => rfl
  | cons e l ih =>
    obtain ⟨hne, hl⟩ := not_or.mp (fun hv => h (List.mem_cons.mpr hv))
    rw [assignBias, if_neg (fun he => hne he.symm), ih hl, List.cons_append]

theorem foldl_assignBias {before entries : List (V × R)}
    (h : ((before ++ entries).map (·.1)).Nodup) :
    entries.foldl (fun l (v, b) => assignBias v b l) before = before ++ entries := by
  induction entries generalizing before with
  | nil => simp
  | cons e entries ih =>
    obtain ⟨v, b⟩ := e
    have hnew : v ∉ before.map (·.1) := by
      rw [List.map_append, List.map_cons, List.nodup_append] at h
      exact fun hm => h.2.2 v hm v (by simp) rfl
    simp only [List.foldl_cons]
    rw [assignBias_of_not_mem hnew, ih (by simpa using h), List.append_assoc,
      List.singleton_append]

/-- Where no label is repeated, entries are kept as they stand. -/
theorem ofEntries_of_nodup {entries : List (V × R)} (h : (entries.map (·.1)).Nodup) (offset : R)
    (t : Vartype) : ofEntries entries offset t = ⟨entries, [], offset, t⟩ := by
  have hkept : entries.foldl (fun l (v, b) => assignBias v b l) [] = entries := foldl_assignBias h
  rw [ofEntries, hkept]

end

/-- Labels and numbers that JSON can hold: names for the labels, and finite biases and offset. -/
structure Writable (m : Model Label Float) : Prop where
  names : ∀ v ∈ m.labels, ∃ s, v = .name s
  biases : ∀ b ∈ m.biases, b.isFinite = true
  offset : m.offset.isFinite = true

variable {m : Model Label Float}

theorem Writable.entriesOfJson? (h : m.Writable) :
    Model.entriesOfJson? (.obj (m.linear.map (fun e => (e.1.toKey, Json.ofFloat e.2)))) =
      some m.linear := by
  have heach : ∀ e ∈ m.linear, (Json.ofFloat e.2).float?.map (Label.name e.1.toKey, ·) =
      some e := by
    intro e he
    obtain ⟨s, hs⟩ := h.names e.1 (List.mem_map.mpr ⟨e, he, rfl⟩)
    have hfinite : e.2.isFinite = true := h.biases e.2 (List.mem_map.mpr ⟨e, he, rfl⟩)
    have hkey : Label.name e.1.toKey = e.1 := by rw [hs, Label.toKey]
    rw [Json.float?_ofFloat hfinite, Option.map_some, hkey]
  unfold Model.entriesOfJson?
  simp only [Json.obj?, bind, Option.bind_some]
  exact mapM_read heach

/-- What a model without interactions is written as is read as the same model. -/
theorem Writable.ofJson?_toJson? (h : m.Writable) (hm : m.WellFormed) (hn : m.quadratic = [])
    {j : Json} (hj : m.toJson? = some j) : ofJson? j = some m := by
  rw [toJson?, hn] at hj
  cases hj
  have hparts : ∀ linear offset vartype : Json,
      (Json.obj (fieldNames.zip [linear, .obj [], offset, vartype])).parts? fieldNames =
        some [linear, .obj [], offset, vartype] := fun _ _ _ =>
    Json.parts?_zip (by decide) rfl
  have hoffset : (Json.ofFloat m.offset).float? = some m.offset := Json.float?_ofFloat h.offset
  have hsame : ofEntries m.linear m.offset m.vartype = m := by
    rw [ofEntries_of_nodup hm.labels, ← hn]
  simp only [ofJson?, hparts]
  simp [h.entriesOfJson?, hoffset, hsame]

/-- Every part of what is written has a text of its own. -/
theorem Writable.readable (h : m.Writable) {j : Json} (hj : m.toJson? = some j) :
    j.Readable := by
  unfold toJson? at hj
  split at hj
  · cases hj
    refine .obj (fun p hp => ?_)
    have hpart := (List.of_mem_zip hp).2
    simp only [List.mem_cons, List.not_mem_nil, or_false] at hpart
    rcases hpart with hlinear | hquadratic | hoffset | hvartype
    · rw [hlinear]
      refine .obj (fun e he => ?_)
      obtain ⟨⟨v, b⟩, hb, rfl⟩ := List.mem_map.mp he
      exact Json.readable_ofFloat (h.biases b (List.mem_map.mpr ⟨_, hb, rfl⟩))
    · rw [hquadratic]
      exact .obj (by simp)
    · rw [hoffset]
      exact Json.readable_ofFloat h.offset
    · rw [hvartype]
      cases m.vartype <;> exact .str _
  · cases hj

theorem nesting_toJson? {j : Json} (hj : m.toJson? = some j) :
    j.nesting ≤ Json.nestingLimit := by
  have hdepth : j.nesting ≤ 1 + 1 := by
    unfold toJson? at hj
    split at hj
    · cases hj
      refine Json.nesting_obj_le (fun p hp => ?_)
      have hpart := (List.of_mem_zip hp).2
      simp only [List.mem_cons, List.not_mem_nil, or_false] at hpart
      rcases hpart with hlinear | hquadratic | hoffset | hvartype
      · rw [hlinear]
        refine Json.nesting_obj_le (fun e he => ?_)
        obtain ⟨⟨v, b⟩, _, rfl⟩ := List.mem_map.mp he
        exact (Json.nesting_ofFloat b).le
      · rw [hquadratic]
        exact le_rfl
      · rw [hoffset, Json.nesting_ofFloat]
        exact Nat.zero_le _
      · rw [hvartype]
        cases m.vartype <;> exact Nat.zero_le _
    · cases hj
  exact hdepth.trans (by decide)

/-- A model that has no interactions is read back from its JSON text. One that has any cannot be
written, because a pair of positions is no key of an object. -/
theorem json_round_trip_without_interactions (codec : Json.Codec) (m : Model Label Float)
    (hm : m.Reachable) (h : m.Writable) :
    (m.numInteractions ≠ 0 → m.toJson? = none) ∧
      (m.numInteractions = 0 → ∃ j m', m.toJson? = some j ∧
        (codec.parse? (codec.write j)).bind ofJson? = some m' ∧ m'.beq m = true ∧
        m'.labels = m.labels ∧ m'.interactions = m.interactions) := by
  refine ⟨fun hn => ?_, fun hn => ?_⟩
  · have hquadratic : m.quadratic.isEmpty = false := by
      simpa [numInteractions] using hn
    rw [toJson?, hquadratic]
    rfl
  · have hquadratic : m.quadratic = [] := List.length_eq_zero_iff.mp hn
    obtain ⟨j, hj⟩ : ∃ j, m.toJson? = some j := by
      rw [toJson?, hquadratic]
      exact ⟨_, rfl⟩
    have hsame : ∀ x : Float, x.isFinite = true → (x == x) = true := fun x hx =>
      Coefficient.float_beq_self (Coefficient.isNaN_of_isFinite hx)
    refine ⟨j, m, hj, ?_, ?_, rfl, rfl⟩
    · rw [codec.parse?_write (h.readable hj) (nesting_toJson? hj)]
      exact h.ofJson?_toJson? hm.wellFormed hquadratic hj
    · refine hm.wellFormed.beq_self (hsame _ h.offset) (fun e he => ?_) (by simp [hquadratic])
      exact hsame _ (h.biases _ (List.mem_map.mpr ⟨e, he, rfl⟩))

theorem json_round_trip_of_two_biases :
    let m : Model Label Float := ofEntries [(.name "b\"\n", 1.5), (.name "a", -0.5)] 0.25 .binary
    m.Reachable ∧ m.Writable ∧ m.numInteractions = 0 ∧
      ∃ j m', m.toJson? = some j ∧ (Json.parse? (Json.write j)).bind ofJson? = some m' ∧
        m'.beq m = true ∧ m'.labels = [.name "b\"\n", .name "a"] := by
  intro m
  have hm : m.Reachable := .ofEntries _ _ _
  have h : m.Writable := by
    refine ⟨fun v hv => ?_, by decide +kernel, by decide +kernel⟩
    have hv : v = .name "b\"\n" ∨ v = .name "a" := by simpa [m, ofEntries, assignBias, labels] using hv
    rcases hv with rfl | rfl
    · exact ⟨_, rfl⟩
    · exact ⟨_, rfl⟩
  have hn : m.numInteractions = 0 := rfl
  obtain ⟨j, m', hj, hread, hequal, hlabels, _⟩ :=
    (json_round_trip_without_interactions .standard m hm h).2 hn
  exact ⟨hm, h, hn, j, m', hj, hread, hequal, hlabels⟩

/-- One interaction between two named variables is enough for there to be no JSON. -/
theorem no_json_with_interaction :
    let m : Model Label Float := (empty .spin).join (.name "a") (.name "b") 1.5
    m.Reachable ∧ m.Writable ∧ (∀ e ∈ m.quadratic, e.2.isFinite = true) ∧
      (∀ x ∈ m.offset :: m.biases ++ m.quadratic.map (·.2), (Json.ofFloat x).Readable) ∧
      ¬ ∃ j, m.toJson? = some j := by
  intro m
  let e : Edit Label Float := .addInteraction (.name "a") (.name "b") 1.5
  have hm : m.Reachable := .edit (.empty .spin) e
  have hfinite : ∀ x ∈ m.offset :: m.biases ++ m.quadratic.map (·.2), x.isFinite = true := by
    decide +kernel
  refine ⟨hm, ⟨fun v hv => ?_, by decide +kernel, by decide +kernel⟩, by decide +kernel,
    fun x hx => Json.readable_ofFloat (hfinite x hx), ?_⟩
  · have hv : v = .name "a" ∨ v = .name "b" := by
      simpa [m, empty, join, addVariable, addInteractionAt, accumulate, labels] using hv
    rcases hv with rfl | rfl
    · exact ⟨_, rfl⟩
    · exact ⟨_, rfl⟩
  · rintro ⟨j, hj⟩
    cases hj

end BinaryQuadratic.Model
