import BinaryQuadratic.Proofs.Sampler.Stack

namespace BinaryQuadratic
open SampleM

variable {σ V R : Type}

/-- Parameters in which a layer of flips finds what it looks for, or finds nothing. -/
structure SpinReversal.Readable (params : Params) : Prop where
  transforms : ∃ count, transformsAsked params = .ok count
  seed : ∃ seed, seedAsked params = .ok seed

/-- Every well-formed model over `n` variables gets a set over its own variables and domain. -/
def Sampler.Succeeds (sampler : Sampler σ V R) (n : Nat) : Prop :=
  ∀ {m : Model V R} {params : Params} (s : Session σ), m.WellFormed → m.numVariables = n →
    SpinReversal.Readable params → ∃ set s', outcome (sampler.sample m params) s = (.ok set, s') ∧
      set.WellFormed ∧ set.labels = m.labels ∧ set.vartype = m.vartype

/-- Bits can always be had, and only the source of later ones changes. -/
theorem outcome_bits_ok (seed : Option UInt64) (s : Session σ) :
    ∃ source randomness, outcome (bits seed : SampleM σ V BitSource) s =
      (.ok source, { s with randomness := randomness }) := by
  cases seed with
  | none => exact ⟨_, _, rfl⟩
  | some seed => exact ⟨_, _, rfl⟩

namespace SpinReversal

/-- Neither name is left for the child. -/
theorem readable_remaining (child : Sampler σ V R) (params : Params) :
    Readable (remaining child params) := by
  have hseed : (remaining child params).get? seedName = none := by
    simp [remaining, Params.get?_erase]
  exact ⟨⟨_, transformsAsked_of_absent (get?_transformsName_remaining child params)⟩, none,
    (Params.takeWith_eq_none ..).mpr hseed⟩

theorem chosen_sublist (vs : List α) (bits : List Bool) : (chosen vs bits).Sublist vs := by
  unfold chosen
  induction vs generalizing bits with
  | nil => simp
  | cons v vs ih =>
    cases bits with
    | nil => simp
    | cons b bits => cases b <;> simp [ih]

theorem mem_of_mem_chosen {vs : List α} {bits : List Bool} {v : α} (h : v ∈ chosen vs bits) :
    v ∈ vs :=
  (chosen_sublist vs bits).subset h

variable [DecidableEq V] [Coefficient R] {child : Sampler σ V R} {params : Params}

theorem transform_succeeds {m : Model V R} (h : child.Succeeds m.numVariables) (hm : m.WellFormed)
    (hread : Readable params) {flips : List V} (hflips : ∀ v ∈ flips, v ∈ m.labels)
    (s : Session σ) : ∃ set s', outcome (transform child m params flips) s = (.ok set, s') ∧
      set.WellFormed ∧ set.labels = m.labels ∧ set.vartype = m.vartype := by
  obtain ⟨transformed, hmodel, hwellFormed, hlabels, hvartype⟩ := hm.flips hflips
  have hsize : transformed.numVariables = m.numVariables := by
    rw [← Model.length_labels, hlabels, Model.length_labels]
  obtain ⟨inner, s', hinner, hset, hl, hv⟩ := h s hwellFormed hsize hread
  have hcolumns : ∀ v ∈ flips, v ∈ inner.labels := by rwa [hl, hlabels]
  obtain ⟨set, hback, hset, hl', hv'⟩ := hset.flips hcolumns
  exact ⟨set, s', transform_ok.mpr ⟨transformed, inner, hmodel, hinner, hback⟩, hset,
    hl'.trans (hl.trans hlabels), hv'.trans (hv.trans hvartype)⟩

/-- Whatever bits are drawn, no transform in a row fails. -/
theorem transforms_succeed {m : Model V R} (h : child.Succeeds m.numVariables) (hm : m.WellFormed)
    (hread : Readable params) (n : Nat) (source : BitSource) (s : Session σ) :
    ∃ sets s', outcome (transforms child m params n source) s = (.ok sets, s') ∧
      ∀ p ∈ sets, p.WellFormed ∧ p.labels = m.labels ∧ p.vartype = m.vartype := by
  induction n generalizing source s with
  | zero => exact ⟨[], s, rfl, by simp⟩
  | succ n ih =>
    have hflips : ∀ v ∈ chosen m.labels (source.draw m.numVariables).1, v ∈ m.labels :=
      fun v => mem_of_mem_chosen
    obtain ⟨set, s₁, hset, hkeeps⟩ := transform_succeeds h hm hread hflips s
    obtain ⟨sets, s₂, hsets, hall⟩ := ih (source.draw m.numVariables).2 s₁
    refine ⟨set :: sets, s₂, ?_, ?_⟩
    · exact bind_outcome_ok.mpr ⟨set, s₁, hset, bind_outcome_ok.mpr ⟨sets, s₂, hsets, rfl⟩⟩
    · exact List.forall_mem_cons.mpr ⟨hkeeps, hall⟩

/-- At least one transform is made, so that there is something to join. -/
theorem succeeds {n : Nat} (h : child.Succeeds n) : (Composite.spinReversal child).Succeeds n := by
  intro m params s hm hn hread
  subst hn
  obtain ⟨count, hcount⟩ := hread.transforms
  obtain ⟨seed, hseed⟩ := hread.seed
  let s₀ : Session σ := { s with warnings := s.warnings ++ params.unknown (parametersOver child) }
  obtain ⟨source, randomness, hsource⟩ := outcome_bits_ok (V := V) seed s₀
  let s₁ : Session σ := { s₀ with randomness := randomness }
  obtain ⟨sets, s₂, hsets, hall⟩ :=
    transforms_succeed (m := m.changeVartype .spin) (by rwa [Model.numVariables_changeVartype])
      (hm.changeVartype .spin) (readable_remaining child params) count.toNat source s₁
  have hne : sets ≠ [] := by
    have hlength := (transforms_ok hsets).1
    have hpos := count.toNat_pos
    rintro rfl
    simp only [List.length_nil] at hlength
    omega
  obtain ⟨joined, hjoined⟩ := SampleSet.WellFormed.joins hne hall
  have hjoinedWellFormed := SampleSet.WellFormed.concatenate (fun p hp => (hall p hp).1) hjoined
  obtain ⟨_, hsame, _⟩ := SampleSet.concatenate_ok hjoined
  obtain ⟨p, hp⟩ := List.exists_mem_of_ne_nil sets hne
  refine ⟨joined.changeVartype m.vartype, s₂, ?_, hjoinedWellFormed.changeVartype _, ?_, rfl⟩
  · change outcome (sample child m params) s = _
    rw [sample_eq]
    refine bind_outcome_ok.mpr ⟨(), s₀, outcome_warnUnknown _ _ s, ?_⟩
    refine bind_outcome_ok.mpr ⟨count, s₀, ofParam_outcome_ok.mpr ⟨hcount, rfl⟩, ?_⟩
    refine bind_outcome_ok.mpr ⟨seed, s₀, ofParam_outcome_ok.mpr ⟨hseed, rfl⟩, ?_⟩
    refine bind_outcome_ok.mpr ⟨source, s₁, hsource, ?_⟩
    refine bind_outcome_ok.mpr ⟨sets, s₂, hsets, ?_⟩
    exact bind_outcome_ok.mpr ⟨joined, s₂, ofModel_outcome_ok.mpr ⟨hjoined, rfl⟩, rfl⟩
  · exact (hsame p hp).1.symm.trans ((hall p hp).2.1.trans (Model.labels_changeVartype m .spin))

end SpinReversal

variable [Coefficient R]

theorem TruncateConfig.apply_keeps {set : SampleSet V R} (h : set.WellFormed)
    (config : TruncateConfig) : (config.apply set).WellFormed ∧
      (config.apply set).labels = set.labels ∧ (config.apply set).vartype = set.vartype := by
  let merged := if config.aggregate then set.aggregate else set
  obtain ⟨hmerged, hlabels, hvartype⟩ :
      merged.WellFormed ∧ merged.labels = set.labels ∧ merged.vartype = set.vartype := by
    cases haggregate : config.aggregate with
    | true => simpa [merged, haggregate] using ⟨h.aggregate, rfl, rfl⟩
    | false => simpa [merged, haggregate] using h
  obtain ⟨indices, he⟩ := SampleSet.truncate_eq_select merged config.size.toNat config.sortedBy
  change (merged.truncate _ _).WellFormed ∧ (merged.truncate _ _).labels = _ ∧
    (merged.truncate _ _).vartype = _
  rw [he]
  exact ⟨hmerged.select indices, hlabels, hvartype⟩

theorem TruncateConfig.succeeds {child : Sampler σ V R} {n : Nat} (h : child.Succeeds n)
    (config : TruncateConfig) : (Composite.truncate child config).Succeeds n := by
  intro m params s hm hn hread
  obtain ⟨set, s', hrun, hset, hlabels, hvartype⟩ := h s hm hn hread
  obtain ⟨hkept, hl, hv⟩ := config.apply_keeps hset
  exact ⟨config.apply set, s', bind_outcome_ok.mpr ⟨set, s', hrun, rfl⟩, hkept,
    hl.trans hlabels, hv.trans hvartype⟩

variable [DecidableEq V]

/-- Over as many variables, any model of either domain can be enumerated if one can. -/
theorem ExhaustiveSampler.succeeds {t : Vartype} {n : Nat} {a : Matrix}
    (h : enumerate t n = .ok a) (e : ExhaustiveSampler) :
    (e.sampler : Sampler σ V R).Succeeds n := by
  intro m params s hm hn _
  subst hn
  cases hempty : m.isEmpty with
  | true =>
    refine ⟨_, _, sample_of_isEmpty hempty e params s, SampleSet.wellFormed_empty _, ?_, rfl⟩
    have hlinear : m.linear = [] := List.isEmpty_iff.mp hempty
    simp [SampleSet.empty, Model.labels, hlinear]
  | false =>
    obtain ⟨samples, henum⟩ := enumerate_of_enumerate h m.vartype
    exact ⟨_, _, sample_of_enumerate hm hempty henum e params s, wellFormed_evaluated henum,
      rfl, rfl⟩

/-- No layer adds a failure to those of the enumeration and of the parameters. -/
theorem Stack.succeeds {t : Vartype} {n : Nat} {a : Matrix} (h : enumerate t n = .ok a)
    (stack : Stack) : (stack.sampler : Sampler σ V R).Succeeds n := by
  induction stack with
  | exhaustive e => exact e.succeeds h
  | spinReversal child ih => exact SpinReversal.succeeds ih
  | truncate child config ih => exact TruncateConfig.succeeds ih config

end BinaryQuadratic
