import BinaryQuadratic.Proofs.SampleSet.Faithful
import BinaryQuadratic.Proofs.Sampler.Exhaustive
import BinaryQuadratic.Proofs.Sampler.SpinReversal
import BinaryQuadratic.Sampler.Truncate

namespace BinaryQuadratic
open SampleM SampleSet

variable {σ V : Type}

/-- A faithful set that holds, where `optimal` says so, a least sample of any model that has
samples. -/
structure Answers (m : Model V Rat) (s : SampleSet V Rat) (optimal : Prop) : Prop
    extends Faithful m s where
  least : optimal → m.numVariables ≠ 0 → HasLeast m s

theorem Answers.empty {m : Model V Rat} (h : m.isEmpty = true) :
    Answers m (.empty m.vartype) True := by
  have hlinear : m.linear = [] := List.isEmpty_iff.mp h
  refine ⟨⟨wellFormed_empty _, ?_, rfl, rfl, fun _ => rfl⟩, fun _ hn => ?_⟩
  · simp [SampleSet.empty, Model.labels, hlinear]
  · simp [Model.numVariables, hlinear] at hn

theorem Answers.changeVartype {m : Model V Rat} {t : Vartype} {s : SampleSet V Rat}
    {optimal : Prop} (h : Answers (m.changeVartype t) s optimal) (hm : m.WellFormed) :
    Answers m (s.changeVartype m.vartype) optimal := by
  refine ⟨h.toFaithful.changeVartype hm, fun hoptimal hn => ?_⟩
  have hleast := h.least hoptimal (by rwa [Model.numVariables_changeVartype])
  exact hleast.changeVartype (h.vartype.trans (Model.vartype_changeVartype m t)) hm

theorem Answers.flipAt {m : Model V Rat} {k : Nat} {s : SampleSet V Rat} {optimal : Prop}
    (h : Answers (m.flipAt k) s optimal) (hm : m.WellFormed) (hk : k < m.numVariables) :
    Answers m (s.flipAt k) optimal := by
  refine ⟨h.toFaithful.flipAt hm hk, fun hoptimal hn => ?_⟩
  have hleast := h.least hoptimal (by rwa [Model.numVariables_flipAt])
  exact hleast.flipAt (h.vartype.trans (Model.vartype_flipAt m k)) hm hk

theorem Answers.truncate {m : Model V Rat} {s : SampleSet V Rat} {optimal : Prop}
    (h : Answers m s optimal) (config : TruncateConfig) :
    Answers m (config.apply s) (config.sortedBy = .energy ∧ optimal) := by
  have hsize : config.size.toNat ≠ 0 := Nat.ne_of_gt config.size.toNat_pos
  have hmerged : Answers m (if config.aggregate then s.aggregate else s) optimal := by
    split
    · exact ⟨h.toFaithful.aggregate, fun ho hn => (h.least ho hn).aggregate h.wellFormed⟩
    · exact h
  refine ⟨hmerged.toFaithful.truncate _ _, fun ⟨hsorted, hoptimal⟩ hn => ?_⟩
  rw [TruncateConfig.apply, hsorted]
  exact (hmerged.least hoptimal hn).truncate hmerged.toFaithful hsize

/-- Whatever a sampler returns for a well-formed model answers it. -/
def Sampler.Sound (sampler : Sampler σ V Rat) (optimal : Prop) : Prop :=
  ∀ {m : Model V Rat} {params : Params} {s s' : Session σ} {set : SampleSet V Rat}, m.WellFormed →
    outcome (sampler.sample m params) s = (.ok set, s') → Answers m set optimal

theorem TruncateConfig.sound {child : Sampler σ V Rat} {optimal : Prop} (h : child.Sound optimal)
    (config : TruncateConfig) :
    (Composite.truncate child config).Sound (config.sortedBy = .energy ∧ optimal) := by
  intro m params s s' set hm hset
  obtain ⟨inner, s₁, hinner, hset⟩ := bind_outcome_ok.mp hset
  cases hset
  exact (h hm hinner).truncate config

theorem ExhaustiveSampler.evaluated_faithful {m : Model V Rat} {samples : Matrix}
    (hnonempty : m.isEmpty = false) (h : enumerate m.vartype m.numVariables = .ok samples) :
    Faithful m (evaluated m samples) := by
  refine ⟨wellFormed_evaluated h, rfl, rfl, rfl, fun hn => ?_⟩
  exact absurd hn (Model.isEmpty_eq_false.mp hnonempty)

/-- Where every assignment is a row, the first record is least. -/
theorem ExhaustiveSampler.evaluated_hasLeast {m : Model V Rat} {samples : Matrix}
    (hnonempty : m.isEmpty = false) (h : enumerate m.vartype m.numVariables = .ok samples) :
    HasLeast m (evaluated m samples) := by
  have hfit := (fits_of_enumerate h).2
  have hfaithful := evaluated_faithful hnonempty h
  have hsize : (evaluated m samples).size ≠ 0 := by
    change samples.rows.length ≠ 0
    rw [(enumerate_ok h).2, length_assignments]
    positivity
  obtain ⟨r, _, hr, hle⟩ := hfaithful.wellFormed.first? hsize
  obtain ⟨hrow, henergy⟩ := hfaithful.record hr
  refine ⟨r.sample, hrow, hfaithful.fits hrow, fun y hy => ?_⟩
  obtain ⟨r', hr', rfl⟩ := hfaithful.wellFormed.exists_record ((hfit y).mpr hy)
  rw [← henergy, ← (hfaithful.record hr').2]
  exact Coefficient.le_rat.mp (hle r' hr')

variable [DecidableEq V]

theorem ExhaustiveSampler.sound (e : ExhaustiveSampler) :
    (e.sampler : Sampler σ V Rat).Sound True := by
  intro m params s s' set hm h
  rcases sample_ok hm h with ⟨hempty, rfl⟩ | ⟨samples, hnonempty, henum, rfl⟩
  · exact .empty hempty
  · exact ⟨evaluated_faithful hnonempty henum, fun _ _ => evaluated_hasLeast hnonempty henum⟩

section
variable {P : Model V Rat → SampleSet V Rat → Prop}
  (hlabels : ∀ {m s}, P m s → s.labels = m.labels)
  (hflip : ∀ {m k s}, P (m.flipAt k) s → m.WellFormed → k < m.numVariables → P m (s.flipAt k))
include hlabels hflip

/-- Flips of the model are undone by the same flips of its samples. -/
theorem undo_flips {m transformed : Model V Rat} {inner set : SampleSet V Rat} {flips : List V}
    (hm : m.WellFormed) (hmodel : flips.foldlM Model.flipVariable m = .ok transformed)
    (h : P transformed inner) (hset : inner.flipVariables flips = .ok set) : P m set := by
  induction flips generalizing m set with
  | nil =>
    cases hmodel
    cases hset
    exact h
  | cons v flips ih =>
    obtain ⟨m₁, hm₁, hmodel⟩ := foldlM_cons_ok.mp hmodel
    obtain ⟨k, hk, rfl⟩ := Model.flipVariable_ok.mp hm₁
    -- The samples belong to the model after its first flip once all later flips are undone, so the
    -- first one has to be undone last.
    obtain ⟨s₁, hs₁, hv⟩ := flipVariables_swap hset
    obtain ⟨k', hk', rfl⟩ := flipVariable_ok.mp hv
    have h₁ : P (m.flipAt k) s₁ := ih (hm.flipAt k) hmodel hs₁
    have hsame : k' = k := by
      rw [hlabels h₁, Model.labels_flipAt] at hk'
      exact Option.some.inj (hk'.symm.trans hk)
    subst hsame
    exact hflip h₁ hm (Model.indexOf?_lt hk)

/-- What is true of every answer of the child, and stays true when a flip is undone, is true of
every transform. -/
theorem SpinReversal.transform_keeps {child : Sampler σ V Rat} {m : Model V Rat} {params : Params}
    {flips : List V} {s s' : Session σ} {set : SampleSet V Rat} (hm : m.WellFormed)
    (hchild : ∀ {m' s s' set}, m'.WellFormed → m'.numVariables = m.numVariables →
      outcome (child.sample m' params) s = (.ok set, s') → P m' set)
    (h : outcome (transform child m params flips) s = (.ok set, s')) : P m set := by
  obtain ⟨transformed, inner, hmodel, hinner, hback⟩ := transform_ok.mp h
  obtain ⟨hwellFormed, hsize⟩ : transformed.WellFormed ∧
      transformed.numVariables = m.numVariables := by
    refine foldlM_keeps (P := fun m' => m'.WellFormed ∧ m'.numVariables = m.numVariables)
      (fun m₁ v m₂ ⟨hm₁, hn⟩ hv => ?_) ⟨hm, rfl⟩ hmodel
    obtain ⟨k, _, rfl⟩ := Model.flipVariable_ok.mp hv
    exact ⟨hm₁.flipAt k, (Model.numVariables_flipAt m₁ k).trans hn⟩
  exact undo_flips hlabels hflip hm hmodel (hchild hwellFormed hsize hinner) hback

end

theorem Answers.concatenate {m : Model V Rat} {sets : List (SampleSet V Rat)}
    {s : SampleSet V Rat} {optimal : Prop} (h : ∀ p ∈ sets, Answers m p optimal)
    (hs : SampleSet.concatenate sets = .ok s) : Answers m s optimal :=
  ⟨.concatenate (fun p hp => (h p hp).toFaithful) hs,
    fun hoptimal hn => .concatenate (fun p hp => (h p hp).least hoptimal hn) hs⟩

theorem SpinReversal.sound {child : Sampler σ V Rat} {optimal : Prop} (h : child.Sound optimal) :
    (Composite.spinReversal child).Sound optimal := by
  intro m params s s' set hm hset
  obtain ⟨_, sets, joined, _, _, hsets, hjoined, rfl⟩ := sample_ok hset
  have hspin := hm.changeVartype .spin
  have hanswers : ∀ p ∈ sets, Answers (m.changeVartype .spin) p optimal := by
    intro p hp
    obtain ⟨flips, s₁, s₂, hp⟩ := hsets p hp
    exact transform_keeps (fun ha => ha.labels) (fun ha => ha.flipAt) hspin
      (fun hm' _ hinner => h hm' hinner) hp
  exact (Answers.concatenate hanswers hjoined).changeVartype hm

end BinaryQuadratic
