import BinaryQuadratic.Proofs.SampleSet.Copies
import BinaryQuadratic.Proofs.Sampler.Stack

namespace BinaryQuadratic
open SampleM SampleSet

variable {σ V : Type}

/-- A model with variables gets each of its assignments `c` times, where no number of transforms is
asked for. -/
def Sampler.Covers (sampler : Sampler σ V Rat) (c : Nat) : Prop :=
  ∀ {m : Model V Rat} {params : Params} {s s' : Session σ} {set : SampleSet V Rat}, m.WellFormed →
    m.numVariables ≠ 0 → params.get? SpinReversal.transformsName = none →
    outcome (sampler.sample m params) s = (.ok set, s') → Copies m c set

theorem ExhaustiveSampler.evaluated_copies {m : Model V Rat} {samples : Matrix}
    (hn : m.numVariables ≠ 0) (h : enumerate m.vartype m.numVariables = .ok samples) :
    Copies m 1 (evaluated m samples) := by
  refine ⟨evaluated_faithful (Model.isEmpty_eq_false.mpr hn) h, fun n hn => List.eq_of_mem_replicate hn, ?_⟩
  rw [one_nsmul, ← (enumerate_ok h).2]
  rfl

variable [DecidableEq V]

theorem ExhaustiveSampler.covers (e : ExhaustiveSampler) :
    (e.sampler : Sampler σ V Rat).Covers 1 := by
  intro m params s s' set hm hn _ h
  rcases sample_ok hm h with ⟨hempty, _⟩ | ⟨samples, _, henum, rfl⟩
  · simp [Model.isEmpty_eq_false.mpr hn] at hempty
  · exact evaluated_copies hn henum

/-- Each transform adds the copies that the child makes. The child is not told of the number of
transforms. -/
theorem SpinReversal.copies {child : Sampler σ V Rat} {c : Nat} (h : child.Covers c)
    {m : Model V Rat} {params : Params} {count : PositiveSize} {s s' : Session σ}
    {set : SampleSet V Rat} (hm : m.WellFormed) (hn : m.numVariables ≠ 0)
    (hcount : transformsAsked params = .ok count)
    (hset : outcome (sample child m params) s = (.ok set, s')) :
    Copies m (count.toNat * c) set := by
  obtain ⟨count', sets, joined, hcount', hlength, hsets, hjoined, rfl⟩ := sample_ok hset
  have hsame : count' = count := Except.ok.inj (hcount'.symm.trans hcount)
  have hspin := hm.changeVartype .spin
  have hcopies : ∀ p ∈ sets, Copies (m.changeVartype .spin) c p := by
    intro p hp
    obtain ⟨flips, s₁, s₂, hp⟩ := hsets p hp
    refine transform_keeps (fun hc => hc.labels) (fun hc => hc.flipAt) hspin
      (fun hm' hsize hinner => h hm' ?_ (get?_transformsName_remaining child params) hinner) hp
    rwa [hsize, Model.numVariables_changeVartype]
  rw [← hsame, ← hlength]
  exact (Copies.concatenate hcopies hjoined).changeVartype hm

theorem SpinReversal.covers {child : Sampler σ V Rat} {c : Nat} (h : child.Covers c) :
    (Composite.spinReversal child).Covers (2 * c) := by
  intro m params s s' set hm hn habsent hset
  exact copies h hm hn (transformsAsked_of_absent habsent) hset

namespace Stack

/-- Layers of random flips, and nothing else. -/
def reversed (e : ExhaustiveSampler) : Nat → Stack
  | 0 => .exhaustive e
  | k + 1 => .spinReversal (reversed e k)

theorem covers_reversed (e : ExhaustiveSampler) (k : Nat) :
    ((reversed e k).sampler : Sampler σ V Rat).Covers (2 ^ k) := by
  induction k with
  | zero => exact e.covers
  | succ k ih => exact Nat.pow_succ' ▸ SpinReversal.covers ih

/-- The outermost layer makes as many transforms as it is asked for, and every other one two, so
that all of them together repeat the rows of the exhaustive sampler that often. -/
theorem rows_repeated_by_reversals (e : ExhaustiveSampler) (k : Nat) (m : Model V Rat)
    (hm : m.Reachable) (hn : m.numVariables ≠ 0) (samples : Matrix)
    (henum : enumerate m.vartype m.numVariables = .ok samples) (params : Params)
    (t : PositiveSize) (ht : SpinReversal.transformsAsked params = .ok t) (s : Session σ)
    (set : SampleSet V Rat)
    (h : (outcome ((reversed e (k + 1)).sampler.sample m params) s).1 = .ok set) :
    ∃ once, (outcome (e.sampler.sample m params) s).1 = .ok once ∧
      set.labels = once.labels ∧ set.vartype = once.vartype ∧
      (set.records : Multiset (Record Rat)) = (t.toNat * 2 ^ k) • once.records ∧
      set.aggregate.records.Perm
        (once.records.map (fun r => { r with occurrences := t.toNat * 2 ^ k })) ∧
      set.aggregate.samples.rows.length = 2 ^ m.numVariables ∧
      (∀ x : List Int, x.length = m.numVariables → (∀ v ∈ x, m.vartype.contains v = true) →
        set.aggregate.samples.rows.count x = 1) ∧
      set.aggregate.occurrences = List.replicate (2 ^ m.numVariables) (t.toNat * 2 ^ k) := by
  have hwellFormed := hm.wellFormed
  have hnonempty := Model.isEmpty_eq_false.mpr hn
  have hcopies : Copies m (t.toNat * 2 ^ k) set :=
    SpinReversal.copies (covers_reversed e k) hwellFormed hn ht (Prod.ext h rfl)
  have honce := ExhaustiveSampler.evaluated_copies hn henum
  have hsize : t.toNat * 2 ^ k ≠ 0 := by
    have hpos := t.toNat_pos
    positivity
  obtain ⟨hrows, hcounts⟩ := hcopies.aggregate hsize
  have hlength : set.aggregate.samples.rows.length = 2 ^ m.numVariables := by
    rw [hrows.length_eq, length_assignments]
  refine ⟨ExhaustiveSampler.evaluated m samples, ?_, ?_, ?_, ?_, ?_, hlength, ?_, ?_⟩
  · exact congrArg Prod.fst
      (ExhaustiveSampler.sample_of_enumerate hwellFormed hnonempty henum e params s)
  · exact hcopies.labels
  · exact hcopies.vartype
  · rw [hcopies.records, honce.records, one_nsmul]
  · have hrecords : (ExhaustiveSampler.evaluated m samples).records =
        (assignments m.vartype m.numVariables).map (fun row => ⟨row, m.evaluate row, 1⟩) := by
      rw [honce.toFaithful.records_eq honce.counts, ← (enumerate_ok henum).2]
      rfl
    rw [hrecords, List.map_map]
    exact hcopies.records_aggregate hsize
  · intro x hx hv
    have hmem : x ∈ set.aggregate.samples.rows :=
      hrows.mem_iff.mpr (mem_assignments.mpr ⟨hx, hv⟩)
    exact set.nodup_rows_aggregate.count.trans (if_pos hmem)
  · exact List.eq_replicate_iff.mpr
      ⟨hcopies.wellFormed.aggregate.occurrences.trans hlength, hcounts⟩

theorem rows_of_nested_reversals :
    let m : Model String Rat := .ofQubo [(("a", "b"), 2), (("b", "b"), -1)] 0
    let params := Params.ofList
      [(SpinReversal.transformsName, .int 3), (SpinReversal.seedName, .int 7)]
    let s : Session Unit := ⟨[], .standard (fun _ => .stream (fun i => i % 3 == 0)), ()⟩
    let t : PositiveSize := ⟨3, by decide⟩
    m.Reachable ∧ m.numVariables ≠ 0 ∧ (enumerate m.vartype m.numVariables).toBool = true ∧
      SpinReversal.transformsAsked params = .ok t ∧
      ∃ set, (outcome ((reversed .new 2).sampler.sample m params) s).1 = .ok set ∧
        set.size = 24 ∧ set.aggregate.occurrences = [6, 6, 6, 6] := by
  intro m params s t
  have hm : m.Reachable := .ofQubo _ 0
  have hn : m.numVariables ≠ 0 := by decide
  have henum : enumerate m.vartype m.numVariables =
      .ok ⟨2, [[0, 0], [0, 1], [1, 0], [1, 1]], by decide⟩ := rfl
  have ht : SpinReversal.transformsAsked params = .ok t := rfl
  have hsome : ((outcome ((reversed .new 2).sampler.sample m params) s).1.toOption.map
      (fun set => decide (set.size = 24))) = some true := by
    decide +kernel
  obtain ⟨set, hset, hsize⟩ := Option.map_eq_some_iff.mp hsome
  have h := toOption_eq_some.mp hset
  obtain ⟨_, _, _, _, _, _, _, _, hcounts⟩ :=
    rows_repeated_by_reversals .new 1 m hm hn _ henum params t ht s set h
  exact ⟨hm, hn, by decide, ht, set, h, of_decide_eq_true hsize, hcounts⟩

end Stack
end BinaryQuadratic
