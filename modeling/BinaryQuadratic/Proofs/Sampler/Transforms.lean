import BinaryQuadratic.Proofs.Model.Reachable
import BinaryQuadratic.Proofs.SampleSet.Leading
import BinaryQuadratic.Proofs.Sampler.Constant
import BinaryQuadratic.Proofs.Sampler.SpinReversal

namespace BinaryQuadratic

namespace BitSource

/-- The bit that comes after `i` others. -/
def bitAt (source : BitSource) : Nat → Bool
  | 0 => source.next.1
  | i + 1 => source.next.2.bitAt i

theorem draw_bits (source : BitSource) (n : Nat) :
    (source.draw n).1 = (List.range n).map source.bitAt := by
  induction n generalizing source with
  | zero => rfl
  | succ n ih => simp [draw, ih, List.range_succ_eq_map, Function.comp_def, bitAt]

theorem bitAt_draw (source : BitSource) (n i : Nat) :
    (source.draw n).2.bitAt i = source.bitAt (n + i) := by
  induction n generalizing source with
  | zero => simp [draw]
  | succ n ih =>
    rw [Nat.add_right_comm]
    exact ih source.next.2

end BitSource

open SampleM

/-- Flips of labels are flips at their positions. -/
theorem Model.WellFormed.flips_at {V R : Type} [DecidableEq V] [Coefficient R] {m : Model V R}
    (hm : m.WellFormed) {positions : List Nat} (h : ∀ i ∈ positions, i < m.numVariables) :
    (pick positions m.labels).foldlM Model.flipVariable m =
      .ok (positions.foldl Model.flipAt m) := by
  induction positions generalizing m with
  | nil => rfl
  | cons i positions ih =>
    have hi : i < m.labels.length := m.length_labels ▸ h i (by simp)
    have hflip : m.flipVariable m.labels[i] = .ok (m.flipAt i) :=
      hm.flipVariable_of_label (List.getElem?_eq_getElem hi)
    have hrest := ih (hm.flipAt i) (fun j hj => by simpa using h j (by simp [hj]))
    rw [Model.labels_flipAt] at hrest
    rw [pick_eq_filterMap, List.filterMap_cons_some (List.getElem?_eq_getElem hi),
      List.foldlM_cons, hflip, ← pick_eq_filterMap]
    exact hrest

namespace SpinReversal

/-- The positions that transform `k` flips in a model of `n` variables, of which each gets a bit in
its turn. -/
def flipped (source : BitSource) (n k : Nat) : List Nat :=
  (List.range n).filter (fun i => source.bitAt (k * n + i))

theorem chosen_eq_pick (vs : List α) (p : Nat → Bool) :
    chosen vs ((List.range vs.length).map p) = pick ((List.range vs.length).filter p) vs := by
  rw [pick_eq_filterMap]
  induction vs generalizing p with
  | nil => rfl
  | cons v vs ih =>
    have hrest := ih (fun i => p (i + 1))
    unfold chosen at hrest ⊢
    rw [List.length_cons, List.range_succ_eq_map]
    cases hp : p 0 <;> simp [hp, Function.comp_def, List.filter_map, List.filterMap_map, hrest]

theorem chosen_draw {source : BitSource} {n : Nat} {vs : List α} (h : vs.length = n) :
    chosen vs (source.draw n).1 = pick (flipped source n 0) vs := by
  subst h
  simp only [BitSource.draw_bits, chosen_eq_pick, flipped, Nat.zero_mul, Nat.zero_add]

/-- Each transform draws one bit for each variable. -/
theorem flipped_draw (source : BitSource) (n k : Nat) :
    flipped (source.draw n).2 n k = flipped source n (k + 1) := by
  have hbit : ∀ i, (source.draw n).2.bitAt (k * n + i) = source.bitAt ((k + 1) * n + i) := by
    intro i
    rw [BitSource.bitAt_draw, ← Nat.add_assoc, Nat.succ_mul, Nat.add_comm n]
  simp only [flipped, hbit]

theorem lt_of_mem_flipped {source : BitSource} {n k i : Nat} (h : i ∈ flipped source n k) : i < n :=
  List.mem_range.mp (List.mem_of_mem_filter h)

variable {σ V R : Type} [DecidableEq V] [Coefficient R]

/-- A transform of the variables at given positions. -/
def transformAt (child : Sampler σ V R) (m : Model V R) (params : Params) (positions : List Nat) :
    SampleM σ V (SampleSet V R) := do
  let set ← child.sample (positions.foldl Model.flipAt m) params
  SampleM.ofModel (set.flipVariables (pick positions m.labels))

/-- A run whose transforms flip the positions that are given for each of them. -/
def sampleFlipping (child : Sampler σ V R) (m : Model V R) (params : Params) (count : Nat)
    (flips : Nat → List Nat) : SampleM σ V (SampleSet V R) := do
  SampleM.logged (params.warnUnknown (parametersOver child))
  let sets ← (List.range count).mapM (fun k =>
    transformAt child (m.changeVartype .spin) (remaining child params) (flips k))
  let set ← SampleM.ofModel (SampleSet.concatenate sets)
  return set.changeVartype m.vartype

theorem transform_pick {child : Sampler σ V R} {m : Model V R} (hm : m.WellFormed) (params : Params)
    {positions : List Nat} (h : ∀ i ∈ positions, i < m.numVariables) :
    transform child m params (pick positions m.labels) = transformAt child m params positions := by
  rw [transform, hm.flips_at h]
  rfl

/-- What a transform flips is settled by how many were made before it. -/
theorem transforms_eq_mapM {child : Sampler σ V R} {m : Model V R} (hm : m.WellFormed)
    (params : Params) (count : Nat) (source : BitSource) :
    transforms child m params count source = (List.range count).mapM (fun k =>
      transformAt child m params (flipped source m.numVariables k)) := by
  induction count generalizing source with
  | zero => rfl
  | succ count ih =>
    have hfirst : transform child m params (chosen m.labels (source.draw m.numVariables).1) =
        transformAt child m params (flipped source m.numVariables 0) := by
      rw [chosen_draw m.length_labels]
      exact transform_pick hm params (fun i => lt_of_mem_flipped)
    have hrest := ih (source.draw m.numVariables).2
    simp only [flipped_draw] at hrest
    rw [List.range_succ_eq_map, List.mapM_cons, List.mapM_map, ← hfirst]
    change (do
      let set ← transform child m params (chosen m.labels (source.draw m.numVariables).1)
      let sets ← transforms child m params count (source.draw m.numVariables).2
      return set :: sets) = _
    rw [hrest]
    rfl

/-- Of all the random bits, a run with a seed uses those that `flipped` names. -/
theorem sample_of_seed {child : Sampler σ V R} {m : Model V R} (hm : m.WellFormed)
    {params : Params} {seed : UInt64} {count : PositiveSize}
    (hseed : seedAsked params = .ok (some seed)) (hcount : transformsAsked params = .ok count)
    (s : Session σ) : outcome (sample child m params) s =
      outcome (sampleFlipping child m params count.toNat
        (flipped (s.randomness.ofSeed seed) m.numVariables)) s := by
  have hgiven : (ofParam (.ok (some seed)) : SampleM σ V (Option UInt64)) = pure (some seed) := rfl
  have hasked : (ofParam (.ok count) : SampleM σ V PositiveSize) = pure count := rfl
  rw [sample_eq, hseed, hcount, hgiven, hasked, sampleFlipping]
  simp only [pure_bind]
  rw [outcome_bind, outcome_bind, outcome_warnUnknown]
  dsimp only
  rw [outcome_bind, outcome_bits_seed]
  dsimp only
  rw [transforms_eq_mapM (hm.changeVartype .spin), Model.numVariables_changeVartype]

theorem constant_transformAt {child : Sampler σ V R}
    (h : ∀ m params, Constant (child.sample m params)) (m : Model V R) (params : Params)
    (positions : List Nat) : Constant (transformAt child m params positions) :=
  .bind (h _ _) (fun _ => .ofModel _)

theorem constant_sampleFlipping {child : Sampler σ V R}
    (h : ∀ m params, Constant (child.sample m params)) (m : Model V R) (params : Params)
    (count : Nat) (flips : Nat → List Nat) :
    Constant (sampleFlipping child m params count flips) := by
  refine .bind (.logged _) (fun _ => .bind (.mapM (fun k => ?_) _) (fun sets => ?_))
  · exact constant_transformAt h _ _ (flips k)
  · exact .bind (.ofModel _) (fun _ => .pure _)

theorem sampleFlipping_ok {child : Sampler σ V R}
    (h : ∀ m params, Constant (child.sample m params)) {m : Model V R} {params : Params}
    {count : Nat} {flips : Nat → List Nat} {s : Session σ} {set : SampleSet V R} :
    (outcome (sampleFlipping child m params count flips) s).1 = .ok set ↔
      ∃ sets, (outcome ((List.range count).mapM (fun k => transformAt child
          (m.changeVartype .spin) (remaining child params) (flips k))) s).1 = .ok sets ∧
        ∃ joined, SampleSet.concatenate sets = .ok joined ∧
          joined.changeVartype m.vartype = set := by
  have hset : ∀ joined : SampleSet V R, Constant (pure (joined.changeVartype m.vartype) :
      SampleM σ V (SampleSet V R)) := fun _ => .pure _
  have hjoin : ∀ sets : List (SampleSet V R), Constant (do
      let joined ← ofModel (SampleSet.concatenate sets)
      return joined.changeVartype m.vartype : SampleM σ V (SampleSet V R)) :=
    fun _ => .bind (.ofModel _) hset
  have hrun : Unit → Constant (do
      let sets ← (List.range count).mapM (fun k =>
        transformAt child (m.changeVartype .spin) (remaining child params) (flips k))
      let joined ← ofModel (SampleSet.concatenate sets)
      return joined.changeVartype m.vartype : SampleM σ V (SampleSet V R)) :=
    fun _ => .bind (.mapM (fun k => constant_transformAt h _ _ (flips k)) _) hjoin
  rw [sampleFlipping, Constant.bind_ok hrun]
  simp only [Constant.bind_ok hjoin, Constant.bind_ok hset, outcome_warnUnknown, outcome_pure,
    result_ofModel_ok, Except.ok.injEq, exists_const, true_and]

/-- A longer run begins like the shorter one. -/
theorem sampleFlipping_leads {child : Sampler σ V R}
    (h : ∀ m params, Constant (child.sample m params)) {m : Model V R} {params params' : Params}
    (hparams : remaining child params = remaining child params') {count count' : Nat}
    (hpositive : 0 < count) (hle : count ≤ count') {flips : Nat → List Nat} {s : Session σ}
    {set' : SampleSet V R}
    (hset' : (outcome (sampleFlipping child m params' count' flips) s).1 = .ok set') :
    ∃ set, (outcome (sampleFlipping child m params count flips) s).1 = .ok set ∧
      set.Leads set' := by
  obtain ⟨sets', hsets', joined', hjoined', rfl⟩ := (sampleFlipping_ok h).mp hset'
  have hranges : List.range count <+: List.range count' := by
    rw [← Nat.min_eq_left hle, ← List.take_range]
    exact List.take_prefix _ _
  obtain ⟨sets, hsets, hprefix, hlength⟩ := Constant.mapM_prefix
    (fun k => constant_transformAt h _ _ (flips k)) hranges hsets'
  have hne : sets ≠ [] := by
    rw [List.length_range] at hlength
    exact List.ne_nil_of_length_pos (hlength ▸ hpositive)
  obtain ⟨joined, hjoined, hleads⟩ := SampleSet.concatenate_prefix hne hprefix hjoined'
  rw [← hparams] at hsets
  exact ⟨_, (sampleFlipping_ok h).mpr ⟨sets, hsets, joined, hjoined, rfl⟩, hleads.changeVartype _⟩

/-- In a run with a seed, the positions that a transform flips follow from the seed, the number of
variables and the number of transforms before it, whatever the model and the child are. So runs
that differ in the number of transforms begin alike: where the longer one succeeds, the shorter one
gives its leading rows. -/
theorem leading_rows_of_more_transforms (child : Sampler σ V R) (m : Model V R) (hm : m.Reachable)
    (params params' : Params) (seed : UInt64) (t t' : PositiveSize)
    (hother : ∀ name, name ≠ transformsName → params.get? name = params'.get? name)
    (hseed : seedAsked params = .ok (some seed)) (ht : transformsAsked params = .ok t)
    (ht' : transformsAsked params' = .ok t') (hle : t.toNat ≤ t'.toNat) (s s' : Session σ)
    (hs : s.randomness.ofSeed = s'.randomness.ofSeed) :
    outcome ((Composite.spinReversal child).sample m params) s =
        outcome (sampleFlipping child m params t.toNat
          (flipped (s.randomness.ofSeed seed) m.numVariables)) s ∧
      ((∀ m params, Constant (child.sample m params)) →
        ∀ set', (outcome ((Composite.spinReversal child).sample m params') s').1 = .ok set' →
          ∃ set, (outcome ((Composite.spinReversal child).sample m params) s).1 = .ok set ∧
            set.Leads set' ∧ set.records <+: set'.records) := by
  have hrun : outcome (sample child m params) s = _ := sample_of_seed hm.wellFormed hseed ht s
  refine ⟨hrun, fun hchild set' hset' => ?_⟩
  have hseed' : seedAsked params' = .ok (some seed) := by
    rw [← hseed, seedAsked, seedAsked]
    exact Params.takeWith_congr (hother seedName (by decide)).symm
  have hrun' : outcome (sample child m params') s' = _ :=
    sample_of_seed hm.wellFormed hseed' ht' s'
  change (outcome (sample child m params') s').1 = .ok set' at hset'
  rw [hrun', ← hs, constant_sampleFlipping hchild _ _ _ _ s' s] at hset'
  obtain ⟨set, hset, hleads⟩ :=
    sampleFlipping_leads hchild (remaining_congr child hother) t.toNat_pos hle hset'
  exact ⟨set, (congrArg Prod.fst hrun).trans hset, hleads, hleads.records⟩

theorem leading_rows_of_two_transforms :
    let child : Sampler Unit String Rat := ExhaustiveSampler.new.sampler
    let m : Model String Rat := .ofQubo [(("a", "b"), 2), (("b", "b"), -1)] 0
    let params (t : UInt64) : Params :=
      (Params.ofList [(seedName, .int 7)]).insert transformsName (.ofUInt64 t)
    let s : Session Unit := ⟨[], .standard (fun _ => .stream (fun _ => false)), ()⟩
    let run (t : UInt64) := (outcome ((Composite.spinReversal child).sample m (params t)) s).1
    m.Reachable ∧
      (∀ name, name ≠ transformsName → (params 1).get? name = (params 2).get? name) ∧
      seedAsked (params 1) = .ok (some 7) ∧ transformsAsked (params 1) = .ok ⟨1, by decide⟩ ∧
      transformsAsked (params 2) = .ok ⟨2, by decide⟩ ∧
      (flipped (s.randomness.ofSeed 7) m.numVariables <$> [0, 1]) = [[0], []] ∧
      ∃ set set', run 1 = .ok set ∧ run 2 = .ok set' ∧ set.records <+: set'.records ∧
        set.samples.rows = [[1, 0], [1, 1], [0, 0], [0, 1]] ∧
        set'.samples.rows = [[1, 0], [1, 1], [0, 0], [0, 1], [0, 0], [0, 1], [1, 0], [1, 1]] := by
  intro child m params s run
  have hm : m.Reachable := .ofQubo _ 0
  have hother : ∀ name, name ≠ transformsName →
      (params 1).get? name = (params 2).get? name := by
    intro name hname
    rw [Params.get?_insert, Params.get?_insert, if_neg hname, if_neg hname]
  have hseed : seedAsked (params 1) = .ok (some 7) := rfl
  have ht : transformsAsked (params 1) = .ok ⟨1, by decide⟩ := rfl
  have ht' : transformsAsked (params 2) = .ok ⟨2, by decide⟩ := rfl
  have hrows : (run 1).toOption.map (·.samples.rows) =
      some [[1, 0], [1, 1], [0, 0], [0, 1]] := by
    decide +kernel
  have hrows' : (run 2).toOption.map (·.samples.rows) =
      some [[1, 0], [1, 1], [0, 0], [0, 1], [0, 0], [0, 1], [1, 0], [1, 1]] := by
    decide +kernel
  obtain ⟨set', hset', hrows'⟩ := Option.map_eq_some_iff.mp hrows'
  have hset' : run 2 = .ok set' := toOption_eq_some.mp hset'
  obtain ⟨set, hset, _, hrecords⟩ := (leading_rows_of_more_transforms child m hm (params 1)
    (params 2) 7 _ _ hother hseed ht ht' (by decide) s s rfl).2
    ExhaustiveSampler.new.constant set' hset'
  change run 1 = .ok set at hset
  rw [hset] at hrows
  exact ⟨hm, hother, hseed, ht, ht', by decide +kernel, set, set', hset, hset', hrecords,
    Option.some.inj hrows, hrows'⟩

end SpinReversal
end BinaryQuadratic
