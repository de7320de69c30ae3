import BinaryQuadratic.Proofs.SampleSet.Flips

namespace BinaryQuadratic

/-- Rows that differ are rewritten differently where no column maps two values of the domain to
one. -/
theorem mapIdx_inj {t : Vartype} {f : Nat → Int → Int}
    (hf : ∀ c, Set.InjOn (f c) {x | t.contains x = true})
    {row row' : List Int} (hrow : ∀ x ∈ row, t.contains x = true)
    (hrow' : ∀ x ∈ row', t.contains x = true) (h : row.mapIdx f = row'.mapIdx f) : row = row' := by
  have hlength : row.length = row'.length := by simpa using congrArg List.length h
  refine List.ext_getElem hlength (fun c hc hc' => ?_)
  have hvalue : f c row[c] = f c row'[c] := by
    simpa [hc, hc'] using congrArg (fun values : List Int => values[c]?) h
  exact hf c (hrow _ (List.getElem_mem hc)) (hrow' _ (List.getElem_mem hc')) hvalue

def Record.recode {R : Type} (f : Nat → Int → Int) (r : Record R) : Record R :=
  { r with sample := r.sample.mapIdx f }

def Group.recode (f : Nat → Int → Int) (g : Group) : Group :=
  { g with sample := g.sample.mapIdx f }

/-- A row finds the same group after the values are rewritten, if no other row has become equal. -/
theorem Group.count_recode {f : Nat → Int → Int} {sample : List Int} {gs : List Group}
    (hf : ∀ g ∈ gs, g.sample.mapIdx f = sample.mapIdx f → g.sample = sample) (row n : Nat) :
    Group.count (sample.mapIdx f) row n (gs.map (Group.recode f)) =
      (Group.count sample row n gs).map (Group.recode f) := by
  induction gs with
  | nil => rfl
  | cons g gs ih =>
    obtain ⟨hg, hgs⟩ := List.forall_mem_cons.mp hf
    by_cases hsame : g.sample = sample
    · simp [Group.count, Group.recode, hsame]
    · have hrecoded : g.sample.mapIdx f ≠ sample.mapIdx f := fun h => hsame (hg h)
      simp [Group.count, Group.recode, hsame, hrecoded, ← ih hgs]

namespace SampleSet

variable {V R : Type}

theorem groupsOf_recode {f : Nat → Int → Int} {rs : List (Record R)}
    (hf : ∀ r ∈ rs, ∀ r' ∈ rs, r.sample.mapIdx f = r'.sample.mapIdx f → r.sample = r'.sample) :
    groupsOf (rs.map (Record.recode f)) = (groupsOf rs).map (Group.recode f) := by
  -- Groups are counted from the left, so the row counted last is split off.
  induction rs using List.reverseRecOn with
  | nil => rfl
  | append_singleton rs r ih =>
    have hrest := ih (fun r₁ h₁ r₂ h₂ => hf r₁ (by simp [h₁]) r₂ (by simp [h₂]))
    have hgroups : ∀ g ∈ groupsOf rs,
        g.sample.mapIdx f = r.sample.mapIdx f → g.sample = r.sample := by
      intro g hg
      have hsample : g.sample ∈ (groupsOf rs).map (·.sample) := List.mem_map.mpr ⟨g, hg, rfl⟩
      rw [samples_groupsOf, List.mem_eraseDups] at hsample
      obtain ⟨r', hr', he⟩ := List.mem_map.mp hsample
      rw [← he]
      exact hf r' (by simp [hr']) r (by simp)
    rw [List.map_append, List.map_singleton, groupsOf_concat, groupsOf_concat, hrest,
      List.length_map]
    exact Group.count_recode hgroups _ _

section
variable (s : SampleSet V R) (t : Vartype) (f : Nat → Int → Int)

theorem records_recode : (s.recode t f).records = s.records.map (Record.recode f) := by
  simp only [records, recode, Matrix.mapColumns, List.zip_map_left, List.map_map]
  rfl

theorem select_recode (indices : List Nat) :
    (s.recode t f).select indices = (s.select indices).recode t f := by
  have hsamples : (s.samples.mapColumns f).select indices =
      (s.samples.select indices).mapColumns f :=
    Matrix.ext_rows rfl (pick_map _ indices s.samples.rows)
  simp only [select, recode, hsamples]

variable [Coefficient R]

theorem truncate_recode (n : Nat) (order : SortBy) :
    (s.recode t f).truncate n order = (s.truncate n order).recode t f := by
  have hsize : (s.recode t f).size = s.size := List.length_map ..
  cases order with
  | energy =>
    have hsorted : (s.recode t f).sortedIndices = s.sortedIndices := by
      rw [sortedIndices, hsize]
      rfl
    rw [truncate, hsorted, select_recode]
    rfl
  | unsorted =>
    rw [truncate, hsize, select_recode]
    rfl

theorem first?_recode : (s.recode t f).first? = s.first?.map (Record.recode f) := by
  have hlesser : ∀ a b : Record R,
      lesser (a.recode f) (b.recode f) = (lesser a b).recode f := by
    intro a b
    exact (apply_ite (Record.recode f) _ b a).symm
  rw [first?, first?, records_recode]
  cases s.records with
  | nil => rfl
  | cons r rs =>
    have hleast : (rs.map (Record.recode f)).foldl lesser (r.recode f) =
        (rs.foldl lesser r).recode f := by
      rw [List.foldl_map]
      exact List.foldl_hom (Record.recode f) hlesser
    exact congrArg some hleast

theorem lowest_recode : (s.recode t f).lowest = s.lowest.recode t f := by
  rw [lowest, lowest, first?_recode]
  cases s.first? with
  | none => rfl
  | some r => exact select_recode ..

end

/-- Merging goes by which rows are equal, and that does not change. -/
theorem WellFormed.aggregate_recode {s : SampleSet V R} (h : s.WellFormed) (t : Vartype)
    {f : Nat → Int → Int} (hf : ∀ c, Set.InjOn (f c) {x | s.vartype.contains x = true}) :
    (s.recode t f).aggregate = s.aggregate.recode t f := by
  have hdomain : ∀ r ∈ s.records, ∀ x ∈ r.sample, s.vartype.contains x = true := by
    intro r hr
    obtain ⟨i, hi⟩ := List.mem_iff_getElem?.mp hr
    exact h.domain r.sample (List.mem_of_getElem? (getElem?_records.mp hi).1)
  have hgroups : (s.recode t f).groups = s.groups.map (Group.recode f) := by
    change groupsOf (s.recode t f).records = _
    rw [records_recode]
    exact groupsOf_recode (fun r hr r' hr' => mapIdx_inj hf (hdomain r hr) (hdomain r' hr'))
  have hrows : (s.recode t f).groups.map (·.row) = s.groups.map (·.row) := by
    rw [hgroups, List.map_map]
    rfl
  have hoccurrences :
      (s.recode t f).groups.map (·.occurrences) = s.groups.map (·.occurrences) := by
    rw [hgroups, List.map_map]
    rfl
  rw [SampleSet.aggregate, hrows, hoccurrences, select_recode]
  rfl

/-- A call that rewrites values, by column, and leaves the rest. -/
inductive Recoding (V : Type) where
  | changeVartype (t : Vartype)
  | flipVariables (vs : List V)

namespace Recoding

/-- The domain of the set after the call. -/
def target (t : Vartype) : Recoding V → Vartype
  | changeVartype t' => t'
  | flipVariables _ => t

/-- The variables that the call names are there. -/
def Suits (labels : List V) : Recoding V → Prop
  | changeVartype _ => True
  | flipVariables vs => ∀ v ∈ vs, v ∈ labels

variable [DecidableEq V]

def apply (s : SampleSet V R) : Recoding V → Except (ModelError V) (SampleSet V R)
  | changeVartype t => .ok (s.changeVartype t)
  | flipVariables vs => s.flipVariables vs

/-- What the call does to the values of a column. -/
def value (labels : List V) (t : Vartype) : Recoding V → Nat → Int → Int
  | changeVartype t', _ => t.convert t'
  | flipVariables vs, c => t.flip^[timesNamed labels vs c]

/-- Outside the domain a conversion may map two values to one. -/
theorem value_injOn (r : Recoding V) (labels : List V) (t : Vartype) (c : Nat) :
    Set.InjOn (r.value labels t c) {x | t.contains x = true} := by
  cases r with
  | changeVartype t' =>
    have hback : Set.LeftInvOn (t'.convert t) (t.convert t') {x | t.contains x = true} :=
      fun x hx => Vartype.convert_convert hx
    exact hback.injOn
  | flipVariables vs =>
    have hflip : Function.Involutive t.flip := t.flip_flip
    exact (hflip.injective.iterate _).injOn

/-- Sets of the same columns and domain are rewritten in the same way. -/
theorem apply_eq {r : Recoding V} {labels : List V} (hr : r.Suits labels) {s : SampleSet V R}
    (hlabels : s.labels = labels) {t : Vartype} (ht : s.vartype = t) :
    r.apply s = .ok (s.recode (r.target t) (r.value labels t)) := by
  subst hlabels ht
  cases r with
  | changeVartype t' =>
    have hsamples : s.samples.map (s.vartype.convert t') =
        s.samples.mapColumns (fun _ => s.vartype.convert t') :=
      Matrix.ext_rows rfl (by simp [Matrix.map, Matrix.mapColumns, mapIdx_const])
    simp only [apply, SampleSet.changeVartype, recode, hsamples]
    rfl
  | flipVariables vs => exact s.flipVariables_of_mem hr

end Recoding

variable [DecidableEq V]

theorem concatenate_recode {sets : List (SampleSet V R)} {s s' : SampleSet V R} (t : Vartype)
    (f : Nat → Int → Int) (hs : concatenate sets = .ok s)
    (hs' : concatenate (sets.map (·.recode t f)) = .ok s') : s' = s.recode t f := by
  obtain ⟨hne, hsame, hrows, henergies, hoccurrences⟩ := concatenate_ok hs
  obtain ⟨_, hsame', hrows', henergies', hoccurrences'⟩ := concatenate_ok hs'
  obtain ⟨p, hp⟩ := List.exists_mem_of_ne_nil sets hne
  obtain ⟨hlabels, _, hncols⟩ := hsame p hp
  obtain ⟨hlabels', hvartype', hncols'⟩ := hsame' _ (List.mem_map.mpr ⟨p, hp, rfl⟩)
  have hsamples : s'.samples = s.samples.mapColumns f := by
    refine Matrix.ext_rows (hncols'.symm.trans hncols) ?_
    change _ = s.samples.rows.map _
    rw [hrows', hrows, List.flatMap_map, List.map_flatMap]
    rfl
  have henergies : s'.energies = s.energies := by
    rw [henergies', henergies, List.flatMap_map]
    rfl
  have hoccurrences : s'.occurrences = s.occurrences := by
    rw [hoccurrences', hoccurrences, List.flatMap_map]
    rfl
  calc s' = ⟨s'.labels, s'.samples, s'.energies, s'.occurrences, s'.vartype⟩ := rfl
    _ = s.recode t f := by
      rw [← hlabels', hsamples, henergies, hoccurrences, ← hvartype']
      simp only [recode, hlabels]

/-- Sets that can be joined still can, whatever their values have become. -/
theorem joins_recode {sets : List (SampleSet V R)} (hne : sets ≠ []) {labels : List V}
    {t : Vartype} (h : ∀ p ∈ sets, p.WellFormed ∧ p.labels = labels ∧ p.vartype = t)
    (t' : Vartype) (f : Nat → Int → Int) :
    ∃ s, concatenate sets = .ok s ∧
      concatenate (sets.map (·.recode t' f)) = .ok (s.recode t' f) := by
  obtain ⟨s, hs⟩ := WellFormed.joins hne h
  have hsame : ∀ p ∈ sets.map (·.recode t' f),
      p.labels = labels ∧ p.vartype = t' ∧ p.samples.ncols = labels.length := by
    intro p hp
    obtain ⟨q, hq, rfl⟩ := List.mem_map.mp hp
    obtain ⟨hwell, hlabels, _⟩ := h q hq
    exact ⟨hlabels, rfl, hlabels ▸ hwell.width⟩
  obtain ⟨s', hs'⟩ := concatenate_of_same (by simpa using hne) hsame
  exact ⟨s, hs, concatenate_recode t' f hs hs' ▸ hs'⟩

/-- It does not matter whether values are converted and flipped before rows are merged, cut off,
chosen or joined, or after: in the domain, rows are told apart as before. -/
theorem recoding_commutes [Coefficient R] (r : Recoding V) :
    (∀ s : SampleSet V R, s.WellFormed → r.Suits s.labels → ∃ s', r.apply s = .ok s' ∧
      r.apply s.aggregate = .ok s'.aggregate ∧
      (∀ n order, r.apply (s.truncate n order) = .ok (s'.truncate n order)) ∧
      r.apply s.lowest = .ok s'.lowest) ∧
    ∀ (sets : List (SampleSet V R)) (labels : List V) (t : Vartype), sets ≠ [] →
      (∀ p ∈ sets, p.WellFormed ∧ p.labels = labels ∧ p.vartype = t) → r.Suits labels →
      ∃ sets' joined joined', sets.mapM r.apply = .ok sets' ∧ concatenate sets = .ok joined ∧
        concatenate sets' = .ok joined' ∧ r.apply joined = .ok joined' := by
  refine ⟨fun s h hr => ?_, fun sets labels t hne h hr => ?_⟩
  · refine ⟨_, r.apply_eq hr rfl rfl, ?_, fun n order => ?_, ?_⟩
    · have hkept : s.aggregate.labels = s.labels ∧ s.aggregate.vartype = s.vartype := ⟨rfl, rfl⟩
      rw [h.aggregate_recode _ (r.value_injOn s.labels s.vartype)]
      exact r.apply_eq hr hkept.1 hkept.2
    · have hkept : (s.truncate n order).labels = s.labels ∧
          (s.truncate n order).vartype = s.vartype := by
        cases order <;> exact ⟨rfl, rfl⟩
      rw [truncate_recode]
      exact r.apply_eq hr hkept.1 hkept.2
    · have hkept : s.lowest.labels = s.labels ∧ s.lowest.vartype = s.vartype := by
        unfold lowest
        split <;> exact ⟨rfl, rfl⟩
      rw [lowest_recode]
      exact r.apply_eq hr hkept.1 hkept.2
  · obtain ⟨s, hs, hs'⟩ := joins_recode hne h (r.target t) (r.value labels t)
    obtain ⟨_, hsame, _⟩ := concatenate_ok hs
    obtain ⟨p, hp⟩ := List.exists_mem_of_ne_nil sets hne
    obtain ⟨_, hlabels, hvartype⟩ := h p hp
    obtain ⟨hlabels', hvartype', _⟩ := hsame p hp
    have hsets : sets.mapM r.apply =
        .ok (sets.map (·.recode (r.target t) (r.value labels t))) :=
      mapM_eq_pure (fun q hq => r.apply_eq hr (h q hq).2.1 (h q hq).2.2)
    exact ⟨_, s, _, hsets, hs, hs',
      r.apply_eq hr (hlabels'.symm.trans hlabels) (hvartype'.symm.trans hvartype)⟩

/-- Three rows of bits, two of them equal, and a fourth in a set of its own: flipped and merged, and
as spins sorted, cut off and joined. -/
theorem recoding_of_four_rows :
    let s : SampleSet String Rat :=
      ⟨["a", "b"], ⟨2, [[0, 1], [1, 1], [0, 1]], by decide⟩, [3, -1, 5], [1, 2, 4], .binary⟩
    let p : SampleSet String Rat := ⟨["a", "b"], ⟨2, [[1, 0]], by decide⟩, [2], [6], .binary⟩
    let flipped : Recoding String := .flipVariables ["a"]
    let spins : Recoding String := .changeVartype .spin
    (s.WellFormed ∧ p.WellFormed ∧ flipped.Suits s.labels ∧ spins.Suits s.labels) ∧
      (∃ s', flipped.apply s = .ok s' ∧ flipped.apply s.aggregate = .ok s'.aggregate ∧
        s'.aggregate.samples.rows = [[1, 1], [0, 1]] ∧ s'.aggregate.occurrences = [5, 2]) ∧
      spins.apply (s.truncate 2 .energy) = .ok ((s.changeVartype .spin).truncate 2 .energy) ∧
      ∃ sets' joined joined', [s, p].mapM spins.apply = .ok sets' ∧
        concatenate [s, p] = .ok joined ∧ concatenate sets' = .ok joined' ∧
        spins.apply joined = .ok joined' := by
  intro s p flipped spins
  have hs : s.WellFormed := ⟨rfl, rfl, rfl, by decide⟩
  have hp : p.WellFormed := ⟨rfl, rfl, rfl, by decide⟩
  have hflipped : flipped.Suits s.labels := by
    intro v hv
    simp_all [s]
  have hspins : spins.Suits s.labels := trivial
  obtain ⟨hflips, _⟩ := recoding_commutes (R := Rat) flipped
  obtain ⟨hconverts, hjoins⟩ := recoding_commutes (R := Rat) spins
  obtain ⟨s', hs', hmerged, _⟩ := hflips s hs hflipped
  obtain ⟨_, hspun, _, hcut, _⟩ := hconverts s hs hspins
  cases hspun
  have hsets : ∀ q ∈ [s, p], q.WellFormed ∧ q.labels = s.labels ∧ q.vartype = .binary := by
    intro q hq
    rcases List.mem_pair.mp hq with rfl | rfl
    · exact ⟨hs, rfl, rfl⟩
    · exact ⟨hp, rfl, rfl⟩
  refine ⟨⟨hs, hp, hflipped, hspins⟩, ⟨s', hs', hmerged, ?_⟩, hcut 2 .energy,
    hjoins [s, p] s.labels .binary (by simp) hsets hspins⟩
  cases hs'
  exact ⟨rfl, rfl⟩

end SampleSet
end BinaryQuadratic
