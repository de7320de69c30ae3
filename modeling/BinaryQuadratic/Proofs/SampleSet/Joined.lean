import BinaryQuadratic.Proofs.SampleSet.WellFormed

namespace BinaryQuadratic.SampleSet

variable {V R : Type}

theorem records_of_parts {s : SampleSet V R} {rs : List (Record R)}
    (hrows : s.samples.rows = rs.map (·.sample)) (henergies : s.energies = rs.map (·.energy))
    (hoccurrences : s.occurrences = rs.map (·.occurrences)) : s.records = rs := by
  rw [records, hrows, henergies, hoccurrences, List.zip_map', List.zip_map', List.map_map]
  exact List.map_id _

/-- Two sets are over the same columns, in one order, and over the same domain. -/
structure Matches (s s' : SampleSet V R) : Prop where
  labels : s'.labels = s.labels
  vartype : s'.vartype = s.vartype

/-- Why the rows of `s'` cannot follow those of `s`. The domains only count where the columns are
the same. -/
inductive Mismatch (s s' : SampleSet V R) : ModelError V → Prop where
  | labels (h : s'.labels ≠ s.labels) : Mismatch s s' .variableMismatch
  | vartype (h : s'.labels = s.labels) (ht : s'.vartype ≠ s.vartype) :
    Mismatch s s' (.vartypeMismatch s.vartype s'.vartype)

/-- `whole` has the rows of all parts in their order, each with its own energy and count, and
nothing besides. -/
structure Joined (parts : List (SampleSet V R)) (whole : SampleSet V R) : Prop where
  nonempty : parts ≠ []
  wellFormed : whole.WellFormed
  same : ∀ p ∈ parts, p.Matches whole
  records : whole.records = parts.flatMap (·.records)

theorem Matches.refl (s : SampleSet V R) : s.Matches s :=
  ⟨rfl, rfl⟩

theorem Matches.symm {s s' : SampleSet V R} (h : s.Matches s') : s'.Matches s :=
  ⟨h.labels.symm, h.vartype.symm⟩

theorem Matches.trans {s s' s'' : SampleSet V R} (h : s.Matches s') (h' : s'.Matches s'') :
    s.Matches s'' :=
  ⟨h'.labels.trans h.labels, h'.vartype.trans h.vartype⟩

/-- There is one way to join sets. -/
theorem Joined.unique {parts : List (SampleSet V R)} {s s' : SampleSet V R} (h : Joined parts s)
    (h' : Joined parts s') : s = s' := by
  obtain ⟨p, hp⟩ := List.exists_mem_of_ne_nil parts h.nonempty
  have hsame : s'.Matches s := (h'.same p hp).symm.trans (h.same p hp)
  exact h.wellFormed.ext_records h'.wellFormed hsame.labels hsame.vartype
    (h.records.trans h'.records.symm)

theorem wellFormed_of_joined {parts : List (List (SampleSet V R))}
    {wholes : List (SampleSet V R)} (h : List.Forall₂ Joined parts wholes) :
    ∀ w ∈ wholes, w.WellFormed := by
  induction h with
  | nil => simp
  | cons h _ ih => exact List.forall_mem_cons.mpr ⟨h.wellFormed, ih⟩

/-- What is joined from joined parts is joined from all that is in them. -/
theorem Joined.flatten {parts : List (List (SampleSet V R))} {wholes : List (SampleSet V R)}
    (h : List.Forall₂ Joined parts wholes) {s : SampleSet V R} (hs : Joined wholes s) :
    Joined parts.flatten s := by
  have hrecords : wholes.flatMap (·.records) = parts.flatten.flatMap (·.records) := by
    clear hs
    induction h with
    | nil => rfl
    | cons h _ ih => rw [List.flatMap_cons, List.flatten_cons, List.flatMap_append, h.records, ih]
  have hsame : ∀ p ∈ parts.flatten, p.Matches s := by
    have hwholes := hs.same
    clear hs hrecords
    induction h with
    | nil => simp
    | cons h _ ih =>
      obtain ⟨hwhole, hwholes⟩ := List.forall_mem_cons.mp hwholes
      rw [List.flatten_cons, List.forall_mem_append]
      exact ⟨fun p hp => (h.same p hp).trans hwhole, ih hwholes⟩
  refine ⟨?_, hs.wellFormed, hsame, hs.records.trans hrecords⟩
  cases h with
  | nil => exact absurd rfl hs.nonempty
  | cons h _ => simp [h.nonempty]

variable [DecidableEq V]

theorem checkJoins_error {s s' : SampleSet V R} {why : ModelError V} :
    s.checkJoins s' = .error why ↔ s.Mismatch s' why := by
  constructor
  · intro h
    unfold checkJoins at h
    split at h
    · rename_i hlabels
      cases h
      exact .labels hlabels
    · rename_i hlabels
      split at h
      · rename_i hvartype
        cases h
        exact .vartype (not_not.mp hlabels) hvartype
      · cases h
  · intro h
    cases h with
    | labels h => exact if_pos h
    | vartype h ht => simp [checkJoins, h, ht]

/-- A check looks at nothing but columns and domains. -/
theorem Matches.checkJoins {s s' p p' : SampleSet V R} (h : s.Matches s') (hp : p.Matches p') :
    s.checkJoins p = s'.checkJoins p' := by
  simp only [SampleSet.checkJoins, h.labels, h.vartype, hp.labels, hp.vartype]

/-- A set that passes the checks of another matches it. -/
theorem checkJoins_matches {s s' : SampleSet V R} :
    s.checkJoins s' = .ok () ↔ s.Matches s' := by
  rw [checkJoins_ok]
  exact ⟨fun h => ⟨h.1, h.2⟩, fun h => ⟨h.labels, h.vartype⟩⟩

theorem records_concatenate {sets : List (SampleSet V R)} {s : SampleSet V R}
    (h : ∀ p ∈ sets, p.WellFormed) (hs : concatenate sets = .ok s) :
    s.records = sets.flatMap (·.records) := by
  obtain ⟨_, _, hrows, henergies, hoccurrences⟩ := concatenate_ok hs
  apply records_of_parts
  · rw [hrows, List.map_flatMap]
    exact List.flatMap_congr (fun p hp => (h p hp).unzip_records.1.symm)
  · rw [henergies, List.map_flatMap]
    exact List.flatMap_congr (fun p hp => (h p hp).unzip_records.2.1.symm)
  · rw [hoccurrences, List.map_flatMap]
    exact List.flatMap_congr (fun p hp => (h p hp).unzip_records.2.2.symm)

theorem joined_of_concatenate {sets : List (SampleSet V R)} (h : ∀ p ∈ sets, p.WellFormed)
    {s : SampleSet V R} (hs : concatenate sets = .ok s) : Joined sets s := by
  obtain ⟨hne, hsame, _⟩ := concatenate_ok hs
  exact ⟨hne, .concatenate h hs, fun p hp => ⟨(hsame p hp).1.symm, (hsame p hp).2.1.symm⟩,
    records_concatenate h hs⟩

theorem exists_joined {sets : List (SampleSet V R)} (h : ∀ p ∈ sets, p.WellFormed) (hne : sets ≠ [])
    {s : SampleSet V R} (hsame : ∀ p ∈ sets, s.Matches p) :
    ∃ whole, concatenate sets = .ok whole ∧ Joined sets whole := by
  obtain ⟨whole, hwhole⟩ := WellFormed.joins hne
    (fun p hp => ⟨h p hp, (hsame p hp).labels, (hsame p hp).vartype⟩)
  exact ⟨whole, hwhole, joined_of_concatenate h hwhole⟩

/-- Sets that can be joined are joined; the error is else that of the check against the first. -/
theorem concatenate_error {s : SampleSet V R} {rest : List (SampleSet V R)}
    (h : ∀ p ∈ s :: rest, p.WellFormed) {why : ModelError V} :
    concatenate (s :: rest) = .error why ↔ (s :: rest).forM s.checkJoins = .error why := by
  have hself : s.checkJoins s = .ok () := checkJoins_matches.mpr (.refl s)
  have hskip : (s :: rest).forM s.checkJoins = rest.forM s.checkJoins := by
    rw [forM_cons, hself]
    rfl
  rw [hskip]
  cases hjoins : rest.forM s.checkJoins with
  | error e => simp [concatenate, hjoins, bind, Except.bind]
  | ok u =>
    have hsame : ∀ p ∈ s :: rest, s.Matches p := List.forall_mem_cons.mpr
      ⟨.refl s, fun p hp => checkJoins_matches.mp (forM_ok.mp hjoins p hp)⟩
    obtain ⟨whole, hwhole, _⟩ := exists_joined h (by simp) hsame
    simp [hwhole]

/-- Sets that are joined part by part are joined alike: where the parts match each other as well,
and also where they do not and the same set is reported. -/
theorem concatenate_flatten {parts : List (List (SampleSet V R))} {wholes : List (SampleSet V R)}
    (hparts : ∀ p ∈ parts.flatten, p.WellFormed) (h : List.Forall₂ Joined parts wholes) :
    concatenate wholes = concatenate parts.flatten := by
  have hchecks : ∀ s : SampleSet V R, parts.flatten.forM s.checkJoins = wholes.forM s.checkJoins :=
    fun s => forM_flatten (h.imp fun _ _ hpart =>
      ⟨hpart.nonempty, fun p hp => Matches.checkJoins (.refl s) (hpart.same p hp)⟩)
  cases h with
  | nil => rfl
  | @cons part whole parts' wholes' hpart hrest =>
    obtain ⟨s, part, rfl⟩ := List.exists_cons_of_ne_nil hpart.nonempty
    have hwholes := wellFormed_of_joined (.cons hpart hrest)
    -- Both check against a set with the same columns and domain, so that they fail alike. Where
    -- neither fails, there is one way to join.
    have herror : ∀ why, concatenate (whole :: wholes') = .error why ↔
        concatenate ((s :: part) :: parts').flatten = .error why := by
      intro why
      have hfirst : whole.checkJoins = s.checkJoins := funext fun p =>
        (Matches.checkJoins (hpart.same s (by simp)) (.refl p)).symm
      rw [concatenate_error hwholes, hfirst, ← hchecks]
      exact (concatenate_error hparts).symm
    cases hjoined : concatenate (whole :: wholes') with
    | error why => exact ((herror why).mp hjoined).symm
    | ok joined =>
      cases hall : concatenate ((s :: part) :: parts').flatten with
      | error why => rw [(herror why).mpr hall] at hjoined; cases hjoined
      | ok all =>
        have hflat : Joined ((s :: part) :: parts').flatten joined :=
          Joined.flatten (.cons hpart hrest) (joined_of_concatenate hwholes hjoined)
        rw [hflat.unique (joined_of_concatenate hparts hall)]

/-- Sets are joined if they match the first; the earliest that does not is reported, for its columns
rather than its domain. What is joined has the rows of all sets in order. It makes no difference
whether consecutive sets are joined beforehand. -/
theorem joined_in_order (sets : List (SampleSet V R)) (h : ∀ p ∈ sets, p.WellFormed) :
    (concatenate sets = .error .nothingToConcatenate ↔ sets = []) ∧
    (∀ first rest, sets = first :: rest →
      (∀ why, concatenate sets = .error why ↔ ∃ before s after, sets = before ++ s :: after ∧
        (∀ p ∈ before, first.Matches p) ∧ first.Mismatch s why) ∧
      ((∀ p ∈ sets, first.Matches p) →
        ∃ whole, concatenate sets = .ok whole ∧ Joined sets whole)) ∧
    ∀ parts : List (List (SampleSet V R)), parts.flatten = sets →
      (∀ part ∈ parts, part ≠ [] ∧ ∀ p ∈ part, ∀ q ∈ part, p.Matches q) →
      ∃ wholes, parts.mapM concatenate = .ok wholes ∧ concatenate wholes = concatenate sets := by
  refine ⟨?_, ?_, ?_⟩
  · constructor
    · intro hnothing
      cases sets with
      | nil => rfl
      | cons s rest =>
        obtain ⟨_, p, _, _, _, hp⟩ := forM_error.mp ((concatenate_error h).mp hnothing)
        cases checkJoins_error.mp hp
    · intro hnil
      subst hnil
      rfl
  · intro first rest hsets
    subst hsets
    refine ⟨fun why => ?_, fun hsame => exists_joined h (by simp) hsame⟩
    rw [concatenate_error h, forM_error]
    simp only [checkJoins_matches, checkJoins_error]
  · intro parts hparts hgroups
    subst hparts
    have hpart : ∀ part ∈ parts, ∃ whole, concatenate part = .ok whole ∧ Joined part whole := by
      intro part hpart
      obtain ⟨hne, hsame⟩ := hgroups part hpart
      obtain ⟨p, hp⟩ := List.exists_mem_of_ne_nil part hne
      have hwell : ∀ q ∈ part, q.WellFormed := fun q hq =>
        h q (List.mem_flatten.mpr ⟨part, hpart, hq⟩)
      exact exists_joined hwell hne (hsame p hp)
    obtain ⟨wholes, hwholes, hjoined⟩ := mapM_succeeds hpart
    exact ⟨wholes, hwholes, concatenate_flatten h hjoined⟩

/-- A set without rows between two with rows, and a set of spins that is reported before one whose
columns are turned. -/
theorem joined_of_three_sets :
    let s : SampleSet String Rat :=
      ⟨["a", "b"], ⟨2, [[0, 1], [1, 1]], by decide⟩, [3, -1], [1, 2], .binary⟩
    let p : SampleSet String Rat := ⟨["a", "b"], ⟨2, [], by decide⟩, [], [], .binary⟩
    let q : SampleSet String Rat := ⟨["a", "b"], ⟨2, [[1, 0]], by decide⟩, [2], [6], .binary⟩
    let spins : SampleSet String Rat := ⟨["a", "b"], ⟨2, [], by decide⟩, [], [], .spin⟩
    let turned : SampleSet String Rat := ⟨["b", "a"], ⟨2, [], by decide⟩, [], [], .spin⟩
    (s.WellFormed ∧ p.WellFormed ∧ q.WellFormed ∧ spins.WellFormed ∧ turned.WellFormed) ∧
      (∃ whole, concatenate [s, p, q] = .ok whole ∧ whole.records = s.records ++ q.records) ∧
      (∃ wholes, [[s, p], [q]].mapM concatenate = .ok wholes ∧
        concatenate wholes = concatenate [s, p, q]) ∧
      concatenate [s, spins, turned] = .error (.vartypeMismatch .binary .spin) := by
  intro s p q spins turned
  have hs : s.WellFormed := ⟨rfl, rfl, rfl, by decide⟩
  have hp : p.WellFormed := ⟨rfl, rfl, rfl, by simp [p]⟩
  have hq : q.WellFormed := ⟨rfl, rfl, rfl, by decide⟩
  have hspins : spins.WellFormed := ⟨rfl, rfl, rfl, by simp [spins]⟩
  have hturned : turned.WellFormed := ⟨rfl, rfl, rfl, by simp [turned]⟩
  have hsame : ∀ r ∈ [s, p, q], s.Matches r :=
    List.forall_mem_cons.mpr ⟨.refl s, List.forall_mem_cons.mpr
      ⟨⟨rfl, rfl⟩, List.forall_mem_singleton.mpr ⟨rfl, rfl⟩⟩⟩
  obtain ⟨_, hjoin, hgroups⟩ := joined_in_order [s, p, q]
    (List.forall_mem_cons.mpr ⟨hs, List.forall_mem_cons.mpr ⟨hp, List.forall_mem_singleton.mpr hq⟩⟩)
  obtain ⟨_, hfail, _⟩ := joined_in_order [s, spins, turned]
    (List.forall_mem_cons.mpr
      ⟨hs, List.forall_mem_cons.mpr ⟨hspins, List.forall_mem_singleton.mpr hturned⟩⟩)
  obtain ⟨whole, hwhole, hjoined⟩ := (hjoin s _ rfl).2 hsame
  refine ⟨⟨hs, hp, hq, hspins, hturned⟩, ⟨whole, hwhole, hjoined.records⟩,
    hgroups [[s, p], [q]] rfl (fun part hpart => ⟨?_, fun r hr r' hr' => ?_⟩), ?_⟩
  · rintro rfl
    simp at hpart
  · have hmem : ∀ r ∈ part, r ∈ [s, p, q] := fun r hr =>
      List.mem_flatten.mpr ⟨part, hpart, hr⟩
    exact (hsame r (hmem r hr)).symm.trans (hsame r' (hmem r' hr'))
  · exact ((hfail s _ rfl).1 _).mpr ⟨[s], spins, [turned], rfl,
      List.forall_mem_singleton.mpr (.refl s), .vartype rfl (by decide)⟩

end BinaryQuadratic.SampleSet
