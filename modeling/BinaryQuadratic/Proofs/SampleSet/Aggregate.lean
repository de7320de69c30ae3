import BinaryQuadratic.Proofs.SampleSet.WellFormed

namespace BinaryQuadratic

/-- The joint count of all groups with the given values. -/
def Group.total (x : List Int) (gs : List Group) : Nat :=
  ((gs.filter (·.sample = x)).map (·.occurrences)).sum

/-- A row is counted for its own values only. -/
theorem Group.total_count (x sample : List Int) (row n : Nat) (gs : List Group) :
    total x (count sample row n gs) = total x gs + if sample = x then n else 0 := by
  induction gs with
  | nil => by_cases hx : sample = x <;> simp [total, Group.count, hx]
  | cons g gs ih =>
    by_cases hg : g.sample = sample
    · by_cases hx : sample = x
      · simp [total, Group.count, hg, hx, Nat.add_right_comm]
      · simp [total, Group.count, hg, hx]
    · have hcount : count sample row n (g :: gs) = g :: count sample row n gs := by
        simp [Group.count, hg]
      rw [hcount]
      by_cases hx : g.sample = x
      · simp only [total, List.filter_cons, hx, decide_true, ↓reduceIte, List.map_cons,
          List.sum_cons] at ih ⊢
        rw [ih, Nat.add_assoc]
      · simpa [total, hx] using ih

/-- Where no two groups have the same values, a group has the whole count of its own. -/
theorem Group.total_eq {gs : List Group} (h : (gs.map (·.sample)).Nodup) {g : Group} (hg : g ∈ gs) :
    total g.sample gs = g.occurrences := by
  induction gs with
  | nil => cases hg
  | cons g₀ gs ih =>
    obtain ⟨hnew, hrest⟩ := List.nodup_cons.mp h
    rcases List.mem_cons.mp hg with rfl | hg
    · have hnone : gs.filter (·.sample = g.sample) = [] := by
        refine List.filter_eq_nil_iff.mpr (fun g' hg' => ?_)
        simpa using fun he => hnew (List.mem_map.mpr ⟨g', hg', he⟩)
      simp [total, hnone]
    · have hne : g₀.sample ≠ g.sample := fun he => hnew (List.mem_map.mpr ⟨g, hg, he.symm⟩)
      have hskip : total g.sample (g₀ :: gs) = total g.sample gs := by simp [total, hne]
      rw [hskip, ih hrest hg]

theorem Group.sum_count (sample : List Int) (row n : Nat) (gs : List Group) :
    ((count sample row n gs).map (·.occurrences)).sum =
      (gs.map (·.occurrences)).sum + n := by
  induction gs with
  | nil => simp [Group.count]
  | cons g gs ih =>
    by_cases hg : g.sample = sample
    · simp [Group.count, hg]
      omega
    · simp [Group.count, hg, ih]
      omega

namespace SampleSet

variable {V R : Type}

/-- How often a sample occurred, over all rows that hold it. -/
def tally (s : SampleSet V R) (x : List Int) : Nat :=
  ((s.records.filter (·.sample = x)).map (·.occurrences)).sum

theorem nodup_groups (s : SampleSet V R) : (s.groups.map (·.sample)).Nodup :=
  samples_groupsOf s.records ▸ nodup_eraseDups _

theorem total_groups (s : SampleSet V R) (x : List Int) : Group.total x s.groups = s.tally x := by
  have hfold : ∀ (rs : List (Record R)) (n : Nat) (gs : List Group),
      Group.total x ((rs.zipIdx n).foldl
        (fun gs p => Group.count p.1.sample p.2 p.1.occurrences gs) gs) =
      Group.total x gs + ((rs.filter (·.sample = x)).map (·.occurrences)).sum := by
    intro rs
    induction rs with
    | nil => simp
    | cons r rs ih =>
      intro n gs
      rw [List.zipIdx_cons, List.foldl_cons, ih, Group.total_count, Nat.add_assoc]
      by_cases hx : r.sample = x <;> simp [hx]
  exact (hfold s.records 0 []).trans (Nat.zero_add _)

theorem occurrences_of_group {s : SampleSet V R} {g : Group} (hg : g ∈ s.groups) :
    g.occurrences = s.tally g.sample := by
  rw [← total_groups, Group.total_eq s.nodup_groups hg]

/-- A merged set has one row for each group. -/
theorem rows_aggregate (s : SampleSet V R) :
    s.aggregate.samples.rows = s.groups.map (·.sample) := by
  change pick (s.groups.map (·.row)) s.samples.rows = _
  rw [pick_eq_filterMap, List.filterMap_map, ← List.filterMap_eq_map]
  refine List.filterMap_congr (fun g hg => ?_)
  obtain ⟨r, hr, he⟩ := row_of_group hg
  exact (getElem?_records.mp hr).1.trans (congrArg some he)

theorem nodup_rows_aggregate (s : SampleSet V R) : s.aggregate.samples.rows.Nodup :=
  s.rows_aggregate ▸ s.nodup_groups

/-- Every row of a merged set is counted as often as its values occurred. -/
theorem occurrences_aggregate (s : SampleSet V R) :
    s.aggregate.occurrences = s.aggregate.samples.rows.map s.tally := by
  rw [rows_aggregate, List.map_map]
  exact List.map_congr_left (fun g hg => occurrences_of_group hg)

end SampleSet
end BinaryQuadratic
