import BinaryQuadratic.Proofs.SampleSet.Merged
import BinaryQuadratic.Proofs.Word
import BinaryQuadratic.SampleSet.Counts

namespace BinaryQuadratic

open Word (Overflow)

/-- A group whose count is cut to a word. -/
def Group.word? (o : Overflow) (g : Group) : Option Group :=
  (o.word? g.occurrences).map (fun n => { g with occurrences := n })

variable {o : Overflow}

theorem Group.words_cons (g : Group) (gs : List Group) : (g :: gs).mapM (Group.word? o) =
    (o.word? g.occurrences).bind
      (fun n => (gs.mapM (Group.word? o)).map ({ g with occurrences := n } :: ·)) := by
  rw [List.mapM_cons, Group.word?]
  cases o.word? g.occurrences <;> simp [Option.map_eq_bind]

/-- A joint count may be cut to a word before the next row is counted into it or after. -/
theorem Group.countWord_eq {sample : List Int} {row n : Nat} (hn : n < Word.bound)
    (gs : List Group) : (gs.mapM (Group.word? o)).bind (Group.countWord o sample row n) =
      (Group.count sample row n gs).mapM (Group.word? o) := by
  induction gs with
  | nil =>
    have hword : Group.word? o ⟨sample, row, n⟩ = some ⟨sample, row, n⟩ := by
      rw [Group.word?, Overflow.word?_of_lt o hn]
      rfl
    simp [Group.countWord, Group.count, hword]
  | cons g gs ih =>
    by_cases hg : g.sample = sample
    · have hcount : Group.count sample row n (g :: gs) =
          { g with occurrences := g.occurrences + n } :: gs := by
        simp [Group.count, hg]
      rw [hcount, words_cons, words_cons, ← Overflow.word?_add]
      cases o.word? g.occurrences with
      | none => rfl
      | some k =>
        cases gs.mapM (Group.word? o) with
        | none => simp
        | some gs' => simp [Group.countWord, hg, Option.map_eq_bind]
    · have hcount : Group.count sample row n (g :: gs) = g :: Group.count sample row n gs := by
        simp [Group.count, hg]
      rw [hcount, words_cons, words_cons, ← ih]
      simp [Group.countWord, hg, Option.bind_assoc, Option.map_eq_bind]

namespace SampleSet

variable {V R : Type}

/-- The groups are those of unbounded counts, which are cut to words at the end. -/
theorem groupsInWords_eq {s : SampleSet V R} (h : ∀ n ∈ s.occurrences, n < Word.bound) :
    s.groupsInWords o = s.groups.mapM (Group.word? o) := by
  have hwords : ∀ rs : List (Record R), (∀ r ∈ rs, r.occurrences < Word.bound) →
      rs.zipIdx.foldlM (fun gs p => Group.countWord o p.1.sample p.2 p.1.occurrences gs) [] =
        (groupsOf rs).mapM (Group.word? o) := by
    intro rs
    induction rs using List.reverseRecOn with
    | nil => exact fun _ => rfl
    | append_singleton rs r ih =>
      intro hrs
      obtain ⟨hrest, hr⟩ := List.forall_mem_append.mp hrs
      rw [groupsOf_concat, ← Group.countWord_eq (hr r (by simp)), ← ih hrest]
      simp [List.zipIdx_append, List.foldlM_append]
  refine hwords s.records (fun r hr => h _ ?_)
  obtain ⟨i, hi⟩ := List.mem_iff_getElem?.mp hr
  exact List.mem_of_getElem? (getElem?_records.mp hi).2.2

/-- Cutting counts to words leaves the rows of the groups. -/
theorem rows_of_words (gs : List Group) :
    (gs.mapM (Group.word? o)).map (fun gs' => (gs'.map (·.row), gs'.map (·.occurrences))) =
      ((gs.map (·.occurrences)).mapM o.word?).map (fun counts => (gs.map (·.row), counts)) := by
  induction gs with
  | nil => rfl
  | cons g gs ih =>
    rw [Group.words_cons, List.map_cons, List.map_cons, List.mapM_cons]
    cases o.word? g.occurrences with
    | none => rfl
    | some n =>
      have hrest := congrArg (Option.map (fun p => (g.row :: p.1, n :: p.2))) ih
      simpa [Option.map_eq_bind, Option.bind_assoc, Function.comp_def] using hrest

/-- Merging in words is merging, with each joint count cut to a word. -/
theorem aggregateInWords_eq (o : Overflow) {s : SampleSet V R}
    (h : ∀ n ∈ s.occurrences, n < Word.bound) :
    s.aggregateInWords o = (s.aggregate.occurrences.mapM o.word?).map
      (fun counts => { s.aggregate with occurrences := counts }) := by
  have hrows := congrArg (Option.map (fun p => { s.select p.1 with occurrences := p.2 }))
    (rows_of_words (o := o) s.groups)
  rw [Option.map_map, Option.map_map] at hrows
  rw [aggregateInWords, groupsInWords_eq h]
  exact (bind_pure_comp ..).trans hrows

/-- The counts, and so what merging adds up, are words. -/
def CountsFit (s : SampleSet V R) : Prop :=
  s.occurrences.sum < Word.bound

theorem CountsFit.lt {s : SampleSet V R} (h : s.CountsFit) : ∀ n ∈ s.occurrences, n < Word.bound :=
  fun _ hn => (List.le_sum_of_mem hn).trans_lt h

theorem WellFormed.countsFit_aggregate {s : SampleSet V R} (h : s.WellFormed) :
    s.aggregate.CountsFit ↔ s.CountsFit := by
  rw [CountsFit, CountsFit, h.sum_occurrences_aggregate]

/-- Below the bound nothing is cut: what is proved of unbounded counts holds of words. -/
theorem WellFormed.aggregateInWords {s : SampleSet V R} (h : s.WellFormed) (hfit : s.CountsFit)
    (o : Overflow) : s.aggregateInWords o = some s.aggregate := by
  have hcounts : s.aggregate.occurrences.mapM o.word? = some s.aggregate.occurrences := by
    have hword : ∀ n ∈ s.aggregate.occurrences, o.word? n = pure n :=
      fun n hn => o.word?_of_lt ((h.countsFit_aggregate.mpr hfit).lt n hn)
    rw [mapM_eq_pure hword, List.map_id']
    rfl
  rw [aggregateInWords_eq o hfit.lt, hcounts]
  rfl

/-- Where a sum ends the run, merging has a result exactly if every joint count is a word. -/
theorem isSome_aggregateInWords {s : SampleSet V R} (h : ∀ n ∈ s.occurrences, n < Word.bound) :
    (s.aggregateInWords .stops).isSome = true ↔ ∀ n ∈ s.aggregate.occurrences, n < Word.bound := by
  have hstops {n : Nat} : (Overflow.stops.word? n).isSome = true ↔ n < Word.bound := by
    rw [← not_iff_not, Option.not_isSome_iff_eq_none, Word.Overflow.word?_eq_none]
    simp
  rw [aggregateInWords_eq _ h, Option.isSome_map]
  induction s.aggregate.occurrences with
  | nil => simp
  | cons n ns ih =>
    rw [List.mapM_cons, List.forall_mem_cons, ← hstops]
    cases Overflow.stops.word? n with
    | none => simp
    | some k => cases hns : ns.mapM Overflow.stops.word? <;> simpa [hns] using ih

end SampleSet
end BinaryQuadratic
