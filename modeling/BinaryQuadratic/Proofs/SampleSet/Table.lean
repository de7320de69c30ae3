import BinaryQuadratic.Proofs.SampleSet.Bounds
import BinaryQuadratic.Proofs.SampleSet.Sorted
import BinaryQuadratic.Proofs.Text.Real
import BinaryQuadratic.Proofs.Word

namespace BinaryQuadratic.SampleSet

theorem le_widest {widths : List Nat} {w : Nat} (h : w ∈ widths) : w ≤ widest widths := by
  unfold widest
  induction widths using List.reverseRecOn with
  | nil => cases h
  | append_singleton widths w' ih =>
    rw [List.foldl_concat]
    rcases List.mem_append.mp h with h | h
    · exact (ih h).trans (le_max_left _ _)
    · exact (List.mem_singleton.mp h) ▸ le_max_right _ _

theorem toList_padLeft (width : Nat) (s : String) :
    (padLeft width s).toList = List.replicate (width - s.length) ' ' ++ s.toList := by
  simp [padLeft]

theorem length_padLeft (width : Nat) (s : String) : (padLeft width s).length = max width s.length := by
  rw [← String.length_toList, toList_padLeft]
  simp only [List.length_append, List.length_replicate, String.length_toList]
  omega

theorem words_padLeft (width : Nat) (s : String) : Text.words (padLeft width s) = Text.words s :=
  Text.words_blanks_append _ s

theorem toList_tableLine (index : String) (cells : List String) :
    (tableLine index cells).toList = index.toList ++ cells.flatMap (fun c => ' ' :: c.toList) := by
  simp [tableLine, List.flatMap_map]

theorem length_tableLine (index : String) (cells : List String) :
    (tableLine index cells).length = index.length + (cells.map (·.length + 1)).sum := by
  rw [← String.length_toList, toList_tableLine]
  simp [List.length_flatMap, String.length_toList]

theorem words_tableLine (index : String) (cells : List String) :
    Text.words (tableLine index cells) = Text.words index ++ cells.flatMap Text.words := by
  induction cells generalizing index with
  | nil => simp [tableLine]
  | cons c cells ih =>
    have hfront : tableLine index (c :: cells) = index ++ (" " ++ tableLine c cells) := by
      apply String.toList_injective
      simp [toList_tableLine]
    rw [hfront, Text.words_append_blank, ih, List.flatMap_cons]

/-- A line is broken nowhere if no cell is. -/
theorem feed_not_mem_tableLine {index : String} {cells : List String} (hindex : '\n' ∉ index.toList)
    (hcells : ∀ c ∈ cells, '\n' ∉ c.toList) : '\n' ∉ (tableLine index cells).toList := by
  rw [toList_tableLine]
  simp only [List.mem_append, List.mem_flatMap, List.mem_cons, not_or, not_exists, not_and]
  exact ⟨hindex, fun c hc => ⟨by decide, hcells c hc⟩⟩

theorem feed_not_mem_padLeft {s : String} (h : '\n' ∉ s.toList) (width : Nat) :
    '\n' ∉ (padLeft width s).toList := by
  rw [toList_padLeft]
  simp [h]

/-- A text that is one word, on one line. -/
structure IsCell (s : String) : Prop where
  nonempty : s.toList ≠ []
  blank : ' ' ∉ s.toList
  feed : '\n' ∉ s.toList

theorem IsCell.words {s : String} (h : IsCell s) : Text.words s = [s] :=
  Text.words_eq_singleton h.nonempty h.blank

theorem isCell_toString (n : Nat) : IsCell (toString n) :=
  ⟨Text.toString_nat_ne_nil n, fun h => (nomatch Text.isDigit_of_mem_toString h),
    fun h => (nomatch Text.isDigit_of_mem_toString h)⟩

theorem isCell_real (x : Float) : IsCell (Text.real x) := by
  obtain ⟨c, hc, _⟩ := Text.exists_mark_double Text.realLayout x
  exact ⟨List.ne_nil_of_mem hc, fun h => (nomatch Text.isRealChar_of_mem_double h),
    fun h => (nomatch Text.isRealChar_of_mem_double h)⟩

/-- A value of the domain fits into the narrowest column. -/
theorem valueText_of_contains {t : Vartype} {x : Int} (h : t.contains x = true) :
    IsCell (valueText t x) ∧ (valueText t x).length ≤ 2 := by
  rw [Vartype.contains_iff] at h
  cases t with
  | spin => rcases h with rfl | rfl <;> exact ⟨⟨by decide, by decide, by decide⟩, by decide⟩
  | binary => rcases h with rfl | rfl <;> exact ⟨⟨by decide, by decide, by decide⟩, by decide⟩

theorem le_utf8Len (cs : List Char) : cs.length ≤ String.utf8Len cs := by
  induction cs with
  | nil => simp
  | cons c cs ih =>
    have := c.utf8Size_pos
    simp only [String.utf8Len, List.length_cons]
    omega

/-- Characters have a byte or more. -/
theorem length_le_utf8ByteSize (s : String) : s.length ≤ s.utf8ByteSize := by
  have h := le_utf8Len s.toList
  rwa [String.length_toList, ← String.utf8ByteSize_ofList, String.ofList_toList] at h

theorem length_toString_le_iff (n : Nat) :
    (toString n).length ≤ occurrencesHeading.length ↔ n < 10 ^ 7 := by
  rw [Nat.toString_eq_repr, ← String.length_toList, Nat.toList_repr]
  exact Nat.length_toDigits_le_iff (by decide) (by decide)

section
variable {V : Type} {s : SampleSet V Float} {p : Nat × Record Float}

def indexWidth (s : SampleSet V Float) : Nat :=
  widest (s.orderedRecords.map (fun p => (toString p.1).length))

def energyWidth (s : SampleSet V Float) : Nat :=
  max energyHeading.length (widest (s.orderedRecords.map (fun p => (Text.real p.2.energy).length)))

theorem index_le (hp : p ∈ s.orderedRecords) : (toString p.1).length ≤ s.indexWidth :=
  le_widest (List.mem_map.mpr ⟨p, hp, rfl⟩)

theorem energy_le (hp : p ∈ s.orderedRecords) :
    (Text.real p.2.energy).length ≤ s.energyWidth := by
  have hwidest := le_widest
    (List.mem_map.mpr ⟨p, hp, rfl⟩ : (Text.real p.2.energy).length ∈
      s.orderedRecords.map (fun p => (Text.real p.2.energy).length))
  exact hwidest.trans (le_max_right ..)

theorem WellFormed.mem_orderedRecords (h : s.WellFormed) (hp : p ∈ s.orderedRecords) :
    p.2.sample.length = s.labels.length ∧ ∀ x ∈ p.2.sample, s.vartype.contains x = true := by
  have hrow := List.mem_of_getElem? (getElem?_records.mp (record_of_mem_orderedRecords hp)).1
  exact ⟨(s.samples.width _ hrow).trans h.width, h.domain _ hrow⟩

variable [VariableLabel V]

theorem two_le_columnWidth (v : V) : 2 ≤ columnWidth v :=
  le_max_left ..

/-- A label has no more characters than bytes, by which its column is measured. -/
theorem length_plain_le (v : V) : (VariableLabel.plain v).length ≤ columnWidth v :=
  (length_le_utf8ByteSize _).trans (le_max_right ..)

def headingLine (s : SampleSet V Float) : String :=
  tableLine (padLeft s.indexWidth "")
    (s.labels.map (fun v => padLeft (columnWidth v) (VariableLabel.plain v)) ++
      [padLeft s.energyWidth energyHeading, occurrencesHeading])

/-- The values of a sample below their labels. -/
def valueCells (s : SampleSet V Float) (sample : List Int) : List String :=
  (s.labels.zip sample).map (fun p => padLeft (columnWidth p.1) (valueText s.vartype p.2))

def rowLine (s : SampleSet V Float) (i : Nat) (r : Record Float) : String :=
  tableLine (padLeft s.indexWidth (toString i))
    (s.valueCells r.sample ++
      [padLeft s.energyWidth (Text.real r.energy),
        padLeft occurrencesHeading.length (toString r.occurrences)])

theorem tableLines_eq (s : SampleSet V Float) (total : Nat) : s.tableLines total =
    s.headingLine ::
      (s.orderedRecords.map (fun p => s.rowLine p.1 p.2) ++ [s.summaryLine total]) := by
  have hlabels : List.zipWith (fun w (v : V) => padLeft w (VariableLabel.plain v))
      (s.labels.map columnWidth) s.labels =
        s.labels.map (fun v => padLeft (columnWidth v) (VariableLabel.plain v)) := by
    rw [List.zipWith_map_left, List.zipWith_self]
  have hvalues (sample : List Int) : List.zipWith (fun w x => padLeft w (valueText s.vartype x))
      (s.labels.map columnWidth) sample = s.valueCells sample := by
    rw [List.zipWith_map_left, ← List.map_uncurry_zip_eq_zipWith]
    rfl
  simp only [tableLines, hlabels, hvalues, List.map_map, Function.comp_def]
  rfl

/-- How far into each line the counts begin. -/
def countsOffset (s : SampleSet V Float) : Nat :=
  s.indexWidth + (s.labels.map (fun v => columnWidth v + 1)).sum + (s.energyWidth + 1) + 1

theorem length_headingLine (s : SampleSet V Float) :
    s.headingLine.length = s.countsOffset + occurrencesHeading.length := by
  have henergy : energyHeading.length ≤ s.energyWidth := le_max_left ..
  have hlabels (v : V) : max (columnWidth v) (VariableLabel.plain v).length = columnWidth v :=
    max_eq_left (length_plain_le v)
  rw [headingLine, length_tableLine, countsOffset]
  simp only [List.map_append, List.map_map, Function.comp_def, List.map_cons,
    List.map_nil, List.sum_append, List.sum_cons, List.sum_nil, length_padLeft, hlabels,
    max_eq_left henergy, String.length_empty, Nat.max_zero]
  omega

/-- Of a sample as wide as the set each value has a cell, one word in the width of its column. -/
theorem valueCells_of_contains {s : SampleSet V Float} {sample : List Int}
    (hlength : sample.length = s.labels.length)
    (hdomain : ∀ x ∈ sample, s.vartype.contains x = true) :
    (s.valueCells sample).flatMap Text.words = sample.map (valueText s.vartype) ∧
      (s.valueCells sample).map String.length = s.labels.map columnWidth ∧
      ∀ c ∈ s.valueCells sample, '\n' ∉ c.toList := by
  have hcell : ∀ p ∈ s.labels.zip sample, IsCell (valueText s.vartype p.2) ∧
      (valueText s.vartype p.2).length ≤ columnWidth p.1 := by
    intro p hp
    obtain ⟨hword, hlength⟩ := valueText_of_contains (hdomain p.2 (List.of_mem_zip hp).2)
    exact ⟨hword, hlength.trans (two_le_columnWidth p.1)⟩
  refine ⟨?_, ?_, ?_⟩
  · have hwords : ∀ p ∈ s.labels.zip sample,
        Text.words (padLeft (columnWidth p.1) (valueText s.vartype p.2)) =
          [valueText s.vartype p.2] := fun p hp => by rw [words_padLeft, (hcell p hp).1.words]
    have hsample := List.map_map (f := Prod.snd) (g := valueText s.vartype)
      (l := s.labels.zip sample)
    rw [List.map_snd_zip hlength.le] at hsample
    rw [valueCells, List.flatMap_map, List.flatMap_congr hwords, ← List.map_eq_flatMap, hsample]
    rfl
  · have hwidth : ∀ p ∈ s.labels.zip sample,
        (padLeft (columnWidth p.1) (valueText s.vartype p.2)).length = columnWidth p.1 :=
      fun p hp => by rw [length_padLeft, max_eq_left (hcell p hp).2]
    have hlabels := List.map_map (f := Prod.fst) (g := columnWidth) (l := s.labels.zip sample)
    rw [List.map_fst_zip hlength.ge] at hlabels
    rw [valueCells, List.map_map, hlabels, Function.comp_def, Function.comp_def]
    exact List.map_congr_left hwidth
  · intro c hc
    obtain ⟨p, hp, rfl⟩ := List.mem_map.mp hc
    exact feed_not_mem_padLeft (hcell p hp).1.feed _

/-- Every column but the last is as wide as all that stands in it. -/
theorem WellFormed.length_rowLine (h : s.WellFormed) (hp : p ∈ s.orderedRecords) :
    (s.rowLine p.1 p.2).length =
      s.countsOffset + max occurrencesHeading.length (toString p.2.occurrences).length := by
  obtain ⟨hlength, hdomain⟩ := h.mem_orderedRecords hp
  have hvalues : ((s.valueCells p.2.sample).map (·.length + 1)).sum =
      (s.labels.map (fun v => columnWidth v + 1)).sum := by
    have hwidths := congrArg (List.map (· + 1)) (valueCells_of_contains hlength hdomain).2.1
    rw [List.map_map, List.map_map] at hwidths
    exact congrArg List.sum hwidths
  rw [rowLine, length_tableLine, countsOffset, List.map_append, List.sum_append, hvalues]
  simp only [List.map_cons, List.map_nil, List.sum_cons, List.sum_nil, length_padLeft,
    max_eq_left (index_le hp), max_eq_left (energy_le hp)]
  omega

theorem WellFormed.words_rowLine (h : s.WellFormed) (hp : p ∈ s.orderedRecords) :
    Text.words (s.rowLine p.1 p.2) = toString p.1 ::
      (p.2.sample.map (valueText s.vartype) ++
        [Text.real p.2.energy, toString p.2.occurrences]) := by
  obtain ⟨hlength, hdomain⟩ := h.mem_orderedRecords hp
  rw [rowLine, words_tableLine, List.flatMap_append,
    (valueCells_of_contains hlength hdomain).1]
  simp only [List.flatMap_cons, List.flatMap_nil, words_padLeft, (isCell_toString _).words,
    (isCell_real _).words]
  rfl

theorem WellFormed.feed_not_mem_rowLine (h : s.WellFormed) (hp : p ∈ s.orderedRecords) :
    '\n' ∉ (s.rowLine p.1 p.2).toList := by
  obtain ⟨hlength, hdomain⟩ := h.mem_orderedRecords hp
  refine feed_not_mem_tableLine (feed_not_mem_padLeft (isCell_toString _).feed _) ?_
  intro c hc
  rcases List.mem_append.mp hc with hc | hc
  · exact (valueCells_of_contains hlength hdomain).2.2 c hc
  · rcases List.mem_pair.mp hc with rfl | rfl
    · exact feed_not_mem_padLeft (isCell_real _).feed _
    · exact feed_not_mem_padLeft (isCell_toString _).feed _

theorem feed_not_mem_headingLine {s : SampleSet V Float}
    (hlabels : ∀ v ∈ s.labels, '\n' ∉ (VariableLabel.plain v).toList) :
    '\n' ∉ s.headingLine.toList := by
  refine feed_not_mem_tableLine (feed_not_mem_padLeft (by simp) _) ?_
  intro c hc
  rcases List.mem_append.mp hc with hc | hc
  · obtain ⟨v, hv, rfl⟩ := List.mem_map.mp hc
    exact feed_not_mem_padLeft (hlabels v hv) _
  · rcases List.mem_pair.mp hc with rfl | rfl
    · exact feed_not_mem_padLeft (by decide) _
    · decide

omit [VariableLabel V] in
theorem feed_not_mem_summaryLine (s : SampleSet V Float) (total : Nat) :
    '\n' ∉ (s.summaryLine total).toList := by
  have hdigits (n : Nat) : '\n' ∉ (toString n).toList := (isCell_toString n).feed
  have hdomain : '\n' ∉ s.vartype.name.toList := by cases s.vartype <;> decide
  simp only [summaryLine, String.toList_append, List.mem_append, not_or, hdigits, hdomain]
  decide

/-- A line break in a label would be one of the table. Without it, the lines are those that make up
the table. -/
theorem WellFormed.lines_table (h : s.WellFormed)
    (hlabels : ∀ v ∈ s.labels, '\n' ∉ (VariableLabel.plain v).toList) (total : Nat) :
    Text.lines (s.table total) = s.headingLine ::
      (s.orderedRecords.map (fun p => s.rowLine p.1 p.2) ++ [s.summaryLine total]) := by
  rw [table, tableLines_eq, Text.lines_intercalate (by simp)]
  intro line hline
  rcases List.mem_cons.mp hline with rfl | hline
  · exact feed_not_mem_headingLine hlabels
  rcases List.mem_append.mp hline with hline | hline
  · obtain ⟨p, hp, rfl⟩ := List.mem_map.mp hline
    exact h.feed_not_mem_rowLine hp
  · exact List.mem_singleton.mp hline ▸ s.feed_not_mem_summaryLine total

omit [VariableLabel V] in
/-- Every record has a row. -/
theorem WellFormed.exists_orderedRecord (h : s.WellFormed) {n : Nat} (hn : n ∈ s.occurrences) :
    ∃ p ∈ s.orderedRecords, p.2.occurrences = n := by
  rw [← h.unzip_records.2.2] at hn
  obtain ⟨r, hr, rfl⟩ := List.mem_map.mp hn
  obtain ⟨i, hi⟩ := List.mem_iff_getElem?.mp hr
  have hlt : i < s.size := h.length_records ▸ (List.getElem?_eq_some_iff.mp hi).1
  have hmem : i ∈ s.orderedRecords.map (·.1) := by
    rw [h.orderedRecords, s.sortedIndices_perm.mem_iff]
    exact List.mem_range.mpr hlt
  obtain ⟨p, hp, rfl⟩ := List.mem_map.mp hmem
  exact ⟨p, hp, congrArg _ (Option.some.inj ((record_of_mem_orderedRecords hp).symm.trans hi))⟩

/-- A table has a heading, the rows in ascending order of energy and a summary. A row is as long as
the heading, except where its count has more digits than the heading of the counts has characters:
the columns of positions and energies are widened to what stands in them, that of counts is not. The
summary gives the sum of the counts as a word, and where they add up to more, it gives what is left
of the sum or there is no table. -/
theorem lines_of_table (s : SampleSet V Float) (h : s.WellFormed)
    (hlabels : ∀ v ∈ s.labels, '\n' ∉ (VariableLabel.plain v).toList) (o : Word.Overflow) :
    (s.display o = none ↔ o = .stops ∧ Word.bound ≤ s.occurrences.sum) ∧
    ∀ text, s.display o = some text →
      ∃ total rows, o.word? s.occurrences.sum = some total ∧
        Text.lines text = s.headingLine :: (rows ++ [s.summaryLine total]) ∧
        (Text.lines text).length = s.size + 2 ∧
        s.sortedIndices.Perm (List.range s.size) ∧
        List.Forall₂ (fun i line => ∃ r, s.records[i]? = some r ∧
          Text.words line = toString i ::
            (r.sample.map (valueText s.vartype) ++ [Text.real r.energy, toString r.occurrences]) ∧
          line.length = s.headingLine.length +
            ((toString r.occurrences).length - occurrencesHeading.length)) s.sortedIndices rows ∧
        ((∀ line ∈ rows, line.length = s.headingLine.length) ↔
          ∀ n ∈ s.occurrences, n < 10 ^ 7) := by
  have hsize : s.orderedRecords.length = s.size := by
    rw [← List.length_map (·.1), h.orderedRecords, s.sortedIndices_perm.length_eq,
      List.length_range]
  have hlength : ∀ p ∈ s.orderedRecords, (s.rowLine p.1 p.2).length = s.headingLine.length +
      ((toString p.2.occurrences).length - occurrencesHeading.length) := by
    intro p hp
    rw [h.length_rowLine hp, length_headingLine]
    omega
  constructor
  · rw [display, Option.map_eq_none_iff, Word.Overflow.sum?_eq, Word.Overflow.word?_eq_none]
  intro text htext
  obtain ⟨total, htotal, rfl⟩ := Option.map_eq_some_iff.mp htext
  rw [Word.Overflow.sum?_eq] at htotal
  refine ⟨total, s.orderedRecords.map (fun p => s.rowLine p.1 p.2), htotal, ?_, ?_,
    s.sortedIndices_perm, ?_, ?_⟩
  · exact h.lines_table hlabels total
  · rw [h.lines_table hlabels]
    simp [hsize]
  · rw [← h.orderedRecords, List.forall₂_map_left_iff, List.forall₂_map_right_iff,
      List.forall₂_same]
    exact fun p hp => ⟨p.2, record_of_mem_orderedRecords hp, h.words_rowLine hp, hlength p hp⟩
  · have hfits : ∀ p ∈ s.orderedRecords,
        (s.rowLine p.1 p.2).length = s.headingLine.length ↔ p.2.occurrences < 10 ^ 7 := by
      intro p hp
      rw [hlength p hp, ← length_toString_le_iff]
      omega
    constructor
    · intro hrows n hn
      obtain ⟨p, hp, rfl⟩ := h.exists_orderedRecord hn
      exact (hfits p hp).mp (hrows _ (List.mem_map.mpr ⟨p, hp, rfl⟩))
    · intro hcounts line hline
      obtain ⟨p, hp, rfl⟩ := List.mem_map.mp hline
      have hcount := (getElem?_records.mp (record_of_mem_orderedRecords hp)).2.2
      exact (hfits p hp).mpr (hcounts _ (List.mem_of_getElem? hcount))

end

/-- A label of more bytes than characters, and a count that just fits below its heading. -/
theorem lines_of_two_rows :
    let s : SampleSet Label Float :=
      ⟨[.name "größe", .number 10], ⟨2, [[1, -1], [1, 1]], by decide⟩, [0.5, -1234.5],
        [3, 9999999], .spin⟩
    s.WellFormed ∧ (∀ v ∈ s.labels, '\n' ∉ (VariableLabel.plain v).toList) ∧
      ∃ text rows, s.display .stops = some text ∧ (Text.lines text).length = 4 ∧
        Text.lines text = s.headingLine :: (rows ++ [s.summaryLine 10000002]) ∧
        ∀ line ∈ rows, line.length = s.headingLine.length := by
  intro s
  have h : s.WellFormed := ⟨rfl, rfl, rfl, by decide⟩
  have hlabels : ∀ v ∈ s.labels, '\n' ∉ (VariableLabel.plain v).toList := by decide
  obtain ⟨_, hdisplay⟩ := lines_of_table s h hlabels .stops
  obtain ⟨total, rows, htotal, hlines, hlength, _, _, haligned⟩ :=
    hdisplay (s.table 10000002) rfl
  obtain rfl : 10000002 = total := Option.some.inj htotal
  exact ⟨h, hlabels, _, rows, rfl, hlength, hlines, haligned.mpr (by decide)⟩

/-- Counts that add up to one more than a word holds. -/
example :
    let s : SampleSet Label Float :=
      ⟨[.name "a"], ⟨1, [[1], [-1]], by decide⟩, [0.5, -0.5], [1, 18446744073709551615], .spin⟩
    s.display .stops = none ∧ s.display .wraps = some (s.table 0) :=
  ⟨rfl, rfl⟩

/-- A count of eight digits is moved out of its column. -/
theorem table_out_of_line :
    let s : SampleSet Label Float :=
      ⟨[.name "a", .name "b"], ⟨2, [[1, -1], [1, 1]], by decide⟩, [0.5, -0.5], [3, 12345678],
        .spin⟩
    s.WellFormed ∧ (∀ v ∈ s.labels, '\n' ∉ (VariableLabel.plain v).toList) ∧
      ∀ o, ∃ text, s.display o = some text ∧
        Text.lines text =
          ["   a  b energy num_oc.",
           "1 +1 +1   -0.5 12345678",
           "0 +1 -1    0.5       3",
           "['SPIN', 2 rows, 12345681 samples, 2 variables]"] ∧
        ¬ ∀ line ∈ (Text.lines text).take (s.size + 1), line.length = s.headingLine.length := by
  intro s
  have h : s.WellFormed := ⟨rfl, rfl, rfl, by decide⟩
  have hlabels : ∀ v ∈ s.labels, '\n' ∉ (VariableLabel.plain v).toList := by decide
  have hsorted : s.sortedIndices = [1, 0] :=
    (h.eq_sortedIndices_iff.mpr ⟨by decide, by decide +kernel⟩).symm
  have hrecords : s.orderedRecords =
      [(1, ⟨[1, 1], -0.5, 12345678⟩), (0, ⟨[1, -1], 0.5, 3⟩)] := by
    rw [orderedRecords, hsorted]
    rfl
  have hwidths : s.indexWidth = 1 ∧ s.energyWidth = 6 := by
    rw [indexWidth, energyWidth, hrecords]
    decide +kernel
  have hlines : Text.lines (s.table 12345681) =
      ["   a  b energy num_oc.",
       "1 +1 +1   -0.5 12345678",
       "0 +1 -1    0.5       3",
       "['SPIN', 2 rows, 12345681 samples, 2 variables]"] := by
    rw [h.lines_table hlabels, hrecords]
    simp only [headingLine, rowLine, hwidths]
    decide +kernel
  refine ⟨h, hlabels, fun o => ⟨s.table 12345681, ?_, hlines, ?_⟩⟩
  · cases o <;> rfl
  rw [hlines]
  simp only [headingLine, hwidths]
  decide +kernel

end BinaryQuadratic.SampleSet
