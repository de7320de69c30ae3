import BinaryQuadratic.Proofs.Double
import BinaryQuadratic.Proofs.SampleSet.Sorted

namespace BinaryQuadratic

/-- The positions of the elements that pass a test pick these elements. -/
theorem pick_filter_zipIdx (f : α → β) (p : β → Bool) (xs : List α) :
    pick (((xs.map f).zipIdx.filter (fun q => p q.1)).map (·.2)) xs =
      xs.filter (fun x => p (f x)) := by
  have hplace : ∀ q ∈ xs.zipIdx.filter (fun q => p (f q.1)), xs[q.2]? = some q.1 :=
    fun q hq => List.mem_zipIdx_iff_getElem?.mp (List.mem_filter.mp hq).1
  calc pick (((xs.map f).zipIdx.filter (fun q => p q.1)).map (·.2)) xs
      = (xs.zipIdx.filter (fun q => p (f q.1))).filterMap (fun q => xs[q.2]?) := by
        rw [List.zipIdx_map, List.filter_map, List.map_map, pick_eq_filterMap,
          List.filterMap_map]
        rfl
    _ = (xs.zipIdx.filter (fun q => p (f q.1))).map Prod.fst := by
        rw [← List.filterMap_eq_map]
        exact List.filterMap_congr hplace
    _ = (xs.zipIdx.map Prod.fst).filter (fun x => p (f x)) := by
        rw [List.filter_map]
        rfl
    _ = xs.filter (fun x => p (f x)) := by rw [List.zipIdx_map_fst]

namespace SampleSet

variable {V : Type}

/-- The rows that are kept stand in row order and have their energies and counts. -/
theorem WellFormed.records_lowest {R : Type} [Coefficient R] {s : SampleSet V R}
    (h : s.WellFormed) {r : Record R} (hr : s.first? = some r) :
    s.lowest.labels = s.labels ∧ s.lowest.vartype = s.vartype ∧
      s.lowest.records = s.records.filter (fun r' => Coefficient.near r'.energy r.energy) := by
  unfold SampleSet.lowest
  rw [hr]
  refine ⟨rfl, rfl, ?_⟩
  dsimp only
  rw [h.records_select, ← h.unzip_records.2.1]
  exact pick_filter_zipIdx _ (fun e => Coefficient.near e r.energy) _

/-- The energy of `r` is that of `least`, or more by no more than the tolerance. -/
def IsLowest (least r : Record Float) : Prop :=
  (r.energy == least.energy) = true ∨
    least.energy < r.energy ∧ r.energy - least.energy ≤ lowestTolerance

instance (least : Record Float) : DecidablePred (IsLowest least) :=
  fun _ => inferInstanceAs (Decidable (_ ∨ _))

/-- Without NaN, the first record has the least energy as numbers are compared. If that is finite,
the rows kept are those that equal it or exceed it by no more than the tolerance, the first record
among them. If it is infinite, no row is kept: the difference of equal infinities is no number. -/
theorem lowest_of_samples {samples : Matrix} {labels : List V} {t : Vartype}
    {energies : List Float} {s : SampleSet V Float}
    (hs : ofSamples samples labels t energies = .ok s) (hsize : s.size ≠ 0)
    (hnan : ∀ e ∈ energies, e.isNaN = false) :
    ∃ r, s.first? = some r ∧ r.energy ∈ energies ∧ (∀ e ∈ energies, r.energy ≤ e) ∧
      (r.energy.isFinite = true → s.lowest.labels = s.labels ∧ s.lowest.vartype = s.vartype ∧
        s.lowest.WellFormed ∧ s.lowest.records = s.records.filter (IsLowest r) ∧
        r ∈ s.lowest.records ∧ s.lowest.first? = some r) ∧
      (r.energy.isFinite = false → s.lowest.size = 0) := by
  have h := wellFormed_ofSamples hs
  obtain ⟨_, _, _, hparts⟩ := ofSamples_ok.mp hs
  have henergies : s.records.map (·.energy) = energies := by rw [h.unzip_records.2.1, hparts]
  obtain ⟨r, hr, hmem, hleast⟩ := h.first? hsize
  obtain ⟨hlabels, hvartype, hnear⟩ := h.records_lowest hr
  have hnan : ∀ r' ∈ s.records, r'.energy.isNaN = false :=
    fun r' hr' => hnan _ (henergies ▸ List.mem_map_of_mem hr')
  refine ⟨r, hr, henergies ▸ List.mem_map_of_mem hmem, ?_, fun hfinite => ?_, fun hinfinite => ?_⟩
  · intro e he
    rw [← henergies] at he
    obtain ⟨r', hr', rfl⟩ := List.mem_map.mp he
    exact (Double.le_iff (hnan r hmem) (hnan r' hr')).mpr
      (Double.level_le_of_le (hnan r hmem) (hnan r' hr') (hleast r' hr'))
  · have hrecords : s.lowest.records = s.records.filter (IsLowest r) := by
      rw [hnear]
      refine List.filter_congr (fun r' hr' => ?_)
      rw [Bool.eq_iff_iff, Double.near_iff (hnan r' hr') hfinite (hleast r' hr')]
      exact decide_eq_true_iff.symm
    have hself : decide (IsLowest r r) = true :=
      decide_eq_true (.inl (Coefficient.float_beq_self (hnan r hmem)))
    have hfirst : IsFirst s.lowest.records r :=
      hrecords ▸ (first?_eq_some_iff.mp hr).filter hself
    exact ⟨hlabels, hvartype, h.lowest, hrecords, hfirst.mem, first?_eq_some_iff.mpr hfirst⟩
  · have hinf := Double.isInf_of_not_finite (hnan r hmem) hinfinite
    have hnone : s.lowest.records = [] := by
      rw [hnear]
      exact List.filter_eq_nil_iff.mpr (fun r' _ => by simp [Double.near_infinite _ hinf])
    rw [← h.lowest.length_records, hnone]
    rfl

/-- One row is within the tolerance, and one is not. -/
theorem lowest_of_four_samples :
    let s : SampleSet Label Float :=
      ⟨[.name "a"], ⟨1, [[1], [-1], [1], [-1]], by decide⟩, [-1.5, 1.0 / 0.0, -2.0, -1.999999995],
        [1, 1, 1, 1], .spin⟩
    ofSamples s.samples s.labels s.vartype s.energies = .ok s ∧ s.first? = s.records[2]? ∧
      s.lowest.records.map some = [s.records[2]?, s.records[3]?] := by
  intro s
  have hs : ofSamples s.samples s.labels s.vartype s.energies = .ok s := by rfl
  obtain ⟨r, hr, _, _, hfinite, _⟩ := lowest_of_samples hs (by decide) (by decide +kernel)
  have hfirst : s.first? = some ⟨[1], -2.0, 1⟩ := by decide +kernel
  cases hr.symm.trans hfirst
  obtain ⟨_, _, _, hrecords, _⟩ := hfinite (by decide +kernel)
  refine ⟨hs, hfirst, ?_⟩
  rw [hrecords]
  decide +kernel

/-- The row of the least energy is not kept where that energy is infinite. -/
theorem lowest_of_infinite_energy :
    let s : SampleSet Label Float :=
      ⟨[.name "a"], ⟨1, [[1], [-1]], by decide⟩, [-1.0 / 0.0, 0.0], [1, 1], .spin⟩
    ofSamples s.samples s.labels s.vartype s.energies = .ok s ∧
      (∀ e ∈ s.energies, e.isNaN = false) ∧ s.first? = s.records[0]? ∧ s.lowest.records = [] := by
  decide +kernel

end SampleSet
end BinaryQuadratic
