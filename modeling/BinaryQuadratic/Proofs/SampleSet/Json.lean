import BinaryQuadratic.Proofs.Coefficient
import BinaryQuadratic.Proofs.Json.RoundTrip
import BinaryQuadratic.Proofs.SampleSet.WellFormed
import BinaryQuadratic.SampleSet.Json

namespace BinaryQuadratic

namespace ArrayForm

/-- Extents are words. -/
def Measured (a : ArrayForm) : Prop :=
  ∀ n ∈ a.extents, n < Word.bound

/-- An array is read back from its form, if its elements have what is asked of them. -/
theorem ofJson?_toJson {a : ArrayForm} {rank : Nat} {valid : Json → Bool} (ha : a.Measured)
    (hrank : a.extents.length = rank) (hvalid : ∀ x ∈ a.elements, valid x = true) :
    ofJson? rank valid a.toJson = some a := by
  have hextents : extents? (.arr (a.extents.map Json.ofNat)) = some a.extents :=
    mapM_read (fun n hn => Json.size?_ofNat (ha n hn))
  have hall : a.elements.all valid = true := List.all_eq_true.mpr hvalid
  simp [ofJson?, toJson, parts?, lastMember?, isVersion, version, Json.intIn?, Json.arr?,
    hextents, hall, hrank]

theorem readable {a : ArrayForm} (ha : a.Measured) (h : ∀ x ∈ a.elements, x.Readable) :
    a.toJson.Readable := by
  refine .obj (List.forall_mem_cons.mpr ⟨?_, List.forall_mem_cons.mpr ⟨?_,
    List.forall_mem_cons.mpr ⟨.arr h, by simp⟩⟩⟩)
  · exact .int (by decide) (by decide)
  · exact .arr (List.forall_mem_map.mpr (fun n hn => Json.readable_ofNat (ha n hn)))

theorem nesting_toJson {a : ArrayForm} (h : ∀ x ∈ a.elements, x.nesting = 0) :
    a.toJson.nesting ≤ 2 := by
  refine Json.nesting_obj_le (List.forall_mem_cons.mpr ⟨Nat.zero_le _, List.forall_mem_cons.mpr
    ⟨?_, List.forall_mem_cons.mpr ⟨Json.nesting_arr_le (fun x hx => (h x hx).le), by simp⟩⟩⟩)
  exact Json.nesting_arr_le (List.forall_mem_map.mpr (fun _ _ => le_rfl))

/-- A list has its length for an extent. -/
theorem measured_list {n : Nat} (h : n < Word.signedBound) (elements : List Json) :
    Measured ⟨[n], elements⟩ := by
  have hlength : n < Word.bound := h.trans Word.signedBound_lt_bound
  simpa [Measured] using hlength

theorem listOfJson?_toJson {read : Json → Option α} {write : α → Json} {xs : List α}
    (h : ∀ x ∈ xs, read (write x) = some x) (hsize : xs.length < Word.signedBound) :
    listOfJson? read (toJson ⟨[xs.length], xs.map write⟩) = some xs := by
  have hvalid : ∀ j ∈ xs.map write, (read j).isSome = true :=
    List.forall_mem_map.mpr (fun x hx => by simp [h x hx])
  have hread : ofJson? 1 (fun j => (read j).isSome) (toJson ⟨[xs.length], xs.map write⟩) =
      some ⟨[xs.length], xs.map write⟩ :=
    ofJson?_toJson (measured_list hsize _) rfl hvalid
  have hsized : sized ⟨[xs.length], xs.map write⟩ = true := by
    by_cases hn : xs = []
    · simp [sized, hn]
    · simpa [sized, hn] using hsize
  rw [listOfJson?, hread]
  simp only [bind, Option.bind_some, hsized, ↓reduceIte]
  exact mapM_read h

end ArrayForm

namespace Matrix

/-- An array can have these extents: their product, a zero counted as one, fits a signed word. -/
def Storable (a : Matrix) : Prop :=
  max 1 a.nrows * max 1 a.ncols < Word.signedBound

instance (a : Matrix) : Decidable a.Storable :=
  inferInstanceAs (Decidable (_ < _))

theorem Storable.nrows_lt {a : Matrix} (h : a.Storable) : a.nrows < Word.signedBound :=
  calc a.nrows ≤ max 1 a.nrows := Nat.le_max_right _ _
    _ ≤ max 1 a.nrows * max 1 a.ncols := Nat.le_mul_of_pos_right _ (by omega)
    _ < Word.signedBound := h

theorem Storable.ncols_lt {a : Matrix} (h : a.Storable) : a.ncols < Word.signedBound :=
  calc a.ncols ≤ max 1 a.ncols := Nat.le_max_right _ _
    _ ≤ max 1 a.nrows * max 1 a.ncols := Nat.le_mul_of_pos_left _ (by omega)
    _ < Word.signedBound := h

theorem Storable.measured {a : Matrix} (h : a.Storable) (elements : List Json) :
    ArrayForm.Measured ⟨[a.nrows, a.ncols], elements⟩ := by
  have hrows : a.nrows < Word.bound := h.nrows_lt.trans Word.signedBound_lt_bound
  have hcols : a.ncols < Word.bound := h.ncols_lt.trans Word.signedBound_lt_bound
  simpa [ArrayForm.Measured] using ⟨hrows, hcols⟩

theorem Storable.sized {a : Matrix} (h : a.Storable) :
    ArrayForm.sized ⟨[a.nrows, a.ncols], a.values.map Json.int⟩ = true := by
  have hsize : (([a.nrows, a.ncols].filter (· != 0)).foldl (· * ·) 1) =
      max 1 a.nrows * max 1 a.ncols := by
    by_cases hr : a.nrows = 0 <;> by_cases hc : a.ncols = 0
    · simp [hr, hc]
    · simp [hr, hc, Nat.max_eq_right (Nat.pos_of_ne_zero hc)]
    · simp [hr, hc, Nat.max_eq_right (Nat.pos_of_ne_zero hr)]
    · simp [hr, hc, Nat.max_eq_right (Nat.pos_of_ne_zero hr),
        Nat.max_eq_right (Nat.pos_of_ne_zero hc)]
  have hfits : max 1 a.nrows * max 1 a.ncols < Word.signedBound := h
  rw [ArrayForm.sized, hsize, List.length_map, length_values]
  simp [hfits]

/-- A matrix is read back from its extents and values, whatever its shape. -/
theorem Storable.ofJson?_toJson {a : Matrix} (h : a.Storable)
    (hvalues : ∀ x ∈ a.values, -128 ≤ x ∧ x ≤ 127) : ofJson? a.toJson = some a := by
  have heach : ∀ x ∈ a.values, valueOfJson? (.int x) = some x := fun x hx =>
    if_pos (hvalues x hx)
  have hvalid : ∀ j ∈ a.values.map Json.int, (valueOfJson? j).isSome = true :=
    List.forall_mem_map.mpr (fun x hx => by simp [heach x hx])
  have hread : ArrayForm.ofJson? 2 (fun j => (valueOfJson? j).isSome) a.toJson =
      some ⟨[a.nrows, a.ncols], a.values.map Json.int⟩ :=
    ArrayForm.ofJson?_toJson (h.measured _) rfl hvalid
  rw [ofJson?, hread]
  simp only [bind, Option.bind_some, h.sized, ↓reduceIte, mapM_read heach]
  exact a.reshape?_values

theorem Storable.readable {a : Matrix} (h : a.Storable)
    (hvalues : ∀ x ∈ a.values, -128 ≤ x ∧ x ≤ 127) : a.toJson.Readable := by
  refine ArrayForm.readable (h.measured _) (List.forall_mem_map.mpr (fun x hx => ?_))
  obtain ⟨hlow, hhigh⟩ := hvalues x hx
  have hlow' : -(Word.signedBound : Int) ≤ -128 := by decide
  have hhigh' : (127 : Int) < Word.bound := by decide
  exact .int (hlow'.trans hlow) (hhigh.trans_lt hhigh')

end Matrix

namespace SampleSet

theorem WellFormed.values_small {V R : Type} {s : SampleSet V R} (h : s.WellFormed) :
    ∀ x ∈ s.samples.values, -128 ≤ x ∧ x ≤ 127 := by
  intro x hx
  obtain ⟨row, hr, hx⟩ := List.mem_flatten.mp hx
  have hdomain := (s.vartype.contains_iff x).mp (h.domain row hr x hx)
  cases hv : s.vartype <;> simp only [hv, Vartype.low, Vartype.high] at hdomain <;> omega

/-- What JSON and memory can hold: names for the labels, finite energies, extents and counts of 64
bits. -/
structure Writable (s : SampleSet Label Float) : Prop where
  names : ∀ v ∈ s.labels, ∃ name, v = .name name
  energies : ∀ x ∈ s.energies, x.isFinite = true
  storable : s.samples.Storable
  counts : ∀ n ∈ s.occurrences, n < Word.bound

variable {s : SampleSet Label Float}

theorem Writable.ofJson?_toJson (h : s.Writable) (hs : s.WellFormed) :
    ofJson? s.toJson = some s := by
  have hparts : ∀ labels samples energies occurrences vartype : Json,
      (Json.obj (fieldNames.zip [labels, samples, energies, occurrences, vartype])).parts?
        fieldNames = some [labels, samples, energies, occurrences, vartype] :=
    fun _ _ _ _ _ => Json.parts?_zip (by decide) rfl
  have hlabels : (s.labels.map Label.toJson).mapM Label.ofJson? = some s.labels := by
    refine mapM_read (fun v hv => ?_)
    obtain ⟨name, rfl⟩ := h.names v hv
    rfl
  have hsamples : Matrix.ofJson? s.samples.toJson = some s.samples :=
    h.storable.ofJson?_toJson hs.values_small
  have henergies : ArrayForm.listOfJson? Json.float?
      (ArrayForm.toJson ⟨[s.energies.length], s.energies.map Json.ofFloat⟩) = some s.energies :=
    ArrayForm.listOfJson?_toJson (fun x hx => Json.float?_ofFloat (h.energies x hx))
      (hs.energies ▸ h.storable.nrows_lt)
  have hoccurrences : ArrayForm.listOfJson? Json.size?
      (ArrayForm.toJson ⟨[s.occurrences.length], s.occurrences.map Json.ofNat⟩) =
        some s.occurrences :=
    ArrayForm.listOfJson?_toJson (fun n hn => Json.size?_ofNat (h.counts n hn))
      (hs.occurrences ▸ h.storable.nrows_lt)
  rw [ofJson?, toJson]
  simp [hparts, Json.arr?, hlabels, hsamples, henergies, hoccurrences]

/-- Every part of what is written has a text of its own. -/
theorem Writable.readable (h : s.Writable) (hs : s.WellFormed) : s.toJson.Readable := by
  have hrows := h.storable.nrows_lt
  refine .obj (fun p hp => ?_)
  have hpart := (List.of_mem_zip hp).2
  simp only [List.mem_cons, List.not_mem_nil, or_false, List.length_map] at hpart
  rcases hpart with hlabels | hsamples | henergies | hoccurrences | hvartype
  · rw [hlabels]
    refine .arr (List.forall_mem_map.mpr (fun v hv => ?_))
    obtain ⟨name, rfl⟩ := h.names v hv
    exact .str name
  · rw [hsamples]
    exact h.storable.readable hs.values_small
  · rw [henergies]
    exact ArrayForm.readable (ArrayForm.measured_list (hs.energies ▸ hrows) _)
      (List.forall_mem_map.mpr (fun x hx => Json.readable_ofFloat (h.energies x hx)))
  · rw [hoccurrences]
    exact ArrayForm.readable (ArrayForm.measured_list (hs.occurrences ▸ hrows) _)
      (List.forall_mem_map.mpr (fun n hn => Json.readable_ofNat (h.counts n hn)))
  · rw [hvartype]
    cases s.vartype <;> exact .str _

theorem nesting_toJson (s : SampleSet Label Float) : s.toJson.nesting ≤ Json.nestingLimit := by
  have hdepth : s.toJson.nesting ≤ 2 + 1 := by
    refine Json.nesting_obj_le (fun p hp => ?_)
    have hpart := (List.of_mem_zip hp).2
    simp only [List.mem_cons, List.not_mem_nil, or_false] at hpart
    rcases hpart with hlabels | hsamples | henergies | hoccurrences | hvartype
    · rw [hlabels]
      refine (Json.nesting_arr_le (n := 0) (List.forall_mem_map.mpr fun v _ => ?_)).trans (by decide)
      cases v <;> exact le_rfl
    · rw [hsamples]
      exact ArrayForm.nesting_toJson (List.forall_mem_map.mpr (fun _ _ => rfl))
    · rw [henergies]
      exact ArrayForm.nesting_toJson (List.forall_mem_map.mpr (fun x _ => Json.nesting_ofFloat x))
    · rw [hoccurrences]
      exact ArrayForm.nesting_toJson (List.forall_mem_map.mpr (fun _ _ => rfl))
    · rw [hvartype]
      cases s.vartype <;> exact Nat.zero_le _
  exact hdepth.trans (by decide)

theorem beq_self_of_finite {xs : List Float} (h : ∀ x ∈ xs, x.isFinite = true) :
    (xs == xs) = true := by
  induction xs with
  | nil => rfl
  | cons x xs ih =>
    have hx : (x == x) = true := Coefficient.float_beq_self
      (Coefficient.isNaN_of_isFinite (h x (by simp)))
    have hxs : (xs == xs) = true := ih (fun y hy => h y (by simp [hy]))
    rw [List.cons_beq_cons, hx, hxs, Bool.true_and]

theorem Writable.beq_self (h : s.Writable) : s.beq s = true := by
  simp [beq, beq_self_of_finite h.energies]

/-- A set of any shape is read back from its JSON text, also one without rows or without columns,
whose data do not tell the one from the other. -/
theorem json_round_trip_of_any_shape (codec : Json.Codec) (s : SampleSet Label Float)
    (hs : s.WellFormed) (h : s.Writable) :
    (codec.parse? (codec.write s.toJson)).bind ofJson? = some s ∧ s.beq s = true := by
  rw [codec.parse?_write (h.readable hs) s.nesting_toJson]
  exact ⟨h.ofJson?_toJson hs, h.beq_self⟩

theorem json_round_trip_of_rows_without_columns :
    let s : SampleSet Label Float := ⟨[], ⟨0, [[], []], by decide⟩, [0.5, -1.25],
      [1, 18446744073709551615], .spin⟩
    s.WellFormed ∧ s.Writable ∧
      (Json.parse? (Json.write s.toJson)).bind ofJson? = some s := by
  intro s
  have hs : s.WellFormed := ⟨rfl, rfl, rfl, by simp [s]⟩
  have h : s.Writable := ⟨by simp [s], by decide +kernel, by decide, by decide⟩
  obtain ⟨hread, _⟩ := json_round_trip_of_any_shape .standard s hs h
  rw [Json.Codec.standard_parse?, Json.Codec.standard_write] at hread
  exact ⟨hs, h, hread⟩

end SampleSet
end BinaryQuadratic
