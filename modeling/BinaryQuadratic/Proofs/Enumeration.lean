import BinaryQuadratic.Enumeration
import BinaryQuadratic.Proofs.Vartype

namespace BinaryQuadratic

theorem low_lt_high (t : Vartype) : t.low < t.high := by
  cases t <;> decide

theorem length_assignments (t : Vartype) (n : Nat) : (assignments t n).length = 2 ^ n := by
  induction n with
  | zero => rfl
  | succ n ih =>
    simp only [assignments, List.length_append, List.length_map, ih]
    omega

theorem cons_mem_assignments {t : Vartype} {n : Nat} {x : Int} {row : List Int} :
    x :: row ∈ assignments t (n + 1) ↔ t.contains x = true ∧ row ∈ assignments t n := by
  rw [t.contains_iff, assignments]
  simp only [List.mem_append, List.mem_map, List.cons.injEq]
  constructor
  · rintro (⟨r, hr, rfl, rfl⟩ | ⟨r, hr, rfl, rfl⟩)
    · exact ⟨.inl rfl, hr⟩
    · exact ⟨.inr rfl, hr⟩
  · rintro ⟨rfl | rfl, hr⟩
    · exact .inl ⟨row, hr, rfl, rfl⟩
    · exact .inr ⟨row, hr, rfl, rfl⟩

/-- The rows of length `n` over the domain, and no others. -/
theorem mem_assignments {t : Vartype} {n : Nat} {row : List Int} :
    row ∈ assignments t n ↔ row.length = n ∧ ∀ x ∈ row, t.contains x = true := by
  induction n generalizing row with
  | zero =>
    constructor
    · intro h
      simp [List.mem_singleton.mp h]
    · rintro ⟨hn, _⟩
      simp [assignments, List.length_eq_zero_iff.mp hn]
  | succ n ih =>
    cases row with
    | nil => simp [assignments]
    | cons x row =>
      rw [cons_mem_assignments, ih, List.length_cons, List.forall_mem_cons, and_left_comm,
        Nat.add_right_cancel_iff]

/-- Rows stand in lexicographic order: within a half the first value is shared, and the first half
has the smaller one. -/
theorem assignments_ascending (t : Vartype) (n : Nat) : (assignments t n).Pairwise (· < ·) := by
  induction n with
  | zero => simp [assignments]
  | succ n ih =>
    have hhalf : ∀ x : Int, ((assignments t n).map (x :: ·)).Pairwise (· < ·) := by
      intro x
      refine List.pairwise_map.mpr (ih.imp ?_)
      intro a b hab
      exact List.cons_lt_cons_iff.mpr (.inr ⟨rfl, hab⟩)
    refine List.pairwise_append.mpr ⟨hhalf t.low, hhalf t.high, ?_⟩
    intro a ha b hb
    obtain ⟨a, _, rfl⟩ := List.mem_map.mp ha
    obtain ⟨b, _, rfl⟩ := List.mem_map.mp hb
    exact List.cons_lt_cons_iff.mpr (.inl (low_lt_high t))

theorem nodup_assignments (t : Vartype) (n : Nat) : (assignments t n).Nodup := by
  refine (assignments_ascending t n).imp ?_
  intro a b hlt he
  exact List.lt_irrefl b (he ▸ hlt)

/-- Flipping one place of every assignment goes through all assignments in another order. -/
theorem map_modify_assignments (t : Vartype) (n k : Nat) :
    ((assignments t n).map (·.modify k t.flip)).Perm (assignments t n) := by
  have hback : ∀ row : List Int, (row.modify k t.flip).modify k t.flip = row :=
    fun row => modify_involution t.flip_flip row k
  have hmem : ∀ row ∈ assignments t n, row.modify k t.flip ∈ assignments t n := by
    intro row hr
    obtain ⟨hlength, hdomain⟩ := mem_assignments.mp hr
    exact mem_assignments.mpr ⟨(List.length_modify ..).trans hlength,
      Vartype.contains_modify hdomain k⟩
  have hnodup : ((assignments t n).map (·.modify k t.flip)).Nodup :=
    (nodup_assignments t n).map (Function.LeftInverse.injective hback)
  refine (List.perm_ext_iff_of_nodup hnodup (nodup_assignments t n)).mpr (fun row => ?_)
  constructor
  · intro hr
    obtain ⟨x, hx, rfl⟩ := List.mem_map.mp hr
    exact hmem x hx
  · exact fun hr => List.mem_map.mpr ⟨_, hmem row hr, hback row⟩

/-- The domains are enumerated alike, value by value. -/
theorem map_convert_assignments (t target : Vartype) (n : Nat) :
    (assignments t n).map (·.map (t.convert target)) = assignments target n := by
  have hlow : t.convert target t.low = target.low := by cases t <;> cases target <;> rfl
  have hhigh : t.convert target t.high = target.high := by cases t <;> cases target <;> rfl
  induction n with
  | zero => rfl
  | succ n ih =>
    simp only [assignments, List.map_append, List.map_map, ← ih]
    simp [Function.comp_def, hlow, hhigh]

/-- The row whose values are the digits of `r` in base two, the least significant one last. -/
def bitRow (t : Vartype) (n r : Nat) : List Int :=
  (List.range n).map (fun c => if r.testBit (n - 1 - c) then t.high else t.low)

theorem bitRow_low {t : Vartype} {n r : Nat} (h : r < 2 ^ n) :
    bitRow t (n + 1) r = t.low :: bitRow t n r := by
  simp only [bitRow, List.range_succ_eq_map, List.map_cons, List.map_map, List.cons.injEq]
  refine ⟨by simp [Nat.testBit_lt_two_pow h], ?_⟩
  apply List.map_congr_left
  intro c _
  simp [Nat.sub_sub, Nat.add_comm]

theorem bitRow_high {t : Vartype} {n r : Nat} (h : r < 2 ^ n) :
    bitRow t (n + 1) (2 ^ n + r) = t.high :: bitRow t n r := by
  simp only [bitRow, List.range_succ_eq_map, List.map_cons, List.map_map, List.cons.injEq]
  refine ⟨by simp [Nat.testBit_two_pow_add_eq, Nat.testBit_lt_two_pow h], ?_⟩
  apply List.map_congr_left
  intro c hc
  have hlt : n - (c + 1) < n := by
    have := List.mem_range.mp hc
    omega
  simp [Nat.testBit_two_pow_add_gt hlt, Nat.sub_sub, Nat.add_comm 1 c]

/-- Counting through the rows counts in base two. -/
theorem assignments_eq_bitRows (t : Vartype) (n : Nat) :
    assignments t n = (List.range (2 ^ n)).map (bitRow t n) := by
  induction n with
  | zero => rfl
  | succ n ih =>
    rw [Nat.pow_succ, Nat.mul_two, List.range_add, List.map_append, List.map_map, assignments, ih]
    simp only [List.map_map]
    congr 1
    · exact List.map_congr_left (fun r hr => (bitRow_low (List.mem_range.mp hr)).symm)
    · exact List.map_congr_left (fun r hr => (bitRow_high (List.mem_range.mp hr)).symm)

/-- All assignments as a matrix. -/
def assignmentMatrix (t : Vartype) (n : Nat) : Matrix :=
  ⟨n, assignments t n, fun _ hr => (mem_assignments.mp hr).1⟩

/-- Assignments of two domains correspond row by row. -/
theorem map_convert_assignmentMatrix (t target : Vartype) (n : Nat) :
    (assignmentMatrix t n).map (t.convert target) = assignmentMatrix target n :=
  Matrix.ext_rows rfl (map_convert_assignments t target n)

/-- The size alone decides whether there is an enumeration: the buffer has as many values as the
matrix has places, and is cut where it was joined. -/
theorem enumerate_eq (t : Vartype) (n : Nat) : enumerate t n =
    match bufferSize? n with
    | some _ => .ok (assignmentMatrix t n)
    | none => .error (.tooManyVariables n) := by
  unfold enumerate
  cases hrows : assignmentCount? n with
  | none =>
    have hsize : bufferSize? n = none := by
      simp [bufferSize?, hrows]
    rw [hsize]
  | some rows =>
    cases hsize : bufferSize? n with
    | none => rfl
    | some size =>
      have hcount : rows = (assignmentMatrix t n).nrows := by
        rw [assignmentMatrix, Matrix.nrows, length_assignments]
        unfold assignmentCount? at hrows
        split at hrows
        · simpa [Nat.shiftLeft_eq, eq_comm] using hrows
        · cases hrows
      have hback : Matrix.reshape? rows n (assignments t n).flatten =
          some (assignmentMatrix t n) := hcount ▸ (assignmentMatrix t n).reshape?_values
      simp only [hback]

/-- Where there is an enumeration, its rows are the assignments. -/
theorem enumerate_ok {t : Vartype} {n : Nat} {a : Matrix} (h : enumerate t n = .ok a) :
    a.ncols = n ∧ a.rows = assignments t n := by
  rw [enumerate_eq] at h
  split at h
  · cases h
    exact ⟨rfl, rfl⟩
  · cases h

/-- The domains have two values each, so that one can be enumerated if the other can. -/
theorem enumerate_of_enumerate {t : Vartype} {n : Nat} {a : Matrix} (h : enumerate t n = .ok a)
    (target : Vartype) : ∃ b, enumerate target n = .ok b := by
  rw [enumerate_eq] at h ⊢
  split at h
  · exact ⟨_, rfl⟩
  · cases h

end BinaryQuadratic
