import BinaryQuadratic.Proofs.Enumeration

namespace BinaryQuadratic
namespace Word

/-- The same number in 32 bits, if they are enough. -/
def narrow? (n : UInt64) : Option UInt32 :=
  if n.toNat < UInt32.size then some n.toUInt32 else none

/-- A shift by less than the width. Only the distance is checked: bits that leave the word are
lost. -/
def shiftLeft? (a : UInt64) (k : UInt32) : Option UInt64 :=
  if k.toNat < 64 then some (a <<< k.toUInt64) else none

def mul? (a b : UInt64) : Option UInt64 :=
  if a.toNat * b.toNat < bound then some (a * b) else none

/-- The same number with a sign, if a bit is left for it. -/
def signed? (n : UInt64) : Option Int64 :=
  if n.toNat < signedBound then some n.toInt64 else none

/-- A checked operation gives a word exactly where the true result is one, if every result that is
a word passes the check and the operation does not wrap behind it. -/
theorem checked_eq_some {W N : Type} {view : W → N} (hview : Function.Injective view)
    {check : Prop} [Decidable check] {raw r : W} {result : N} (hfits : view r = result → check)
    (hraw : check → view raw = result) :
    (if check then some raw else none) = some r ↔ view r = result := by
  constructor
  · intro h
    split at h
    · cases h
      exact hraw ‹_›
    · cases h
  · intro h
    rw [if_pos (hfits h), Option.some_inj]
    exact hview ((hraw (hfits h)).trans h.symm)

theorem narrow?_eq_some {n : UInt64} {k : UInt32} : narrow? n = some k ↔ k.toNat = n.toNat :=
  checked_eq_some (fun _ _ => UInt32.toNat_inj.mp) (fun h => h ▸ k.toNat_lt) fun h => by
    rw [UInt64.toNat_toUInt32, Nat.mod_eq_of_lt h]

/-- A single bit is not lost by a shift that passes the check. -/
theorem shiftLeft?_one_eq_some {k : UInt32} {r : UInt64} :
    shiftLeft? 1 k = some r ↔ r.toNat = 2 ^ k.toNat := by
  refine checked_eq_some (fun _ _ => UInt64.toNat_inj.mp) (fun h => ?_) (fun h => ?_)
  · have hlt : 2 ^ k.toNat < 2 ^ 64 := h ▸ r.toNat_lt
    exact (Nat.pow_lt_pow_iff_right Nat.one_lt_two).mp hlt
  · have hlt : 2 ^ k.toNat < 2 ^ 64 := Nat.pow_lt_pow_right Nat.one_lt_two h
    rw [UInt64.toNat_shiftLeft, UInt32.toNat_toUInt64, Nat.mod_eq_of_lt h, UInt64.toNat_one,
      Nat.one_shiftLeft, Nat.mod_eq_of_lt hlt]

theorem mul?_eq_some {a b c : UInt64} : mul? a b = some c ↔ c.toNat = a.toNat * b.toNat :=
  checked_eq_some (fun _ _ => UInt64.toNat_inj.mp) (fun h => h ▸ c.toNat_lt) fun h => by
    rw [UInt64.toNat_mul, Nat.mod_eq_of_lt h]

/-- What is a word with a sign and not below zero leaves a bit for the sign. -/
theorem lt_of_toInt_eq {n : UInt64} {i : Int64} (h : i.toInt = n.toNat) :
    n.toNat < signedBound := by
  have hlt : i.toInt < 2 ^ 63 := i.toInt_lt
  exact Int.ofNat_lt.mp (h ▸ hlt)

theorem signed?_eq_some {n : UInt64} {i : Int64} : signed? n = some i ↔ i.toInt = n.toNat :=
  checked_eq_some (fun _ _ => Int64.toInt_inj.mp) lt_of_toInt_eq fun h =>
    BitVec.toInt_eq_toNat_of_lt (Nat.mul_lt_mul_of_pos_left h Nat.two_pos)

end Word

/-- How many rows and values the assignments of `n` variables have, in words that each step
checks. -/
def sizes? (n : UInt64) : Option (UInt64 × UInt64) := do
  let k ← Word.narrow? n
  let rows ← Word.shiftLeft? 1 k
  let size ← Word.mul? rows n
  let _ ← Word.signed? size
  return (rows, size)

/-- A buffer cut into rows. Beside the number of its values the extents are checked: their product,
a zero counted as one, has to fit a signed word. -/
def Matrix.reshapeWords? (nrows ncols : UInt64) (values : List Int) : Option Matrix :=
  if max 1 nrows.toNat * max 1 ncols.toNat < Word.signedBound then
    reshape? nrows.toNat ncols.toNat values
  else none

/-- The enumeration in words, of values that `allocates` has to find room for. -/
def enumerateWords (allocates : UInt64 → Bool) (t : Vartype) (n : UInt64) :
    Except EnumerationError Matrix :=
  match sizes? n with
  | none => .error (.tooManyVariables n.toNat)
  | some (rows, size) =>
    if allocates size then
      match Matrix.reshapeWords? rows n (assignments t n.toNat).flatten with
      | some a => .ok a
      | none => .error .shape
    else .error (.tooManyVariables n.toNat)

/-- There is room for the buffer that is asked for, if one is. -/
def Granted (allocates : UInt64 → Bool) (n : UInt64) : Prop :=
  ∀ rows size, sizes? n = some (rows, size) → allocates size = true

theorem sizes?_eq_some {n rows size : UInt64} : sizes? n = some (rows, size) ↔
    rows.toNat = 2 ^ n.toNat ∧ size.toNat = rows.toNat * n.toNat ∧
      size.toNat < Word.signedBound := by
  simp only [sizes?, Option.bind_eq_bind, Option.bind_eq_some_iff, Option.pure_def,
    Option.some_inj, Prod.mk.injEq, Word.narrow?_eq_some, Word.shiftLeft?_one_eq_some,
    Word.mul?_eq_some, Word.signed?_eq_some]
  constructor
  · intro h
    obtain ⟨k, hk, _, hrows, _, hsize, i, hi, rfl, rfl⟩ := h
    exact ⟨hk ▸ hrows, hsize, Word.lt_of_toInt_eq hi⟩
  · intro h
    obtain ⟨hrows, hsize, hlt⟩ := h
    -- Only few variables have so few rows, so that the conversion and the shift are no obstacle.
    have hn : n.toNat < 64 := by
      have hword : 2 ^ n.toNat < 2 ^ 64 := hrows ▸ rows.toNat_lt
      exact (Nat.pow_lt_pow_iff_right Nat.one_lt_two).mp hword
    have hk : (UInt32.ofNat n.toNat).toNat = n.toNat :=
      UInt32.toNat_ofNat_of_lt' (hn.trans (by decide))
    have hi : (Int64.ofInt size.toNat).toInt = size.toNat :=
      Int64.toInt_ofInt_of_le (by omega) (Int.ofNat_lt.mpr hlt)
    exact ⟨_, hk, rows, hrows.trans (by rw [hk]), size, hsize, _, hi, rfl, rfl⟩

/-- Where the values can be counted, the rows can: without variables there is one row, and
otherwise at least a value in each. -/
theorem two_pow_lt_of_size {n : Nat} (h : 2 ^ n * n < Word.signedBound) :
    2 ^ n < Word.signedBound := by
  cases n with
  | zero => decide
  | succ n => exact (Nat.le_mul_of_pos_right _ n.succ_pos).trans_lt h

/-- The true number of values alone decides whether there are sizes. -/
theorem exists_sizes {n : UInt64} :
    (∃ rows size, sizes? n = some (rows, size)) ↔ 2 ^ n.toNat * n.toNat < Word.signedBound := by
  simp only [sizes?_eq_some]
  constructor
  · intro h
    obtain ⟨rows, size, hrows, hsize, hlt⟩ := h
    rwa [hsize, hrows] at hlt
  · intro h
    have hrows : (UInt64.ofNat (2 ^ n.toNat)).toNat = 2 ^ n.toNat :=
      UInt64.toNat_ofNat_of_lt' ((two_pow_lt_of_size h).trans Word.signedBound_lt_bound)
    have hsize : (UInt64.ofNat (2 ^ n.toNat * n.toNat)).toNat = 2 ^ n.toNat * n.toNat :=
      UInt64.toNat_ofNat_of_lt' (h.trans Word.signedBound_lt_bound)
    exact ⟨_, _, hrows, hsize.trans (by rw [hrows]), by rwa [hsize]⟩

theorem sizes?_eq_none {n : UInt64} :
    sizes? n = none ↔ Word.signedBound ≤ 2 ^ n.toNat * n.toNat := by
  rw [← Nat.not_lt, ← exists_sizes, Option.eq_none_iff_forall_ne_some]
  simp only [ne_eq, Prod.forall, not_exists]

theorem bufferSize?_eq_some {n size : Nat} :
    bufferSize? n = some size ↔ size = 2 ^ n * n ∧ size < Word.signedBound := by
  unfold bufferSize? assignmentCount?
  by_cases hn : n < 64
  · simp only [if_pos hn, Nat.one_shiftLeft, Option.bind_eq_bind, Option.bind_some,
      Option.ite_none_right_eq_some, Option.some_inj]
    constructor
    · intro h
      obtain ⟨hfits, rfl⟩ := h
      exact ⟨rfl, Nat.lt_of_le_sub_one (Nat.two_pow_pos 63) hfits.2⟩
    · intro h
      obtain ⟨rfl, hlt⟩ := h
      exact ⟨⟨hlt.trans Word.signedBound_lt_bound, Nat.le_sub_one_of_lt hlt⟩, rfl⟩
  · simp only [if_neg hn, Option.bind_eq_bind, Option.bind_none, reduceCtorEq, false_iff]
    intro h
    obtain ⟨rfl, hlt⟩ := h
    have hrows : 2 ^ n < 2 ^ 63 := two_pow_lt_of_size hlt
    have hsmall : n < 63 := (Nat.pow_lt_pow_iff_right Nat.one_lt_two).mp hrows
    exact hn (hsmall.trans (Nat.lt_succ_self 63))

/-- The sizes that are computed without words are the same. -/
theorem bufferSize?_toNat (n : UInt64) :
    bufferSize? n.toNat = (sizes? n).map (fun sizes => sizes.2.toNat) := by
  cases hsizes : sizes? n with
  | none =>
    have hlarge := sizes?_eq_none.mp hsizes
    refine Option.eq_none_iff_forall_ne_some.mpr (fun size hsize => ?_)
    obtain ⟨rfl, hlt⟩ := bufferSize?_eq_some.mp hsize
    exact hlt.not_ge hlarge
  | some sizes =>
    obtain ⟨hrows, hsize, hlt⟩ := sizes?_eq_some.mp hsizes
    exact bufferSize?_eq_some.mpr ⟨hsize.trans (by rw [hrows]), hlt⟩

theorem length_flatten_assignments (t : Vartype) (n : Nat) :
    (assignments t n).flatten.length = 2 ^ n * n := by
  have hlength := (assignmentMatrix t n).length_values
  rwa [Matrix.nrows, assignmentMatrix, length_assignments] at hlength

/-- The buffer has the extents that it is cut to. -/
theorem reshapeWords?_assignments (t : Vartype) {n rows size : UInt64}
    (h : sizes? n = some (rows, size)) :
    Matrix.reshapeWords? rows n (assignments t n.toNat).flatten =
      some (assignmentMatrix t n.toNat) := by
  obtain ⟨hrows, hsize, hlt⟩ := sizes?_eq_some.mp h
  have hpos : 0 < rows.toNat := hrows ▸ Nat.two_pow_pos _
  have hextents : max 1 rows.toNat * max 1 n.toNat < Word.signedBound := by
    cases Nat.eq_zero_or_pos n.toNat with
    | inl hzero =>
      rw [hrows, hzero]
      decide
    | inr hn => rwa [max_eq_right hpos, max_eq_right hn, ← hsize]
  have hnrows : (assignmentMatrix t n.toNat).nrows = rows.toNat :=
    (length_assignments t n.toNat).trans hrows.symm
  rw [Matrix.reshapeWords?, if_pos hextents, ← hnrows]
  exact (assignmentMatrix t n.toNat).reshape?_values

/-- Where room is granted, the words do not show in the enumeration. -/
theorem enumerateWords_eq {allocates : UInt64 → Bool} {n : UInt64} (h : Granted allocates n)
    (t : Vartype) : enumerateWords allocates t n = enumerate t n.toNat := by
  rw [enumerate_eq, bufferSize?_toNat, enumerateWords]
  cases hsizes : sizes? n with
  | none => rfl
  | some sizes =>
    simp only [h _ _ hsizes, ↓reduceIte, reshapeWords?_assignments t hsizes, Option.map_some]

/-- No step of the size arithmetic wraps: it gives a word exactly where the true result is one. -/
structure Unwrapped (n : UInt64) : Prop where
  conversion : ∀ k, Word.narrow? n = some k ↔ k.toNat = n.toNat
  shift : ∀ k, Word.narrow? n = some k →
    ∀ rows, Word.shiftLeft? 1 k = some rows ↔ rows.toNat = 2 ^ n.toNat
  product : ∀ rows size, Word.mul? rows n = some size ↔ size.toNat = rows.toNat * n.toNat
  sign : ∀ size i, Word.signed? size = some i ↔ i.toInt = size.toNat

theorem unwrapped (n : UInt64) : Unwrapped n where
  conversion := fun _ => Word.narrow?_eq_some
  shift := fun _ hk _ => Word.narrow?_eq_some.mp hk ▸ Word.shiftLeft?_one_eq_some
  product := fun _ _ => Word.mul?_eq_some
  sign := fun _ _ => Word.signed?_eq_some

/-- A buffer with its sizes, and the matrix that is cut out of it. -/
structure Filled (t : Vartype) (n rows size : UInt64) (a : Matrix) : Prop where
  rows_eq : rows.toNat = 2 ^ n.toNat
  size_eq : size.toNat = n.toNat * 2 ^ n.toNat
  length_eq : (assignments t n.toNat).flatten.length = rows.toNat * n.toNat
  values_eq : a.values = (assignments t n.toNat).flatten
  nrows_eq : a.nrows = rows.toNat
  ncols_eq : a.ncols = n.toNat

theorem filled_of_sizes (t : Vartype) {n rows size : UInt64} (h : sizes? n = some (rows, size)) :
    Filled t n rows size (assignmentMatrix t n.toNat) := by
  obtain ⟨hrows, hsize, _⟩ := sizes?_eq_some.mp h
  exact {
    rows_eq := hrows
    size_eq := by rw [hsize, hrows, Nat.mul_comm]
    length_eq := by rw [length_flatten_assignments, hrows]
    values_eq := rfl
    nrows_eq := (length_assignments t n.toNat).trans hrows.symm
    ncols_eq := rfl }

/-- What an enumeration of `n` variables comes to: it fails for the size alone, and else every value
has its place. -/
structure Sized (allocates : UInt64 → Bool) (t : Vartype) (n : UInt64) : Prop where
  unwrapped : Unwrapped n
  tooMany : enumerateWords allocates t n = .error (.tooManyVariables n.toNat) ↔
    2 ^ 63 - 1 < n.toNat * 2 ^ n.toNat
  filled : n.toNat * 2 ^ n.toNat ≤ 2 ^ 63 - 1 → ∃ rows size a,
    sizes? n = some (rows, size) ∧ Filled t n rows size a ∧ enumerateWords allocates t n = .ok a
  shaped : enumerateWords allocates t n ≠ .error .shape
  empty : n = 0 → enumerateWords allocates t n = .ok ⟨0, [[]], by simp⟩
  same : enumerateWords allocates t n = enumerate t n.toNat

/-- With room for its buffer, an enumeration fails exactly where the values are more than a signed
word counts. -/
theorem sized_of_granted (allocates : UInt64 → Bool) (t : Vartype) (n : UInt64)
    (h : Granted allocates n) : Sized allocates t n := by
  have hsame := enumerateWords_eq h t
  have henum := enumerate_eq t n.toNat
  rw [bufferSize?_toNat, ← hsame] at henum
  have hempty : n = 0 → enumerateWords allocates t n = .ok ⟨0, [[]], by simp⟩ := by
    intro hn
    subst hn
    exact hsame.trans rfl
  cases hsizes : sizes? n with
  | none =>
    rw [hsizes] at henum
    have hlarge := sizes?_eq_none.mp hsizes
    rw [Nat.mul_comm] at hlarge
    exact {
      unwrapped := unwrapped n
      tooMany := iff_of_true henum (Nat.sub_one_lt_of_le (Nat.two_pow_pos 63) hlarge)
      filled := fun hsmall =>
        absurd hlarge (Nat.lt_of_le_sub_one (Nat.two_pow_pos 63) hsmall).not_ge
      shaped := by simp [henum]
      empty := hempty
      same := hsame }
  | some sizes =>
    rw [hsizes] at henum
    have hsmall := exists_sizes.mp ⟨_, _, hsizes⟩
    rw [Nat.mul_comm] at hsmall
    exact {
      unwrapped := unwrapped n
      tooMany := iff_of_false (by simp [henum]) (Nat.not_lt_of_le (Nat.le_sub_one_of_lt hsmall))
      filled := fun _ => ⟨_, _, _, hsizes, filled_of_sizes t hsizes, henum⟩
      shaped := by simp [henum]
      empty := hempty
      same := hsame }

/-- Seven variables fit a kilobyte. The values of fifty-eight fit a word, but none with a sign. -/
theorem sized_of_kilobyte :
    (sizes? 7 = some (128, 896) ∧ Sized (· ≤ 1024) .spin 7) ∧
      sizes? 58 = none ∧ Sized (· ≤ 1024) .spin 58 := by
  have hseven : sizes? 7 = some (128, 896) := by decide
  have hlarge : sizes? 58 = none := by decide
  refine ⟨⟨hseven, sized_of_granted _ _ _ ?_⟩, hlarge, sized_of_granted _ _ _ ?_⟩
  · intro rows size h
    cases hseven.symm.trans h
    decide
  · intro rows size h
    cases hlarge.symm.trans h

end BinaryQuadratic
