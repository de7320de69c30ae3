namespace BinaryQuadratic

/-- The elements at the given positions, in that order. -/
def pick (indices : List Nat) (xs : List α) : List α :=
  let array := xs.toArray
  indices.filterMap (array[·]?)

theorem mem_of_mem_pick {indices : List Nat} {xs : List α} {x : α} (h : x ∈ pick indices xs) :
    x ∈ xs := by
  obtain ⟨i, _, hi⟩ := List.mem_filterMap.mp h
  exact List.mem_of_getElem? (by simpa using hi)

/-- Rows of values, all of one width. The width is known even where there is no row. -/
structure Matrix where
  ncols : Nat
  rows : List (List Int)
  width : ∀ row ∈ rows, row.length = ncols
  deriving DecidableEq

namespace Matrix

def nrows (a : Matrix) : Nat :=
  a.rows.length

def values (a : Matrix) : List Int :=
  a.rows.flatten

def empty : Matrix :=
  ⟨0, [], by simp⟩

def ofRows? (ncols : Nat) (rows : List (List Int)) : Option Matrix :=
  if h : ∀ row ∈ rows, row.length = ncols then some ⟨ncols, rows, h⟩ else none

/-- Cuts `nrows` pieces of length `ncols` off a list. -/
def cut (ncols : Nat) : Nat → List α → List (List α)
  | 0, _ => []
  | nrows + 1, xs => xs.take ncols :: cut ncols nrows (xs.drop ncols)

theorem length_of_mem_cut {ncols nrows : Nat} {xs : List α} (h : xs.length = nrows * ncols) :
    ∀ row ∈ cut ncols nrows xs, row.length = ncols := by
  induction nrows generalizing xs with
  | zero => simp [cut]
  | succ n ih =>
    intro row hrow
    rw [Nat.succ_mul] at h
    rcases List.mem_cons.mp hrow with rfl | hrow
    · simp only [List.length_take]; omega
    · exact ih (by simp only [List.length_drop]; omega) row hrow

/-- A matrix from its values in row order, which must be as many as it has places. -/
def reshape? (nrows ncols : Nat) (values : List Int) : Option Matrix :=
  if h : values.length = nrows * ncols then
    some ⟨ncols, cut ncols nrows values, length_of_mem_cut h⟩
  else none

def map (a : Matrix) (f : Int → Int) : Matrix :=
  ⟨a.ncols, a.rows.map (·.map f), by
    intro row h
    obtain ⟨r, hr, rfl⟩ := List.mem_map.mp h
    simp [a.width r hr]⟩

def mapColumn (a : Matrix) (column : Nat) (f : Int → Int) : Matrix :=
  ⟨a.ncols, a.rows.map (·.modify column f), by
    intro row h
    obtain ⟨r, hr, rfl⟩ := List.mem_map.mp h
    simp [a.width r hr]⟩

def select (a : Matrix) (indices : List Nat) : Matrix :=
  ⟨a.ncols, pick indices a.rows, fun row h => a.width row (mem_of_mem_pick h)⟩

/-- Moves each column `i` to position `targets[i]`. -/
def scatter (a : Matrix) (targets : List Nat) : Matrix :=
  let sources := (List.range a.ncols).map targets.idxOf
  ⟨a.ncols, a.rows.map (fun row => sources.map (row.getD · 0)), by
    intro row h
    obtain ⟨r, _, rfl⟩ := List.mem_map.mp h
    simp [sources]⟩

/-- The rows of all matrices, if they have `ncols` columns each. -/
def concat? (ncols : Nat) (as : List Matrix) : Option Matrix :=
  if h : ∀ a ∈ as, a.ncols = ncols then
    some ⟨ncols, as.flatMap (·.rows), by
      intro row hrow
      obtain ⟨a, ha, hr⟩ := List.mem_flatMap.mp hrow
      rw [a.width row hr, h a ha]⟩
  else none

end Matrix
end BinaryQuadratic
