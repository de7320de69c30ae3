namespace BinaryQuadratic

/-- Sets the entry of `k`, keeping entries in the order of their names. -/
def insertEntry (k : String) (x : α) : List (String × α) → List (String × α)
  | [] => [(k, x)]
  | (k', x') :: rest =>
    if k < k' then (k, x) :: (k', x') :: rest
    else if k' < k then (k', x') :: insertEntry k x rest
    else (k, x) :: rest

/-- Entries sorted by name, the last value of a repeated name kept. -/
def sortEntries (pairs : List (String × α)) : List (String × α) :=
  pairs.foldl (fun entries (k, x) => insertEntry k x entries) []

def Ascending (entries : List (String × α)) : Prop :=
  entries.Pairwise (fun a b => a.1 < b.1)

theorem eq_of_not_lt {a b : String} (h : ¬ a < b) (h' : ¬ b < a) : a = b :=
  String.le_antisymm (String.not_lt.mp h') (String.not_lt.mp h)

theorem mem_insertEntry {k : String} {x : α} {entries : List (String × α)} {e : String × α}
    (h : e ∈ insertEntry k x entries) : e = (k, x) ∨ e ∈ entries := by
  induction entries with
  | nil => simpa [insertEntry] using h
  | cons e' rest ih =>
    simp only [insertEntry] at h
    split at h
    · simpa using h
    split at h
    · rcases List.mem_cons.mp h with h | h
      · simp [h]
      · exact (ih h).imp_right (List.mem_cons_of_mem _)
    · rcases List.mem_cons.mp h with h | h
      · exact .inl h
      · exact .inr (List.mem_cons_of_mem _ h)

theorem Ascending.insertEntry {entries : List (String × α)} (h : Ascending entries)
    (k : String) (x : α) : Ascending (insertEntry k x entries) := by
  induction entries with
  | nil => simp [BinaryQuadratic.insertEntry, Ascending]
  | cons e rest ih =>
    obtain ⟨hhead, htail⟩ := List.pairwise_cons.mp h
    simp only [BinaryQuadratic.insertEntry]
    split
    · rename_i hlt
      refine List.pairwise_cons.mpr ⟨fun b hb => ?_, h⟩
      rcases List.mem_cons.mp hb with rfl | hb
      · exact hlt
      · exact String.lt_trans hlt (hhead b hb)
    split
    · rename_i hlt
      refine List.pairwise_cons.mpr ⟨fun b hb => ?_, ih htail⟩
      rcases mem_insertEntry hb with rfl | hb
      · exact hlt
      · exact hhead b hb
    · rename_i hge hle
      have hk : k = e.1 := eq_of_not_lt hge hle
      exact List.pairwise_cons.mpr ⟨fun b hb => hk ▸ hhead b hb, htail⟩

theorem ascending_sortEntries (pairs : List (String × α)) : Ascending (sortEntries pairs) := by
  have hfold : ∀ (ps : List (String × α)) (entries : List (String × α)), Ascending entries →
      Ascending (ps.foldl (fun entries (k, x) => insertEntry k x entries) entries) := by
    intro ps
    induction ps with
    | nil => exact fun _ h => h
    | cons p ps ih => exact fun _ h => ih _ (h.insertEntry p.1 p.2)
  exact hfold pairs [] List.Pairwise.nil

/-- Values by name, in ascending order of the names' characters. -/
structure NameMap (α : Type) where
  entries : List (String × α)
  ascending : Ascending entries

namespace NameMap

variable {α : Type}

def empty : NameMap α :=
  ⟨[], List.Pairwise.nil⟩

instance : Inhabited (NameMap α) := ⟨empty⟩

def ofList (pairs : List (String × α)) : NameMap α :=
  ⟨sortEntries pairs, ascending_sortEntries pairs⟩

def size (m : NameMap α) : Nat :=
  m.entries.length

def isEmpty (m : NameMap α) : Bool :=
  m.entries.isEmpty

def names (m : NameMap α) : List String :=
  m.entries.map (·.1)

def get? (m : NameMap α) (name : String) : Option α :=
  (m.entries.find? (·.1 == name)).map (·.2)

def contains (m : NameMap α) (name : String) : Bool :=
  m.entries.any (·.1 == name)

def insert (m : NameMap α) (name : String) (x : α) : NameMap α :=
  ⟨insertEntry name x m.entries, m.ascending.insertEntry name x⟩

/-- Keeps the entries whose name satisfies `p`. -/
def restrict (m : NameMap α) (p : String → Bool) : NameMap α :=
  ⟨m.entries.filter (fun e => p e.1), m.ascending.filter _⟩

def erase (m : NameMap α) (name : String) : NameMap α :=
  m.restrict (· != name)

theorem ext_entries {m m' : NameMap α} (h : m.entries = m'.entries) : m = m' := by
  cases m; cases m'; simp_all

end NameMap
end BinaryQuadratic
