import BinaryQuadratic.NameMap
import BinaryQuadratic.Proofs.Coefficient
import BinaryQuadratic.Value.Basic

namespace BinaryQuadratic.Value

/-- Induction on values: a list or a map comes after everything that it holds. -/
@[induction_eliminator]
theorem induct {motive : Value → Prop} (bool : ∀ b, motive (.bool b)) (int : ∀ n, motive (.int n))
    (uint : ∀ n, motive (.uint n)) (float : ∀ x, motive (.float x)) (str : ∀ s, motive (.str s))
    (list : ∀ items, (∀ x ∈ items, motive x) → motive (.list items))
    (map : ∀ entries, (∀ e ∈ entries, motive e.2) → motive (.map entries)) (v : Value) :
    motive v := by
  refine @Value.rec motive (fun items => ∀ x ∈ items, motive x)
    (fun entries => ∀ e ∈ entries, motive e.2) (fun e => motive e.2)
    bool int uint float str list map ?_ ?_ ?_ ?_ ?_ v
  · simp
  · exact fun x items hx hitems => List.forall_mem_cons.mpr ⟨hx, hitems⟩
  · simp
  · exact fun e entries he hentries => List.forall_mem_cons.mpr ⟨he, hentries⟩
  · exact fun _ _ hx => hx

mutual

/-- A value and all that it holds, at any depth. -/
def parts : Value → List Value
  | list items => list items :: partsOfItems items
  | map entries => map entries :: partsOfEntries entries
  | v => [v]

def partsOfItems : List Value → List Value
  | [] => []
  | x :: xs => parts x ++ partsOfItems xs

def partsOfEntries : List (String × Value) → List Value
  | [] => []
  | (_, x) :: es => parts x ++ partsOfEntries es

end

theorem partsOfItems_eq_flatMap (items : List Value) :
    partsOfItems items = items.flatMap parts := by
  induction items with
  | nil => rfl
  | cons x items ih => rw [partsOfItems, ih, List.flatMap_cons]

theorem partsOfEntries_eq_flatMap (entries : List (String × Value)) :
    partsOfEntries entries = entries.flatMap (fun e => parts e.2) := by
  induction entries with
  | nil => rfl
  | cons e entries ih => rw [partsOfEntries, ih, List.flatMap_cons]

theorem mem_parts_self (v : Value) : v ∈ v.parts := by
  cases v <;> simp [parts]

theorem mem_parts_list {x : Value} {items : List Value} :
    x ∈ (list items).parts ↔ x = list items ∨ ∃ item ∈ items, x ∈ item.parts := by
  rw [parts, List.mem_cons, partsOfItems_eq_flatMap, List.mem_flatMap]

theorem mem_parts_map {x : Value} {entries : List (String × Value)} :
    x ∈ (map entries).parts ↔ x = map entries ∨ ∃ e ∈ entries, x ∈ e.2.parts := by
  rw [parts, List.mem_cons, partsOfEntries_eq_flatMap, List.mem_flatMap]

theorem parts_subset_list {x : Value} {items : List Value} (h : x ∈ items) :
    x.parts ⊆ (list items).parts :=
  fun _ hy => mem_parts_list.mpr (.inr ⟨x, h, hy⟩)

theorem parts_subset_map {e : String × Value} {entries : List (String × Value)}
    (h : e ∈ entries) : e.2.parts ⊆ (map entries).parts :=
  fun _ hy => mem_parts_map.mpr (.inr ⟨e, h, hy⟩)

/-- Values made of one boolean, number or text. Integers of 32 bits are widened to signed words. -/
inductive OfScalar : Value → Prop
  | bool (b : Bool) : OfScalar (.bool b)
  | int32 (n : Int32) : OfScalar (.int n.toInt64)
  | uint32 (n : UInt32) : OfScalar (.int (Int64.ofNat n.toNat))
  | int64 (n : Int64) : OfScalar (.int n)
  | uint64 (n : UInt64) : OfScalar (ofUInt64 n)
  | float (x : Float) : OfScalar (.float x)
  | str (s : String) : OfScalar (.str s)

/-- No unsigned integer in it could have been a signed one. -/
def Canonical (v : Value) : Prop :=
  ∀ n, uint n ∈ v.parts → Word.signedBound ≤ n.toNat

/-- Every map in it has each name once, in ascending order. -/
def Ordered (v : Value) : Prop :=
  ∀ entries, map entries ∈ v.parts → Ascending entries

/-- Infinities and NaN are nowhere in it. -/
def Finite (v : Value) : Prop :=
  ∀ x, float x ∈ v.parts → x.isFinite = true

def WithoutNaN (v : Value) : Prop :=
  ∀ x, float x ∈ v.parts → x.isNaN = false

theorem Finite.withoutNaN {v : Value} (h : v.Finite) : v.WithoutNaN :=
  fun x hx => Coefficient.isNaN_of_isFinite (h x hx)

/-- What a value has to be for JSON to hold all of it. -/
structure Writable (v : Value) : Prop where
  canonical : v.Canonical
  ordered : v.Ordered
  finite : v.Finite

theorem Writable.item {x : Value} {items : List Value} (h : (list items).Writable)
    (hx : x ∈ items) : x.Writable :=
  ⟨fun n hn => h.canonical n (parts_subset_list hx hn),
    fun es hes => h.ordered es (parts_subset_list hx hes),
    fun y hy => h.finite y (parts_subset_list hx hy)⟩

theorem Writable.entry {e : String × Value} {entries : List (String × Value)}
    (h : (map entries).Writable) (he : e ∈ entries) : e.2.Writable :=
  ⟨fun n hn => h.canonical n (parts_subset_map he hn),
    fun es hes => h.ordered es (parts_subset_map he hes),
    fun y hy => h.finite y (parts_subset_map he hy)⟩

theorem beqItems_self {items : List Value} :
    beqItems items items = true ↔ ∀ x ∈ items, beq x x = true := by
  induction items with
  | nil => simp [beqItems]
  | cons x items ih => simp [beqItems, ih]

theorem beqEntries_self {entries : List (String × Value)} :
    beqEntries entries entries = true ↔ ∀ e ∈ entries, beq e.2 e.2 = true := by
  induction entries with
  | nil => simp [beqEntries]
  | cons e entries ih => simp [beqEntries, ih]

/-- Only NaN keeps a value from being equal to itself. -/
theorem WithoutNaN.beq_self {v : Value} (h : v.WithoutNaN) : v.beq v = true := by
  induction v with
  | bool b => simp [beq]
  | int n => simp [beq]
  | uint n => simp [beq]
  | float x =>
    rw [beq]
    exact Coefficient.float_beq_self (h x (mem_parts_self _))
  | str s => simp [beq]
  | list items ih =>
    rw [beq]
    exact beqItems_self.mpr (fun x hx => ih x hx (fun y hy => h y (parts_subset_list hx hy)))
  | map entries ih =>
    rw [beq]
    exact beqEntries_self.mpr (fun e he => ih e he (fun y hy => h y (parts_subset_map he hy)))

end BinaryQuadratic.Value
