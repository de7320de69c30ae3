import BinaryQuadratic.Proofs.Lists
import BinaryQuadratic.Vartype.Json

namespace BinaryQuadratic.Vartype

theorem contains_flip {t : Vartype} {x : Int} (h : t.contains x = true) :
    t.contains (t.flip x) = true := by
  rw [contains_iff] at h
  cases t <;> rcases h with rfl | rfl <;> decide

theorem contains_convert {t : Vartype} {x : Int} (target : Vartype) (h : t.contains x = true) :
    target.contains (t.convert target x) = true := by
  rw [contains_iff] at h
  cases t <;> cases target <;> rcases h with rfl | rfl <;> decide

theorem convert_convert {t target : Vartype} {x : Int} (h : t.contains x = true) :
    target.convert t (t.convert target x) = x := by
  rw [contains_iff] at h
  cases t <;> cases target <;> rcases h with rfl | rfl <;> decide

/-- Only at the lower end of eight bits is the other value out of reach. -/
theorem flipByte?_eq_some {t : Vartype} {x : Int} (h : byte? x = some x) :
    t.flipByte? x = some (t.flip x) ↔ t.low - 126 ≤ x := by
  have hx : -128 ≤ x ∧ x ≤ 127 := by
    by_contra hout
    simp [byte?, hout] at h
  cases t with
  | spin =>
    simp only [flipByte?, byte?, flip, low]
    split <;> simp <;> omega
  | binary =>
    simp only [flipByte?, byte?, flip, low]
    split <;> simp <;> omega

/-- For the values of a domain eight bits are enough, also on the way from one to the other. -/
theorem bytes_of_contains {t : Vartype} {x : Int} (target : Vartype) (h : t.contains x = true) :
    byte? x = some x ∧ t.flipByte? x = some (t.flip x) ∧
      t.convertByte? target x = some (t.convert target x) := by
  rw [contains_iff] at h
  cases t <;> cases target <;> rcases h with rfl | rfl <;> decide

/-- Flipping one value of a sample leaves it inside the domain. -/
theorem contains_modify {t : Vartype} {sample : List Int} (h : ∀ x ∈ sample, t.contains x = true)
    (k : Nat) : ∀ x ∈ sample.modify k t.flip, t.contains x = true := by
  intro x hx
  obtain ⟨y, hy, rfl | rfl⟩ := mem_modify hx
  · exact h x hy
  · exact contains_flip (h y hy)

theorem contains_map {t : Vartype} {sample : List Int} (h : ∀ x ∈ sample, t.contains x = true)
    (target : Vartype) : ∀ x ∈ sample.map (t.convert target), target.contains x = true := by
  intro x hx
  obtain ⟨y, hy, rfl⟩ := List.mem_map.mp hx
  exact contains_convert target (h y hy)

theorem map_convert_convert {t : Vartype} {sample : List Int}
    (h : ∀ x ∈ sample, t.contains x = true) (target : Vartype) :
    (sample.map (t.convert target)).map (target.convert t) = sample := by
  rw [List.map_map]
  exact (List.map_congr_left (fun x hx => convert_convert (h x hx))).trans (List.map_id sample)

@[simp] theorem ofJson?_toJson (t : Vartype) : ofJson? t.toJson = some t := by
  cases t <;> rfl

end BinaryQuadratic.Vartype
