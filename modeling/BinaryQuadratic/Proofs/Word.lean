import BinaryQuadratic.Word
import Mathlib

namespace BinaryQuadratic.Word.Overflow

variable (o : Overflow)

theorem word?_of_lt {n : Nat} (h : n < bound) : o.word? n = some n :=
  if_pos h

theorem wraps_word? (n : Nat) : wraps.word? n = some (n % bound) := by
  by_cases h : n < bound
  · rw [word?_of_lt _ h, Nat.mod_eq_of_lt h]
  · rw [word?, if_neg h]

theorem word?_eq_none {n : Nat} : o.word? n = none ↔ o = .stops ∧ bound ≤ n := by
  by_cases h : n < bound
  · simp [word?_of_lt o h, h]
  · have hle : bound ≤ n := not_lt.mp h
    cases o <;> simp [word?, h, hle]

/-- Whether a number wraps before more is added or only after, it comes to the same. -/
theorem word?_add (m n : Nat) : (o.word? m).bind (fun k => o.word? (k + n)) = o.word? (m + n) := by
  cases o with
  | stops =>
    by_cases h : m < bound
    · rw [word?_of_lt _ h, Option.bind_some]
    · have hsum : stops.word? (m + n) = none := (word?_eq_none _).mpr ⟨rfl, by omega⟩
      rw [(word?_eq_none _).mpr ⟨rfl, not_lt.mp h⟩, hsum, Option.bind_none]
  | wraps =>
    simp only [wraps_word?, Option.bind_some, Nat.mod_add_mod]

/-- In whichever order words are added, their sum does what it does as a whole. -/
theorem sum?_eq (ns : List Nat) : o.sum? ns = o.word? ns.sum := by
  have hstep (ns : List Nat) : ∀ total, (o.word? total).bind
      (fun k => ns.foldlM (fun total n => o.word? (total + n)) k) = o.word? (total + ns.sum) := by
    induction ns with
    | nil =>
      intro total
      rw [List.sum_nil, Nat.add_zero]
      exact bind_pure (m := Option) _
    | cons n ns ih =>
      intro total
      calc (o.word? total).bind
            (fun k => (n :: ns).foldlM (fun total n => o.word? (total + n)) k)
        _ = ((o.word? total).bind (fun k => o.word? (k + n))).bind
            (fun k => ns.foldlM (fun total n => o.word? (total + n)) k) := by
          rw [Option.bind_assoc]
          rfl
        _ = o.word? (total + n + ns.sum) := by rw [word?_add, ih]
        _ = o.word? (total + (n :: ns).sum) := by rw [List.sum_cons, Nat.add_assoc]
  have hzero := hstep ns 0
  rwa [word?_of_lt o (by decide), Option.bind_some, Nat.zero_add] at hzero

example : stops.sum? [1, 18446744073709551615] = none ∧
    wraps.sum? [1, 18446744073709551615] = some 0 := by
  decide

end BinaryQuadratic.Word.Overflow
