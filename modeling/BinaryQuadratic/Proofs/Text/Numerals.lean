import Mathlib

namespace BinaryQuadratic.Text

/-- Signs and digits, of which integers are written. -/
def isIntegerChar (c : Char) : Bool :=
  c == '-' || c.isDigit

/-- What reals are written with besides: a point, an exponent, or the names of those that have no
digits. -/
def isRealChar (c : Char) : Bool :=
  isIntegerChar c || c ∈ ['.', 'e', 'i', 'n', 'f', 'N', 'a']

theorem isRealChar_of_integer {c : Char} (h : isIntegerChar c = true) : isRealChar c = true := by
  simp [isRealChar, h]

theorem isIntegerChar_of_digit {c : Char} (h : c.isDigit = true) : isIntegerChar c = true := by
  simp [isIntegerChar, h]

theorem isDigit_of_mem_toString {n : Nat} {c : Char} (h : c ∈ (toString n).toList) :
    c.isDigit = true := by
  rw [Nat.toString_eq_repr, Nat.toList_repr] at h
  exact Nat.isDigit_of_mem_toDigits (by decide) (by decide) h

theorem toString_negSucc (n : Nat) :
    (toString (Int.negSucc n)).toList = '-' :: (toString (n + 1)).toList := by
  simp [Int.toString_eq_repr, Int.repr, String.toList_append, Nat.toString_eq_repr]

theorem toList_ofNat (n : Nat) : (toString (Int.ofNat n)).toList = Nat.toDigits 10 n :=
  Nat.toList_repr

theorem toList_negSucc (n : Nat) :
    (toString (Int.negSucc n)).toList = '-' :: Nat.toDigits 10 (n + 1) := by
  rw [toString_negSucc, Nat.toString_eq_repr, Nat.toList_repr]

theorem isIntegerChar_of_mem_toString {n : Int} {c : Char} (h : c ∈ (toString n).toList) :
    isIntegerChar c = true := by
  cases n with
  | ofNat n => exact isIntegerChar_of_digit (isDigit_of_mem_toString (n := n) h)
  | negSucc n =>
    rw [toString_negSucc] at h
    rcases List.mem_cons.mp h with rfl | h
    · rfl
    · exact isIntegerChar_of_digit (isDigit_of_mem_toString h)

theorem toString_nat_ne_nil (n : Nat) : (toString n).toList ≠ [] := by
  rw [Nat.toString_eq_repr, Nat.toList_repr]
  exact Nat.toDigits_ne_nil

theorem toString_int_ne_nil (n : Int) : (toString n).toList ≠ [] := by
  cases n with
  | ofNat n => exact toString_nat_ne_nil n
  | negSucc n =>
    rw [toString_negSucc]
    exact List.cons_ne_nil _ _

theorem digitChar_ne_zero : ∀ n < 10, 0 < n → n.digitChar ≠ '0' := by
  decide

/-- No number but zero starts with a zero. -/
theorem head_toDigits {n : Nat} (h : n ≠ 0) : (Nat.toDigits 10 n).head? ≠ some '0' := by
  induction n using Nat.strong_induction_on with
  | _ n ih =>
    rw [Nat.toDigits_eq_if (by decide)]
    split
    · rename_i hlt
      simpa using digitChar_ne_zero n hlt (Nat.pos_of_ne_zero h)
    · rename_i hge
      rw [List.head?_append_of_ne_nil _ Nat.toDigits_ne_nil]
      exact ih (n / 10) (by omega) (by omega)

theorem digitChar_inj : ∀ m < 16, ∀ n < 16, Nat.digitChar m = Nat.digitChar n → m = n := by
  decide

theorem toDigits_append_ne (b n : Nat) (c d : Char) : Nat.toDigits b n ++ [c] ≠ [d] := by
  intro h
  rcases List.append_eq_singleton_iff.mp h with ⟨hnil, _⟩ | ⟨_, hnil⟩
  · exact Nat.toDigits_ne_nil hnil
  · cases hnil

section
variable {b : Nat} (hb : 1 < b) (hsmall : b ≤ 16)
include hb

theorem exists_of_mem_toDigits {n : Nat} {c : Char} (h : c ∈ Nat.toDigits b n) :
    ∃ d < b, c = Nat.digitChar d := by
  induction n using Nat.base_induction b hb with
  | single m hm =>
    rw [Nat.toDigits_of_lt_base hm] at h
    exact ⟨m, hm, List.mem_singleton.mp h⟩
  | digit m k hk hm ih =>
    rw [← Nat.toDigits_append_toDigits hb hm hk, Nat.toDigits_of_lt_base hk] at h
    rcases List.mem_append.mp h with h | h
    · exact ih h
    · exact ⟨k, hk, List.mem_singleton.mp h⟩

include hsmall

/-- Different numbers have different digits. -/
theorem toDigits_injective {m n : Nat} (h : Nat.toDigits b m = Nat.toDigits b n) : m = n := by
  induction m using Nat.base_induction b hb generalizing n with
  | single m hm =>
    rw [Nat.toDigits_of_lt_base hm, Nat.toDigits_eq_if hb] at h
    split at h
    · rename_i hn
      exact digitChar_inj m (by omega) n (by omega) (List.singleton_inj.mp h)
    · exact (toDigits_append_ne _ _ _ _ h.symm).elim
  | digit m k hk hm ih =>
    rw [← Nat.toDigits_append_toDigits hb hm hk, Nat.toDigits_of_lt_base hk,
      Nat.toDigits_eq_if hb (n := n)] at h
    split at h
    · exact (toDigits_append_ne _ _ _ _ h).elim
    · obtain ⟨hleft, hright⟩ := List.append_inj' h rfl
      have hlast := digitChar_inj k (by omega) (n % b)
        ((Nat.mod_lt n (by omega)).trans_le hsmall) (List.singleton_inj.mp hright)
      rw [ih hleft, hlast]
      exact Nat.div_add_mod n b

end

theorem toString_nat_injective {m n : Nat} (h : toString m = toString n) : m = n := by
  have hdigits := congrArg String.toList h
  rw [Nat.toString_eq_repr, Nat.toString_eq_repr, Nat.toList_repr, Nat.toList_repr] at hdigits
  exact toDigits_injective (by decide) (by decide) hdigits

theorem toString_ne_toString_negSucc (m n : Nat) : toString m ≠ toString (Int.negSucc n) := by
  intro h
  have hsign : '-' ∈ (toString m).toList := by
    rw [h, toString_negSucc]
    exact List.mem_cons_self
  cases isDigit_of_mem_toString hsign

theorem toString_int_injective {m n : Int} (h : toString m = toString n) : m = n := by
  cases m with
  | ofNat m =>
    cases n with
    | ofNat n => exact congrArg _ (toString_nat_injective h)
    | negSucc n => exact absurd h (toString_ne_toString_negSucc m n)
  | negSucc m =>
    cases n with
    | ofNat n => exact absurd h.symm (toString_ne_toString_negSucc n m)
    | negSucc n =>
      have hdigits := congrArg String.toList h
      rw [toString_negSucc, toString_negSucc] at hdigits
      have hnat := toString_nat_injective (String.toList_injective (List.cons.inj hdigits).2)
      rw [Nat.succ.inj hnat]

end BinaryQuadratic.Text
