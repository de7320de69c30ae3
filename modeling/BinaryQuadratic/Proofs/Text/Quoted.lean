import BinaryQuadratic.Proofs.Text.Lines
import BinaryQuadratic.Proofs.Text.Numerals
import BinaryQuadratic.Text.Quoted

namespace BinaryQuadratic.Text

/-- What follows the backslash, and what it stands for. -/
def shortEscapes : List (Char × Char) :=
  [('"', '"'), ('\\', '\\'), ('t', '\t'), ('r', '\r'), ('n', '\n'), ('0', '\x00')]

theorem shortEscapes_unique :
    ∀ p ∈ shortEscapes, p.1 ≠ 'u' ∧ ∀ q ∈ shortEscapes, p.1 = q.1 → p.2 = q.2 := by
  decide

/-- The ways to write a character between quotes: escaped by one character, by its number, or as it
is. -/
inductive Escaped (c : Char) : List Char → Prop
  | short (k : Char) (h : (k, c) ∈ shortEscapes) : Escaped c ['\\', k]
  | long : Escaped c ('\\' :: 'u' :: '\x7b' :: (Nat.toDigits 16 c.toNat ++ ['\x7d']))
  | plain (hquote : c ≠ '"') (hbackslash : c ≠ '\\') : Escaped c [c]

theorem escaped_escape (c : Char) : Escaped c (escape c) := by
  unfold escape
  split
  · exact .short _ (by decide)
  · exact .short _ (by decide)
  · exact .short _ (by decide)
  · exact .short _ (by decide)
  · exact .short _ (by decide)
  · exact .short _ (by decide)
  · rename_i hquote hbackslash _ _ _ _
    split
    · exact .long
    · exact .plain hquote hbackslash

/-- The number of an escaped character ends at the first brace. -/
theorem long_unique {c d : Char} {s t : List Char}
    (h : Nat.toDigits 16 c.toNat ++ '\x7d' :: s = Nat.toDigits 16 d.toNat ++ '\x7d' :: t) :
    c = d ∧ s = t := by
  have hbrace : ∀ k < 16, Nat.digitChar k ≠ '\x7d' := by decide
  have hdigits (c : Char) : ∀ k ∈ Nat.toDigits 16 c.toNat, (k != '\x7d') = true := by
    intro k hk
    obtain ⟨n, hn, rfl⟩ := exists_of_mem_toDigits (by decide) hk
    exact bne_iff_ne.mpr (hbrace n hn)
  obtain ⟨hnumber, hrest⟩ := run_unique (hdigits c) (hdigits d) (by simp) (by simp) h
  exact ⟨Char.toNat_inj.mp (toDigits_injective (by decide) (by decide) hnumber),
    (List.cons.inj hrest).2⟩

/-- No way to write a character begins another. -/
theorem Escaped.unique {c d : Char} {xs ys s t : List Char} (hc : Escaped c xs)
    (hd : Escaped d ys) (h : xs ++ s = ys ++ t) : c = d ∧ s = t := by
  cases hc with
  | short k hk =>
    obtain ⟨hu, hunique⟩ := shortEscapes_unique _ hk
    cases hd with
    | short l hl =>
      obtain ⟨rfl, rfl⟩ : k = l ∧ s = t := by simpa using h
      exact ⟨hunique _ hl rfl, rfl⟩
    | long => exact absurd (List.cons.inj (List.cons.inj h).2).1 hu
    | plain _ hbackslash => exact absurd (List.cons.inj h).1.symm hbackslash
  | long =>
    cases hd with
    | short l hl =>
      exact absurd (List.cons.inj (List.cons.inj h).2).1.symm (shortEscapes_unique _ hl).1
    | long =>
      apply long_unique
      simpa using h
    | plain _ hbackslash => exact absurd (List.cons.inj h).1.symm hbackslash
  | plain _ hbackslash =>
    cases hd with
    | short l hl => exact absurd (List.cons.inj h).1 hbackslash
    | long => exact absurd (List.cons.inj h).1 hbackslash
    | plain => simpa using h

theorem Escaped.quote_ne_head {c : Char} {xs s t : List Char} (hc : Escaped c xs) :
    xs ++ s ≠ '"' :: t := by
  intro h
  cases hc with
  | short => simp at h
  | long => simp at h
  | plain hquote => exact hquote (List.cons.inj h).1

/-- Only the quote that closes a text stands in it unescaped. -/
theorem escapes_unique {cs ds s t : List Char}
    (h : cs.flatMap escape ++ '"' :: s = ds.flatMap escape ++ '"' :: t) : cs = ds ∧ s = t := by
  induction cs generalizing ds with
  | nil =>
    cases ds with
    | nil => exact ⟨rfl, (List.cons.inj h).2⟩
    | cons d ds =>
      rw [List.flatMap_cons, List.append_assoc] at h
      exact absurd h.symm (escaped_escape d).quote_ne_head
  | cons c cs ih =>
    rw [List.flatMap_cons, List.append_assoc] at h
    cases ds with
    | nil => exact absurd h (escaped_escape c).quote_ne_head
    | cons d ds =>
      rw [List.flatMap_cons, List.append_assoc] at h
      obtain ⟨rfl, htail⟩ := (escaped_escape c).unique (escaped_escape d) h
      obtain ⟨rfl, rfl⟩ := ih htail
      exact ⟨rfl, rfl⟩

theorem toList_quoted (s : String) :
    (quoted s).toList = '"' :: (s.toList.flatMap escape ++ ['"']) := by
  rw [quoted, String.toList_ofList]

/-- A quoted text tells where it ends and what it says. -/
theorem quoted_unique {s s' : String} {t t' : List Char}
    (h : (quoted s).toList ++ t = (quoted s').toList ++ t') : s = s' ∧ t = t' := by
  rw [toList_quoted, toList_quoted] at h
  obtain ⟨hs, ht⟩ := escapes_unique (by simpa using h)
  exact ⟨String.toList_injective hs, ht⟩

end BinaryQuadratic.Text
