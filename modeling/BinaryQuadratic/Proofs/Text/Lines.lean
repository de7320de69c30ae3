import Mathlib

namespace BinaryQuadratic.Text

/-- What all of a text is and the rest does not begin with ends where the rest begins. -/
theorem run_unique {p : α → Bool} {xs ys s t : List α} (hxs : ∀ x ∈ xs, p x = true)
    (hys : ∀ y ∈ ys, p y = true) (hs : ∀ c ∈ s.head?, p c = false)
    (ht : ∀ c ∈ t.head?, p c = false) (h : xs ++ s = ys ++ t) : xs = ys ∧ s = t := by
  induction xs generalizing ys with
  | nil =>
    cases ys with
    | nil => exact ⟨rfl, h⟩
    | cons y ys =>
      have hy := hys y (by simp)
      rw [hs y (by rw [List.nil_append] at h; simp [h])] at hy
      cases hy
  | cons x xs ih =>
    cases ys with
    | nil =>
      have hx := hxs x (by simp)
      rw [ht x (by rw [List.nil_append] at h; simp [← h])] at hx
      cases hx
    | cons y ys =>
      obtain ⟨rfl, htail⟩ := List.cons.inj h
      obtain ⟨_, hxs⟩ := List.forall_mem_cons.mp hxs
      obtain ⟨_, hys⟩ := List.forall_mem_cons.mp hys
      obtain ⟨rfl, rfl⟩ := ih hxs hys htail
      exact ⟨rfl, rfl⟩

/-- What stands between line feeds. -/
def lines (s : String) : List String :=
  (s.toList.splitOn '\n').map String.ofList

/-- What stands between blanks. Several of them together separate like one. -/
def words (s : String) : List String :=
  ((s.toList.splitOn ' ').filter (!·.isEmpty)).map String.ofList

/-- Lines that hold no line feed are found again. -/
theorem lines_intercalate {ls : List String} (hne : ls ≠ []) (h : ∀ l ∈ ls, '\n' ∉ l.toList) :
    lines ("\n".intercalate ls) = ls := by
  have hfeed : "\n".toList = ['\n'] := rfl
  have hlines : (['\n'].intercalate (ls.map String.toList)).splitOn '\n' =
      ls.map String.toList := by
    refine List.splitOn_intercalate _ (fun cs hcs => ?_) (by simpa using hne)
    obtain ⟨l, hl, rfl⟩ := List.mem_map.mp hcs
    exact h l hl
  rw [lines, String.toList_intercalate, hfeed, hlines, List.map_map]
  simp [Function.comp_def]

theorem words_append_blank (s t : String) : words (s ++ (" " ++ t)) = words s ++ words t := by
  have hsplit : (s ++ (" " ++ t)).toList.splitOn ' ' =
      s.toList.splitOn ' ' ++ t.toList.splitOn ' ' := by
    rw [String.toList_append, String.toList_append]
    exact List.splitOn_append_cons_self ..
  rw [words, hsplit, List.filter_append, List.map_append]
  rfl

theorem words_empty : words "" = [] := by
  simp [words]

theorem words_blanks_append (n : Nat) (s : String) :
    words (String.ofList (List.replicate n ' ') ++ s) = words s := by
  induction n with
  | zero => simp
  | succ n ih =>
    have hfront : String.ofList (List.replicate (n + 1) ' ') ++ s =
        "" ++ (" " ++ (String.ofList (List.replicate n ' ') ++ s)) := by
      apply String.toList_injective
      simp [List.replicate_succ]
    rw [hfront, words_append_blank, words_empty, List.nil_append, ih]

/-- A text without blanks is one word. -/
theorem words_eq_singleton {s : String} (hne : s.toList ≠ []) (h : ' ' ∉ s.toList) :
    words s = [s] := by
  rw [words, List.splitOn_eq_singleton h]
  simp [hne]

end BinaryQuadratic.Text
