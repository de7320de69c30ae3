import Mathlib

namespace BinaryQuadratic

variable {ε α β : Type}

theorem bind_ok {x : Except ε α} {f : α → Except ε β} {b : β} :
    (x >>= f) = .ok b ↔ ∃ a, x = .ok a ∧ f a = .ok b := by
  cases x with
  | error why => simp [bind, Except.bind]
  | ok a => simp [bind, Except.bind]

theorem toOption_eq_some {x : Except ε α} {a : α} : x.toOption = some a ↔ x = .ok a := by
  cases x <;> simp [Except.toOption]

theorem foldlM_cons_ok {f : β → α → Except ε β} {a : α} {as : List α} {b b' : β} :
    (a :: as).foldlM f b = .ok b' ↔ ∃ b₁, f b a = .ok b₁ ∧ as.foldlM f b₁ = .ok b' := by
  rw [List.foldlM_cons, bind_ok]

/-- What each step of a fold keeps, a fold that succeeds keeps. -/
theorem foldlM_keeps {P : β → Prop} {f : β → α → Except ε β}
    (hstep : ∀ b a b', P b → f b a = .ok b' → P b') {as : List α} {b b' : β} (hb : P b)
    (hf : as.foldlM f b = .ok b') : P b' := by
  induction as generalizing b with
  | nil => cases hf; exact hb
  | cons a as ih =>
    obtain ⟨b₁, ha, hs⟩ := foldlM_cons_ok.mp hf
    exact ih (hstep b a b₁ hb ha) hs

/-- A fold whose steps all succeed, as long as something holds that each of them keeps. -/
theorem foldlM_succeeds {P : β → Prop} {f : β → α → Except ε β} {as : List α}
    (hstep : ∀ b, ∀ a ∈ as, P b → ∃ b', f b a = .ok b' ∧ P b') {b : β} (hb : P b) :
    ∃ b', as.foldlM f b = .ok b' ∧ P b' := by
  induction as generalizing b with
  | nil => exact ⟨b, rfl, hb⟩
  | cons a as ih =>
    obtain ⟨b₁, ha, hb₁⟩ := hstep b a (by simp) hb
    obtain ⟨b', hs, hb'⟩ := ih (fun b a ha => hstep b a (by simp [ha])) hb₁
    exact ⟨b', foldlM_cons_ok.mpr ⟨b₁, ha, hs⟩, hb'⟩

theorem forM_cons (f : α → Except ε Unit) (a : α) (as : List α) :
    (a :: as).forM f = f a >>= fun _ => as.forM f :=
  rfl

theorem forM_ok {f : α → Except ε Unit} {as : List α} :
    as.forM f = .ok () ↔ ∀ a ∈ as, f a = .ok () := by
  induction as with
  | nil => simp [List.forM, pure, Except.pure]
  | cons a as ih =>
    rw [List.forall_mem_cons, ← ih, forM_cons, bind_ok]
    constructor
    · rintro ⟨_, ha, hs⟩
      exact ⟨ha, hs⟩
    · rintro ⟨ha, hs⟩
      exact ⟨_, ha, hs⟩

/-- The error of a run of checks is that of the first check that fails. -/
theorem forM_error {f : α → Except ε Unit} {as : List α} {why : ε} :
    as.forM f = .error why ↔ ∃ passed a rest, as = passed ++ a :: rest ∧
      (∀ b ∈ passed, f b = .ok ()) ∧ f a = .error why := by
  induction as with
  | nil => simp [List.forM, pure, Except.pure]
  | cons a as ih =>
    rw [forM_cons]
    cases ha : f a with
    | error e =>
      constructor
      · intro h
        exact ⟨[], a, as, rfl, by simp, ha.trans h⟩
      · rintro ⟨passed, b, rest, hsplit, hpassed, hb⟩
        cases passed with
        | nil =>
          cases hsplit
          exact ha.symm.trans hb
        | cons b' passed =>
          cases hsplit
          cases ha.symm.trans (hpassed a (by simp))
    | ok u =>
      change as.forM f = .error why ↔ _
      rw [ih]
      constructor
      · rintro ⟨passed, b, rest, rfl, hpassed, hb⟩
        exact ⟨a :: passed, b, rest, rfl, List.forall_mem_cons.mpr ⟨ha, hpassed⟩, hb⟩
      · rintro ⟨passed, b, rest, hsplit, hpassed, hb⟩
        cases passed with
        | nil =>
          cases hsplit
          cases ha.symm.trans hb
        | cons b' passed =>
          cases hsplit
          exact ⟨passed, b, rest, rfl, (List.forall_mem_cons.mp hpassed).2, hb⟩

/-- A check that answers alike throughout a part need be made only once for it. -/
theorem forM_flatten {f : α → Except ε Unit} {parts : List (List α)} {bs : List α}
    (h : List.Forall₂ (fun part b => part ≠ [] ∧ ∀ a ∈ part, f a = f b) parts bs) :
    parts.flatten.forM f = bs.forM f := by
  have hpart : ∀ (part : List α) (b : α), part ≠ [] → (∀ a ∈ part, f a = f b) →
      ∀ rest : List α, (part ++ rest).forM f = f b >>= fun _ => rest.forM f := by
    intro part b hne hsame rest
    induction part with
    | nil => exact absurd rfl hne
    | cons a part ih =>
      obtain ⟨ha, hpart⟩ := List.forall_mem_cons.mp hsame
      rw [List.cons_append, forM_cons, ha]
      cases part with
      | nil => rfl
      | cons a' part =>
        rw [ih (by simp) hpart]
        cases f b <;> rfl
  induction h with
  | nil => rfl
  | cons h _ ih => rw [List.flatten_cons, hpart _ _ h.1 h.2, ih, forM_cons]

/-- A map that succeeds does so on each element. -/
theorem exists_of_mapM_ok {f : α → Except ε β} {as : List α} {bs : List β}
    (h : as.mapM f = .ok bs) : ∀ a ∈ as, ∃ b, f a = .ok b := by
  induction as generalizing bs with
  | nil => simp
  | cons a as ih =>
    rw [List.mapM_cons] at h
    obtain ⟨b, hb, h⟩ := bind_ok.mp h
    obtain ⟨bs', hbs, _⟩ := bind_ok.mp h
    exact List.forall_mem_cons.mpr ⟨⟨b, hb⟩, ih hbs⟩

/-- A map over elements on which nothing fails, with what holds of each element and its result. -/
theorem mapM_succeeds {P : α → β → Prop} {f : α → Except ε β} {as : List α}
    (h : ∀ a ∈ as, ∃ b, f a = .ok b ∧ P a b) :
    ∃ bs, as.mapM f = .ok bs ∧ List.Forall₂ P as bs := by
  induction as with
  | nil => exact ⟨[], rfl, .nil⟩
  | cons a as ih =>
    obtain ⟨⟨b, hb, hP⟩, has⟩ := List.forall_mem_cons.mp h
    obtain ⟨bs, hbs, hPs⟩ := ih has
    refine ⟨b :: bs, ?_, .cons hP hPs⟩
    rw [List.mapM_cons, hb, hbs]
    rfl

/-- A map over elements on which nothing fails is a plain map. -/
theorem mapM_eq_pure {m : Type → Type} [Monad m] [LawfulMonad m] {f : α → m β} {g : α → β}
    {as : List α} (h : ∀ a ∈ as, f a = pure (g a)) : as.mapM f = pure (as.map g) := by
  induction as with
  | nil => simp
  | cons a as ih =>
    rw [List.mapM_cons, h a (by simp), ih (fun b hb => h b (by simp [hb]))]
    simp

/-- Where each element is read back from what is written for it, so is the list. -/
theorem mapM_read {read : β → Option α} {write : α → β} {as : List α}
    (h : ∀ a ∈ as, read (write a) = some a) : (as.map write).mapM read = some as := by
  have hread : as.mapM (read ∘ write) = some (as.map id) := mapM_eq_pure h
  rw [List.mapM_map, hread, List.map_id]

/-- Nothing is in the result of a map but results of single elements. -/
theorem mem_of_mapM {f : α → Option β} {as : List α} {bs : List β} (h : as.mapM f = some bs)
    {b : β} (hb : b ∈ bs) : ∃ a ∈ as, f a = some b := by
  induction as generalizing bs with
  | nil =>
    cases h
    cases hb
  | cons a as ih =>
    simp only [List.mapM_cons, bind, Option.bind_eq_some_iff] at h
    obtain ⟨b₀, ha, rest, hrest, he⟩ := h
    cases he
    rcases List.mem_cons.mp hb with rfl | hb
    · exact ⟨a, by simp, ha⟩
    · obtain ⟨a', ha', hf⟩ := ih hrest hb
      exact ⟨a', by simp [ha'], hf⟩

end BinaryQuadratic
