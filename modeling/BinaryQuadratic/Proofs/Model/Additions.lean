import BinaryQuadratic.Proofs.Model.Contents
import BinaryQuadratic.Proofs.Model.Reachable

namespace BinaryQuadratic

theorem getD_credit [DecidableEq K] (f : K → Option Rat) (j k : K) (x : Rat) :
    (credit f j x k).getD 0 = (f k).getD 0 + if j = k then x else 0 := by
  by_cases hjk : j = k
  · simp [credit, hjk]
  · have hkj : k ≠ j := fun h => hjk h.symm
    simp [credit, hjk, hkj]

/-- The sum of some numbers, if there are any. -/
def total? (xs : List Rat) : Option Rat :=
  if xs = [] then none else some xs.sum

theorem sum_filterMap_concat (f : α → Option Rat) (as : List α) (a : α) :
    ((as ++ [a]).filterMap f).sum = (as.filterMap f).sum + (f a).getD 0 := by
  cases hf : f a <;> simp [hf]

theorem total?_filterMap_concat (f : α → Option Rat) (as : List α) (a : α) :
    total? ((as ++ [a]).filterMap f) = (f a).elim (total? (as.filterMap f))
      (fun x => some ((total? (as.filterMap f)).getD 0 + x)) := by
  cases hf : f a with
  | none => simp [hf]
  | some x => by_cases has : as.filterMap f = [] <;> simp [total?, hf, has]

namespace Model

variable {V R : Type}

/-- A call that adds to a model. -/
inductive Addition (V R : Type) where
  | bias (v : V) (x : R)
  | interaction (u v : V) (x : R)
  | offset (x : R)

namespace Addition

def edit : Addition V R → Edit V R
  | bias v x => .addVariable v x
  | interaction u v x => .addInteraction u v x
  | offset x => .addOffset x

def offset? : Addition V R → Option R
  | offset x => some x
  | _ => none

variable [DecidableEq V]

/-- The labels that a call names, in order. A call that fails names none. -/
def mentions : Addition V R → List V
  | bias v _ => [v]
  | interaction u v _ => if u = v then [] else [u, v]
  | offset _ => []

/-- What a call adds to the bias of `v`. -/
def biasOf? (v : V) : Addition V R → Option R
  | bias w x => if w = v then some x else none
  | _ => none

/-- What a call adds to the interaction of two variables, in whichever order it names them. -/
def pairOf? (p : Sym2 V) : Addition V R → Option R
  | interaction u v x => if u ≠ v ∧ s(u, v) = p then some x else none
  | _ => none

end Addition

variable [DecidableEq V]

section
variable [Coefficient R]

/-- The model after calls on an empty one. -/
def build (t : Vartype) (calls : List (Addition V R)) : Model V R :=
  calls.foldl (fun m a => a.edit.apply m) (empty t)

theorem build_concat (t : Vartype) (calls : List (Addition V R)) (a : Addition V R) :
    build t (calls ++ [a]) = a.edit.apply (build t calls) := by
  simp [build]

/-- A variable joined with itself is refused before anything is changed. -/
theorem apply_join (m : Model V R) (u v : V) (x : R) :
    (Edit.addInteraction u v x).apply m = if u = v then m else m.join u v x := by
  rw [Edit.apply_addInteraction]
  unfold addInteraction
  split <;> rfl

theorem vartype_build (t : Vartype) (calls : List (Addition V R)) :
    (build t calls).vartype = t := by
  refine List.foldlRecOn (motive := fun m : Model V R => m.vartype = t) calls _ rfl (fun m hm a _ => ?_)
  cases a with
  | bias v x => exact hm
  | offset x => exact hm
  | interaction u v x =>
    change ((Edit.addInteraction u v x).apply m).vartype = t
    rw [apply_join]
    split
    · exact hm
    · exact hm

/-- A call that succeeds appends what it names, where it is new. -/
theorem labels_apply (m : Model V R) (a : Addition V R) :
    (a.edit.apply m).labels = a.mentions.foldl (fun ks k => appendNew k ks) m.labels := by
  cases a with
  | bias v x => exact labels_addVariable m v x
  | offset x => rfl
  | interaction u v x =>
    change ((Edit.addInteraction u v x).apply m).labels = _
    rw [apply_join, Addition.mentions]
    split
    · rfl
    · exact (labels_addVariable _ v _).trans (congrArg (appendNew v) (labels_addVariable m u _))

theorem labels_build (t : Vartype) (calls : List (Addition V R)) :
    (build t calls).labels = (calls.flatMap Addition.mentions).eraseDups := by
  -- What a call appends depends on the labels before it, so the last call is the one to split off.
  induction calls using List.reverseRecOn with
  | nil => rfl
  | append_singleton calls a ih =>
    rw [build_concat, labels_apply, ih, List.flatMap_append, List.flatMap_singleton,
      eraseDups_append_eq_foldl]

/-- Later calls do not move a variable. -/
theorem labels_prefix_build (t : Vartype) (calls later : List (Addition V R)) :
    (build t calls).labels <+: (build t (calls ++ later)).labels := by
  rw [build, build, List.foldl_append]
  refine List.foldlRecOn (motive := fun m : Model V R => (build t calls).labels <+: m.labels) later _
    (List.prefix_refl _) (fun m hm a _ => hm.trans ?_)
  rw [labels_apply]
  exact List.foldlRecOn (motive := fun ks => m.labels <+: ks) a.mentions _ (List.prefix_refl _)
    (fun ks hks k _ => hks.trans (prefix_appendNew k ks))

theorem wellFormed_build (t : Vartype) (calls : List (Addition V R)) :
    (build t calls).WellFormed :=
  List.foldlRecOn calls _ (wellFormed_empty t) (fun _ hm a _ => hm.apply a.edit)

/-- The position told when a variable is added is its position ever after. -/
theorem indexOf?_build (t : Vartype) (calls later : List (Addition V R)) (v : V) (x : R) :
    (build t (calls ++ .bias v x :: later)).indexOf? v =
      some ((build t calls).addVariable v x).2 := by
  have hplace : (build t (calls ++ [.bias v x])).labels[(build t calls).place v]? = some v := by
    rw [build_concat]
    exact label_place (build t calls) v x
  have hlt := (List.getElem?_eq_some_iff.mp hplace).1
  obtain ⟨tail, htail⟩ := labels_prefix_build t (calls ++ [.bias v x]) later
  rw [List.append_cons]
  refine (wellFormed_build t _).indexOf?_eq_some.mpr ?_
  change (build t _).labels[(build t calls).place v]? = some v
  rw [← htail, List.getElem?_append_left hlt, hplace]

end

variable {m : Model V Rat}

/-- Naming a variable in an interaction gives it a bias, of zero. -/
theorem bias?_apply (m : Model V Rat) (a : Addition V Rat) (v : V) :
    ((a.edit.apply m).bias? v).getD 0 = (m.bias? v).getD 0 + (a.biasOf? v).getD 0 := by
  cases a with
  | bias w x =>
    change ((m.addVariable w x).1.bias? v).getD 0 = _
    rw [bias?_addVariable, getD_credit, Addition.biasOf?]
    split <;> rfl
  | offset x => exact (add_zero _).symm
  | interaction u w x =>
    change (((Edit.addInteraction u w x).apply m).bias? v).getD 0 = _ + 0
    rw [apply_join, add_zero]
    split
    · rfl
    · rw [bias?_join, getD_credit, getD_credit]
      simp

theorem WellFormed.pair?_apply (h : m.WellFormed) (a : Addition V Rat) (p : Sym2 V) :
    (a.edit.apply m).pair? p =
      (a.pairOf? p).elim (m.pair? p) (fun x => some ((m.pair? p).getD 0 + x)) := by
  cases a with
  | bias w x => exact congrFun (h.pair?_addVariable w x) p
  | offset x => rfl
  | interaction u w x =>
    change ((Edit.addInteraction u w x).apply m).pair? p = _
    rw [apply_join, Addition.pairOf?]
    by_cases huw : u = w
    · simp [huw]
    · rw [if_neg huw, h.pair?_join huw, credit, Function.update_apply]
      by_cases hp : p = s(u, w)
      · simp [huw, hp]
      · have hne : s(u, w) ≠ p := fun he => hp he.symm
        simp [hp, hne]

theorem offset_apply (m : Model V Rat) (a : Addition V Rat) :
    (a.edit.apply m).offset = m.offset + a.offset?.getD 0 := by
  cases a with
  | bias v x => exact (add_zero _).symm
  | offset x => rfl
  | interaction u v x =>
    change ((Edit.addInteraction u v x).apply m).offset = _ + 0
    rw [apply_join, add_zero]
    split <;> rfl

theorem bias?_build (t : Vartype) (calls : List (Addition V Rat)) (v : V) :
    ((build t calls).bias? v).getD 0 = (calls.filterMap (Addition.biasOf? v)).sum := by
  induction calls using List.reverseRecOn with
  | nil => rfl
  | append_singleton calls a ih => rw [build_concat, bias?_apply, ih, sum_filterMap_concat]

theorem pair?_build (t : Vartype) (calls : List (Addition V Rat)) (p : Sym2 V) :
    (build t calls).pair? p = total? (calls.filterMap (Addition.pairOf? p)) := by
  induction calls using List.reverseRecOn with
  | nil =>
    induction p with | h u v => rfl
  | append_singleton calls a ih =>
    rw [build_concat, (wellFormed_build t calls).pair?_apply, ih, total?_filterMap_concat]

theorem offset_build (t : Vartype) (calls : List (Addition V Rat)) :
    (build t calls).offset = (calls.filterMap Addition.offset?).sum := by
  induction calls using List.reverseRecOn with
  | nil => rfl
  | append_singleton calls a ih => rw [build_concat, offset_apply, ih, sum_filterMap_concat]

/-- After any calls on an empty model, its variables stand in the order in which calls that
succeeded first named them, each at the position told when it was added; a bias, an interaction and
the offset are the sums of what was added to them; and a variable joined with itself is refused,
with the model left as it was. -/
theorem built_by_additions (t : Vartype) (calls : List (Addition V Rat)) :
    let m := build t calls
    m.vartype = t ∧ m.labels = (calls.flatMap Addition.mentions).eraseDups ∧
      (∀ earlier v x later, calls = earlier ++ .bias v x :: later →
        m.indexOf? v = some ((build t earlier).addVariable v x).2) ∧
      (∀ v, m.bias? v = if v ∈ calls.flatMap Addition.mentions then
        some (calls.filterMap (Addition.biasOf? v)).sum else none) ∧
      (∀ u v, m.interaction? u v = m.interaction? v u ∧
        m.interaction? u v = if calls.filterMap (Addition.pairOf? s(u, v)) = [] then none else
          some (calls.filterMap (Addition.pairOf? s(u, v))).sum) ∧
      m.offset = (calls.filterMap Addition.offset?).sum ∧
      (∀ v x, m.addInteraction v v x = .error (.selfLoop v) ∧
        (addInteractionInPlace v v x).run.run m = (.error (.selfLoop v), m) ∧
        (Addition.interaction v v x).edit.apply m = m) ∧
      ∀ u v x, u ≠ v → ∃ m', m.addInteraction u v x = .ok m' ∧
        (addInteractionInPlace u v x).run.run m = (.ok (), m') := by
  have hlabels := labels_build t calls
  refine ⟨vartype_build t calls, hlabels, ?_, fun v => ?_, fun u v => ?_, offset_build t calls,
    fun v x => ?_, fun u v x huv => ?_⟩
  · rintro earlier v x later rfl
    exact indexOf?_build t earlier later v x
  · have hsum := bias?_build t calls v
    have hmem : ((build t calls).bias? v).isSome = true ↔ v ∈ calls.flatMap Addition.mentions := by
      rw [isSome_bias?, hlabels, List.mem_eraseDups]
    cases hbias : (build t calls).bias? v with
    | none =>
      rw [hbias] at hmem
      rw [if_neg (fun hv => by simpa using hmem.mpr hv)]
    | some b =>
      rw [hbias] at hmem hsum
      rw [if_pos (hmem.mp rfl), ← hsum, Option.getD_some]
  · exact ⟨interaction?_comm _ u v, pair?_build t calls s(u, v)⟩
  · have hrefused : (build t calls).addInteraction v v x = .error (.selfLoop v) := if_pos rfl
    have hrun := run_addInteractionInPlace (build t calls) v v x
    rw [hrefused] at hrun
    exact ⟨hrefused, hrun, congrArg Prod.snd hrun⟩
  · have hjoined : (build t calls).addInteraction u v x = .ok ((build t calls).join u v x) :=
      if_neg huv
    have hrun := run_addInteractionInPlace (build t calls) u v x
    rw [hjoined] at hrun
    exact ⟨_, hjoined, hrun⟩

end Model
end BinaryQuadratic
