import BinaryQuadratic.Proofs.Sampler.Sound

namespace BinaryQuadratic
open SampleM

/-- Layers over an exhaustive sampler, to any depth and in any order. -/
inductive Stack where
  | exhaustive (e : ExhaustiveSampler)
  | spinReversal (child : Stack)
  | truncate (child : Stack) (config : TruncateConfig)

namespace Stack

variable {σ V : Type} [DecidableEq V]

def sampler {R : Type} [Coefficient R] : Stack → Sampler σ V R
  | exhaustive e => e.sampler
  | spinReversal child => (Composite.spinReversal child.sampler).toSampler
  | truncate child config => (Composite.truncate child.sampler config).toSampler

/-- Whether samples are only ever dropped in the order of their energies. -/
def SortsByEnergy : Stack → Prop
  | exhaustive _ => True
  | spinReversal child => child.SortsByEnergy
  | truncate child config => config.sortedBy = .energy ∧ child.SortsByEnergy

/-- Every layer keeps the samples faithful, and the least among them where it sorts. -/
theorem sound (stack : Stack) : (stack.sampler : Sampler σ V Rat).Sound stack.SortsByEnergy := by
  induction stack with
  | exhaustive e => exact e.sound
  | spinReversal child ih => exact SpinReversal.sound ih
  | truncate child config ih => exact TruncateConfig.sound ih config

/-- Whatever layers a model went through, flips and conversions included, the samples that come
back are its own, over its own variables and domain, with the energies it gives them. -/
theorem samples_keep_energies (stack : Stack) (m : Model V Rat) (hm : m.Reachable)
    (params : Params) (s : Session σ) (set : SampleSet V Rat)
    (h : (outcome (stack.sampler.sample m params) s).1 = .ok set) :
    set.vartype = m.vartype ∧
      (m.numVariables ≠ 0 → set.labels = m.labels ∧
        (∀ row ∈ set.samples.rows, ∀ x ∈ row, m.vartype.contains x = true) ∧
        set.samples.rows.map m.energy = set.energies.map .ok) ∧
      (m.numVariables = 0 → set.labels = [] ∧ set.samples.rows = []) := by
  have hanswers : Answers m set stack.SortsByEnergy := stack.sound hm.wellFormed (Prod.ext h rfl)
  refine ⟨hanswers.vartype, fun _ => ⟨hanswers.labels, fun row hr => (hanswers.fits hr).2, ?_⟩,
    fun hn => ⟨?_, hanswers.noRows hn⟩⟩
  · rw [hanswers.energies, List.map_map]
    exact List.map_congr_left (fun row hr => Model.energy_ok.mpr ⟨hanswers.fits hr, rfl⟩)
  · rw [hanswers.labels, ← List.length_eq_zero_iff, Model.length_labels, hn]

theorem samples_of_flipped_bits :
    let m : Model String Rat := .ofQubo [(("a", "b"), 2), (("b", "b"), -1)] 0
    let s : Session Unit := ⟨[], .standard (fun _ => .stream (fun _ => true)), ()⟩
    let stack : Stack := .truncate (.spinReversal (.truncate (.exhaustive .new)
      ⟨⟨3, by decide⟩, .unsorted, false⟩)) ⟨⟨4, by decide⟩, .unsorted, false⟩
    m.Reachable ∧ m.numVariables ≠ 0 ∧
      ∃ set, (outcome (stack.sampler.sample m .empty) s).1 = .ok set ∧ set.labels = m.labels ∧
        set.samples.rows = [[1, 1], [1, 0], [0, 1], [1, 1]] ∧
        set.samples.rows.map m.energy = [.ok 1, .ok 0, .ok (-1), .ok 1] := by
  intro m s stack
  have hm : m.Reachable := .ofQubo _ 0
  have hn : m.numVariables ≠ 0 := by decide
  let set : SampleSet String Rat := ⟨["a", "b"], ⟨2, [[1, 1], [1, 0], [0, 1], [1, 1]], by decide⟩,
    [1, 0, -1, 1], [1, 1, 1, 1], .binary⟩
  have h : (outcome (stack.sampler.sample m .empty) s).1 = .ok set :=
    toOption_eq_some.mp (by decide +kernel)
  obtain ⟨_, hsome, _⟩ := samples_keep_energies stack m hm .empty s set h
  obtain ⟨hlabels, _, henergies⟩ := hsome hn
  exact ⟨hm, hn, set, h, hlabels, rfl, henergies⟩

/-- Where every layer that drops samples sorts them by energy, the first sample returned has the
least energy of all assignments. -/
theorem first_has_least_energy (stack : Stack) (hsorts : stack.SortsByEnergy) (m : Model V Rat)
    (hm : m.Reachable) (hn : m.numVariables ≠ 0) (params : Params) (s : Session σ)
    (set : SampleSet V Rat) (h : (outcome (stack.sampler.sample m params) s).1 = .ok set) :
    set.size ≠ 0 ∧ ∃ r, set.first? = some r ∧ m.energy r.sample = .ok r.energy ∧
      ∀ x : List Int, x.length = m.numVariables → (∀ v ∈ x, m.vartype.contains v = true) →
        ∃ e, m.energy x = .ok e ∧ r.energy ≤ e := by
  have hanswers : Answers m set stack.SortsByEnergy := stack.sound hm.wellFormed (Prod.ext h rfl)
  have hfaithful := hanswers.toFaithful
  have hleast := hanswers.least hsorts hn
  have hsize := hleast.size_ne_zero
  obtain ⟨r, hfirst, hr, hle⟩ := hfaithful.wellFormed.first? hsize
  obtain ⟨hfits, hleast⟩ := hleast.least hfaithful hfaithful hr hle
  have henergy := (hfaithful.record hr).2
  refine ⟨hsize, r, hfirst, Model.energy_ok.mpr ⟨hfits, henergy⟩, fun x hx hv => ?_⟩
  exact ⟨m.evaluate x, Model.energy_ok.mpr ⟨⟨hx, hv⟩, rfl⟩, henergy ▸ hleast x ⟨hx, hv⟩⟩

theorem first_of_flipped_bits :
    let m : Model String Rat := .ofQubo [(("a", "b"), 2), (("b", "b"), -1)] 0
    let s : Session Unit := ⟨[], .standard (fun _ => .stream (fun _ => true)), ()⟩
    let stack : Stack := .spinReversal (.truncate (.exhaustive .new)
      ⟨⟨2, by decide⟩, .energy, true⟩)
    stack.SortsByEnergy ∧ m.Reachable ∧ m.numVariables ≠ 0 ∧
      ∃ set r, (outcome (stack.sampler.sample m .empty) s).1 = .ok set ∧ set.first? = some r ∧
        m.energy r.sample = .ok r.energy ∧ r.energy ≤ -1 := by
  intro m s stack
  have hsorts : stack.SortsByEnergy := ⟨rfl, trivial⟩
  have hm : m.Reachable := .ofQubo _ 0
  have hn : m.numVariables ≠ 0 := by decide
  have hsome : (outcome (stack.sampler.sample m .empty) s).1.toOption.isSome = true := by
    decide +kernel
  obtain ⟨set, hset⟩ := Option.isSome_iff_exists.mp hsome
  have h := toOption_eq_some.mp hset
  obtain ⟨_, r, hfirst, henergy, hleast⟩ :=
    first_has_least_energy stack hsorts m hm hn .empty s set h
  obtain ⟨e, he, hle⟩ := hleast [0, 1] rfl (by decide)
  have hvalue : m.energy [0, 1] = .ok (-1) := toOption_eq_some.mp (by decide +kernel)
  rw [hvalue] at he
  cases he
  exact ⟨hsorts, hm, hn, set, r, h, hfirst, henergy, hle⟩

end Stack
end BinaryQuadratic
