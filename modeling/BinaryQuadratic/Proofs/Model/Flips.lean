import BinaryQuadratic.Proofs.Model.Counterpart
import BinaryQuadratic.Proofs.Model.Reachable

namespace BinaryQuadratic.Model

variable {V : Type} [DecidableEq V]

/-- The sample in which the variables named an odd number of times have their other value. -/
def flipOdd (t : Vartype) (labels vs : List V) (sample : List Int) : List Int :=
  List.zipWith (fun v x => if vs.count v % 2 = 1 then t.flip x else x) labels sample

theorem flipOdd_nil {t : Vartype} {labels : List V} {sample : List Int}
    (h : sample.length = labels.length) : flipOdd t labels [] sample = sample := by
  refine List.ext_getElem (by simp [flipOdd, h]) (fun i _ _ => ?_)
  simp [flipOdd]

/-- A value that is flipped beforehand counts as named once more. -/
theorem flipOdd_modify {t : Vartype} {labels : List V} (hn : labels.Nodup) {v : V} {k : Nat}
    (hk : labels[k]? = some v) (vs : List V) (sample : List Int) :
    flipOdd t labels vs (sample.modify k t.flip) = flipOdd t labels (v :: vs) sample := by
  apply List.ext_getElem?
  intro i
  simp only [flipOdd, List.getElem?_zipWith, List.getElem?_modify]
  cases hu : labels[i]? with
  | none => rfl
  | some u =>
    cases hx : sample[i]? with
    | none => rfl
    | some x =>
      by_cases hi : k = i
      · subst hi
        obtain rfl : u = v := Option.some.inj (hu.symm.trans hk)
        by_cases hodd : vs.count u % 2 = 1
        · have heven : (vs.count u + 1) % 2 = 0 := by omega
          simp [hodd, heven, Vartype.flip_flip]
        · have hnext : (vs.count u + 1) % 2 = 1 := by omega
          simp [hodd, hnext]
      · -- labels are distinct, so that elsewhere nothing is counted
        have hne : v ≠ u := by
          rintro rfl
          exact hi ((List.getElem?_inj (List.getElem?_eq_some_iff.mp hk).1 hn).mp (hk.trans hu.symm))
        simp [hi, List.count_cons_of_ne hne]

theorem contains_flipOdd {t : Vartype} {sample : List Int} (h : ∀ x ∈ sample, t.contains x = true)
    (labels vs : List V) : ∀ x ∈ flipOdd t labels vs sample, t.contains x = true := by
  intro y hy
  rw [flipOdd, ← List.map_uncurry_zip_eq_zipWith] at hy
  obtain ⟨⟨v, x⟩, hp, rfl⟩ := List.mem_map.mp hy
  have hx := h x (List.of_mem_zip hp).2
  dsimp only [Function.uncurry]
  split
  · exact Vartype.contains_flip hx
  · exact hx

/-- Each flip moves the energy of a sample to its counterpart, whatever was flipped before. -/
theorem WellFormed.evaluate_flips {m m' : Model V Rat} (h : m.WellFormed) {vs : List V}
    (hm' : vs.foldlM Model.flipVariable m = .ok m') {x : List Int} (hx : x.length = m.numVariables) :
    m'.evaluate (flipOdd m.vartype m.labels vs x) = m.evaluate x := by
  induction vs generalizing m x with
  | nil =>
    cases hm'
    rw [flipOdd_nil (by rw [hx, length_labels])]
  | cons v vs ih =>
    obtain ⟨m₁, hv, hvs⟩ := foldlM_cons_ok.mp hm'
    obtain ⟨k, hk, rfl⟩ := flipVariable_ok.mp hv
    have hlabel := h.indexOf?_eq_some.mp hk
    have hlength : (x.modify k m.vartype.flip).length = (m.flipAt k).numVariables := by
      rw [List.length_modify, hx, numVariables_flipAt]
    have hrest := ih (h.flipAt k) hvs hlength
    rw [vartype_flipAt, labels_flipAt, flipOdd_modify h.labels hlabel,
      h.evaluate_flipAt (lt_of_label hlabel) (by simpa using hx),
      modify_involution m.vartype.flip_flip] at hrest
    exact hrest

theorem Fits.flipOdd {R : Type} {m : Model V R} {x : List Int} (hx : m.Fits x) (vs : List V) :
    m.Fits (flipOdd m.vartype m.labels vs x) := by
  refine ⟨?_, contains_flipOdd hx.2 _ _⟩
  rw [Model.flipOdd, List.length_zipWith, length_labels, hx.1, min_self]

/-- Flipping variables of a model, in whatever order and however often, succeeds and gives each
sample its energy back once the variables named an odd number of times are flipped in it. A flip of
anything else fails and leaves every number as it was, also where it is done in place. -/
theorem flips_keep_energies (m : Model V Rat) (hm : m.Reachable) :
    (∀ vs : List V, (∀ v ∈ vs, v ∈ m.labels) → ∃ m', vs.foldlM flipVariable m = .ok m' ∧
      (vs.forM flipInPlace).run.run m = (.ok (), m') ∧
      m'.labels = m.labels ∧ m'.vartype = m.vartype ∧
      ∀ x, m.Fits x → ∃ e, m.energy x = .ok e ∧
        m'.energy (flipOdd m.vartype m.labels vs x) = .ok e) ∧
    ∀ v, v ∉ m.labels → m.flipVariable v = .error (.unknownVariable v) ∧
      (flipInPlace v).run.run m = (.error (.unknownVariable v), m) := by
  have h := hm.wellFormed
  refine ⟨fun vs hvs => ?_, fun v hv => ?_⟩
  · obtain ⟨m', hm', _, hlabels, hvartype⟩ := h.flips hvs
    refine ⟨m', hm', run_flipsInPlace hm', hlabels, hvartype, fun x hx => ?_⟩
    have hfits : m'.Fits (flipOdd m.vartype m.labels vs x) := by
      have hsize : m'.numVariables = m.numVariables := by
        rw [← length_labels, hlabels, length_labels]
      rw [Fits, hsize, hvartype]
      exact hx.flipOdd vs
    exact ⟨m.evaluate x, energy_ok.mpr ⟨hx, rfl⟩,
      energy_ok.mpr ⟨hfits, (h.evaluate_flips hm' hx.1).symm⟩⟩
  · have hfail : m.flipVariable v = .error (.unknownVariable v) := by
      have hnone : m.indexOf? v = none := by
        refine List.findIdx?_eq_none_iff.mpr (fun u hu => ?_)
        simpa using fun he : u = v => hv (he ▸ hu)
      rw [flipVariable, hnone]
    refine ⟨hfail, ?_⟩
    rw [run_flipInPlace, hfail]
    rfl

/-- Bits, two of which interact with a third, flipped three times, once and twice. -/
theorem flips_of_three_bits :
    let m : Model String Rat := ofQubo [(("a", "b"), 3), (("c", "b"), -5), (("b", "b"), 2)] 1
    let vs := ["b", "a", "b", "c", "b", "c"]
    m.Reachable ∧ (∀ v ∈ vs, v ∈ m.labels) ∧ m.Fits [1, 1, 0] ∧ "d" ∉ m.labels ∧
      (∃ m' e, vs.foldlM flipVariable m = .ok m' ∧ m.energy [1, 1, 0] = .ok e ∧
        m'.energy [0, 0, 0] = .ok e) ∧
      (flipInPlace "d").run.run m = (.error (.unknownVariable "d"), m) := by
  intro m vs
  have hm : m.Reachable := .ofQubo _ _
  have hvs : ∀ v ∈ vs, v ∈ m.labels := by decide
  have hx : m.Fits [1, 1, 0] := ⟨rfl, by decide⟩
  have hd : "d" ∉ m.labels := by decide
  have hflipped : flipOdd m.vartype m.labels vs [1, 1, 0] = [0, 0, 0] := by decide
  obtain ⟨hflips, hunknown⟩ := flips_keep_energies m hm
  obtain ⟨m', hm', _, _, _, henergies⟩ := hflips vs hvs
  obtain ⟨e, he, he'⟩ := henergies _ hx
  exact ⟨hm, hvs, hx, hd, ⟨m', e, hm', he, hflipped ▸ he'⟩, (hunknown "d" hd).2⟩

end BinaryQuadratic.Model
