import BinaryQuadratic.Proofs.Model.Energy
import BinaryQuadratic.Proofs.Model.Polynomial
import BinaryQuadratic.Proofs.Vartype

namespace BinaryQuadratic.Model

variable {V : Type}

section
variable {R : Type} [Coefficient R] {m : Model V R} {x : List Int}

/-- A flip changes the energies of samples, but not which samples there are. -/
@[simp] theorem fits_flipAt {k : Nat} : (m.flipAt k).Fits x ↔ m.Fits x := by
  simp [Fits]

theorem fits_changeVartype {t : Vartype} : (m.changeVartype t).Fits x ↔
    x.length = m.numVariables ∧ ∀ v ∈ x, t.contains v = true := by
  simp [Fits]

omit [Coefficient R] in
theorem Fits.modify (hx : m.Fits x) (k : Nat) : m.Fits (x.modify k m.vartype.flip) :=
  ⟨(List.length_modify ..).trans hx.1, Vartype.contains_modify hx.2 k⟩

theorem Fits.changeVartype (hx : m.Fits x) (t : Vartype) :
    (m.changeVartype t).Fits (x.map (m.vartype.convert t)) :=
  fits_changeVartype.mpr ⟨(List.length_map ..).trans hx.1, Vartype.contains_map hx.2 t⟩

theorem Fits.convert {t : Vartype} (hx : (m.changeVartype t).Fits x) :
    m.Fits (x.map (t.convert m.vartype)) := by
  obtain ⟨hlength, hdomain⟩ := fits_changeVartype.mp hx
  exact ⟨(List.length_map ..).trans hlength, Vartype.contains_map hdomain m.vartype⟩

end

theorem valueAt_map {sample : List Int} {f : Int → Int} {i : Nat} (hi : i < sample.length) :
    valueAt (sample.map f) i = (f sample[i] : Int) := by
  simp [valueAt, hi]

theorem valueAt_modify {sample : List Int} {k : Nat} {f : Int → Int} (hk : k < sample.length) :
    valueAt (sample.modify k f) = Function.update (valueAt sample) k (f sample[k]) := by
  funext i
  by_cases hi : i = k
  · subst hi
    simp [valueAt, hk]
  · have hne : k ≠ i := fun h => hi h.symm
    simp [valueAt, hi, hne]

theorem cast_convert {t target : Vartype} {x : Int} (hx : t.contains x = true) :
    (t.convert target x : Rat) = rescale t target x := by
  rw [Vartype.contains_iff] at hx
  cases t <;> cases target <;> rcases hx with rfl | rfl <;>
    norm_num [Vartype.convert, Vartype.low, Vartype.high, rescale]

/-- The flipped model gives each sample the energy of its counterpart. -/
theorem WellFormed.evaluate_flipAt {m : Model V Rat} (h : m.WellFormed) {k : Nat}
    (hk : k < m.numVariables) {sample : List Int} (hs : sample.length = m.numVariables) :
    (m.flipAt k).evaluate sample = m.evaluate (sample.modify k m.vartype.flip) := by
  have hk' : k < sample.length := hs ▸ hk
  have hvalue : valueAt sample k = (sample[k] : Int) := by
    simp [valueAt, hk']
  rw [evaluate_eq_polynomial (by simpa using hs), evaluate_eq_polynomial (by simpa using hs),
    valueAt_modify hk']
  cases ht : m.vartype with
  | spin =>
    rw [h.polynomial_flipAt_spin ht hk, hvalue, Vartype.flip, Int.cast_neg]
  | binary =>
    rw [h.polynomial_flipAt_binary ht hk, hvalue, Vartype.flip, Int.cast_sub, Int.cast_one]

/-- A model over another domain gives each sample the energy of its counterpart. -/
theorem WellFormed.evaluate_changeVartype {m : Model V Rat} (h : m.WellFormed) {t : Vartype}
    {sample : List Int} (hs : (m.changeVartype t).Fits sample) :
    (m.changeVartype t).evaluate sample = m.evaluate (sample.map (t.convert m.vartype)) := by
  obtain ⟨hlength, hdomain⟩ := fits_changeVartype.mp hs
  rw [evaluate_eq_polynomial hs.1, evaluate_eq_polynomial hs.convert.1,
    h.polynomial_changeVartype]
  apply h.polynomial_congr
  intro i hi
  have hi' : i < sample.length := hlength ▸ hi
  have hvalue : valueAt sample i = (sample[i] : Int) := by
    simp [valueAt, hi']
  rw [valueAt_map hi', cast_convert (hdomain _ (List.getElem_mem hi')), hvalue]

/-- The same, from the side of the model. -/
theorem WellFormed.evaluate_convert {m : Model V Rat} (h : m.WellFormed) {sample : List Int}
    (hs : m.Fits sample) (t : Vartype) :
    (m.changeVartype t).evaluate (sample.map (m.vartype.convert t)) = m.evaluate sample := by
  rw [h.evaluate_changeVartype (hs.changeVartype t), Vartype.map_convert_convert hs.2]

/-- No sample that fits has less energy. -/
def Least (m : Model V Rat) (x : List Int) : Prop :=
  m.Fits x ∧ ∀ y, m.Fits y → m.evaluate x ≤ m.evaluate y

/-- Every sample of a model is the counterpart of one of the flipped model, so least samples have
least counterparts. -/
theorem WellFormed.least_modify {m : Model V Rat} (h : m.WellFormed) {k : Nat}
    (hk : k < m.numVariables) {x : List Int} (hx : (m.flipAt k).Least x) :
    m.Least (x.modify k m.vartype.flip) := by
  obtain ⟨hfits, hleast⟩ := hx
  rw [fits_flipAt] at hfits
  refine ⟨hfits.modify k, fun y hy => ?_⟩
  have hy' := hy.modify k
  have hle := hleast _ (fits_flipAt.mpr hy')
  rwa [h.evaluate_flipAt hk hfits.1, h.evaluate_flipAt hk hy'.1,
    modify_involution m.vartype.flip_flip] at hle

theorem WellFormed.least_convert {m : Model V Rat} (h : m.WellFormed) {t : Vartype}
    {x : List Int} (hx : (m.changeVartype t).Least x) :
    m.Least (x.map (t.convert m.vartype)) := by
  obtain ⟨hfits, hleast⟩ := hx
  refine ⟨hfits.convert, fun y hy => ?_⟩
  have hy' := hy.changeVartype t
  have hle := hleast _ hy'
  rwa [h.evaluate_changeVartype hfits, h.evaluate_changeVartype hy',
    Vartype.map_convert_convert hy.2] at hle

end BinaryQuadratic.Model
