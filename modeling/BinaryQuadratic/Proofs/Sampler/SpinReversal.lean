import BinaryQuadratic.Proofs.Sampler.Outcome
import BinaryQuadratic.Sampler.SpinReversal

namespace BinaryQuadratic.SpinReversal
open SampleM

variable {σ V R : Type}

/-- The number of transforms that parameters ask for. -/
def transformsAsked (params : Params) : Except ParamError PositiveSize :=
  (params.takeSize transformsName).1.bind transformCount

/-- The seed that parameters give, if they give one. -/
def seedAsked (params : Params) : Except ParamError (Option UInt64) :=
  (params.takeUInt64 seedName).1

/-- What is left for the child: neither what nobody declares, nor what the layer takes itself. -/
def remaining (child : Sampler σ V R) (params : Params) : Params :=
  ((params.known (parametersOver child)).erase transformsName).erase seedName

theorem get?_transformsName_remaining (child : Sampler σ V R) (params : Params) :
    (remaining child params).get? transformsName = none := by
  simp [remaining, Params.get?_erase]

theorem transformsAsked_of_absent {params : Params} (h : params.get? transformsName = none) :
    transformsAsked params = .ok defaultTransforms := by
  have htaken : (params.takeSize transformsName).1 = .ok none :=
    (params.takeWith_eq_none ..).mpr h
  rw [transformsAsked, htaken]
  rfl

/-- The number of transforms is the layer's own, and so the child does not see it. -/
theorem remaining_congr (child : Sampler σ V R) {params params' : Params}
    (h : ∀ name, name ≠ transformsName → params.get? name = params'.get? name) :
    remaining child params = remaining child params' := by
  refine Params.ext_get? (fun name => ?_)
  simp only [remaining, Params.get?_erase, Params.get?_known]
  by_cases hname : name = transformsName
  · simp [hname]
  · rw [h name hname]

/-- Both names are declared by the layer, so that dropping the unknown keeps them. -/
theorem get?_known_own {child : Sampler σ V R} {name : String}
    (hname : name = transformsName ∨ name = seedName) (params : Params) :
    (params.known (parametersOver child)).get? name = params.get? name := by
  have hdeclared : (parametersOver child).contains name = true := by
    rcases hname with rfl | rfl <;> simp [parametersOver, NameMap.contains_insert]
  rw [Params.get?_known, if_pos hdeclared]

variable [DecidableEq V] [Coefficient R]

/-- The child answers for the model with the variables flipped, and its answer is flipped back. -/
theorem transform_ok {child : Sampler σ V R} {m : Model V R} {params : Params} {flips : List V}
    {s s' : Session σ} {set : SampleSet V R} :
    outcome (transform child m params flips) s = (.ok set, s') ↔
      ∃ transformed inner, flips.foldlM Model.flipVariable m = .ok transformed ∧
        outcome (child.sample transformed params) s = (.ok inner, s') ∧
        inner.flipVariables flips = .ok set := by
  simp only [transform, bind_outcome_ok, ofModel_outcome_ok]
  constructor
  · rintro ⟨transformed, _, ⟨hm, rfl⟩, inner, _, hinner, hset, rfl⟩
    exact ⟨transformed, inner, hm, hinner, hset⟩
  · rintro ⟨transformed, inner, hm, hinner, hset⟩
    exact ⟨transformed, s, ⟨hm, rfl⟩, inner, s', hinner, hset, rfl⟩

/-- A run has one set for each transform, and every set comes out of one. -/
theorem transforms_ok {child : Sampler σ V R} {m : Model V R} {params : Params} {n : Nat}
    {source : BitSource} {s s' : Session σ} {sets : List (SampleSet V R)}
    (h : outcome (transforms child m params n source) s = (.ok sets, s')) :
    sets.length = n ∧ ∀ set ∈ sets, ∃ flips s₁ s₂,
      outcome (transform child m params flips) s₁ = (.ok set, s₂) := by
  induction n generalizing source s s' sets with
  | zero =>
    cases h
    simp
  | succ n ih =>
    obtain ⟨set, s₁, hset, h⟩ := bind_outcome_ok.mp h
    obtain ⟨rest, s₂, hrest, h⟩ := bind_outcome_ok.mp h
    cases h
    obtain ⟨hlength, hsets⟩ := ih hrest
    refine ⟨by rw [List.length_cons, hlength], fun p hp => ?_⟩
    rcases List.mem_cons.mp hp with rfl | hp
    · exact ⟨_, s, s₁, hset⟩
    · exact hsets p hp

/-- A run, by what it takes from its parameters. -/
theorem sample_eq (child : Sampler σ V R) (m : Model V R) (params : Params) :
    sample child m params = (do
      SampleM.logged (params.warnUnknown (parametersOver child))
      let count ← SampleM.ofParam (transformsAsked params)
      let source ← SampleM.bits (← SampleM.ofParam (seedAsked params))
      let sets ←
        transforms child (m.changeVartype .spin) (remaining child params) count.toNat source
      let set ← SampleM.ofModel (SampleSet.concatenate sets)
      return set.changeVartype m.vartype) := by
  let known := params.known (parametersOver child)
  have htransforms : (known.takeSize transformsName).1 = (params.takeSize transformsName).1 :=
    Params.takeWith_congr (get?_known_own (.inl rfl) params)
  have hseed : ((known.erase transformsName).takeUInt64 seedName).1 =
      (params.takeUInt64 seedName).1 := by
    refine Params.takeWith_congr ?_
    rw [Params.get?_erase, if_neg (by decide)]
    exact get?_known_own (.inr rfl) params
  rw [transformsAsked, seedAsked, ← htransforms, ← hseed]
  rfl

/-- What is returned are the joined sets of the transforms of the spin model. -/
theorem sample_ok {child : Sampler σ V R} {m : Model V R} {params : Params} {s s' : Session σ}
    {set : SampleSet V R} (h : outcome (sample child m params) s = (.ok set, s')) :
    ∃ count sets joined, transformsAsked params = .ok count ∧ sets.length = count.toNat ∧
      (∀ p ∈ sets, ∃ flips s₁ s₂, outcome (transform child (m.changeVartype .spin)
        (remaining child params) flips) s₁ = (.ok p, s₂)) ∧
      SampleSet.concatenate sets = .ok joined ∧ set = joined.changeVartype m.vartype := by
  rw [sample_eq] at h
  obtain ⟨_, _, _, h⟩ := bind_outcome_ok.mp h
  obtain ⟨count, _, hcount, h⟩ := bind_outcome_ok.mp h
  obtain ⟨_, _, _, h⟩ := bind_outcome_ok.mp h
  obtain ⟨_, _, _, h⟩ := bind_outcome_ok.mp h
  obtain ⟨sets, _, hsets, h⟩ := bind_outcome_ok.mp h
  obtain ⟨joined, _, hjoined, h⟩ := bind_outcome_ok.mp h
  cases h
  obtain ⟨hlength, hsets⟩ := transforms_ok hsets
  exact ⟨count, sets, joined, (ofParam_outcome_ok.mp hcount).1, hlength, hsets,
    (ofModel_outcome_ok.mp hjoined).1, rfl⟩

end BinaryQuadratic.SpinReversal
