import BinaryQuadratic.Proofs.Sampler.Success

namespace BinaryQuadratic
open SampleM

namespace Params

/-- There is a value under a name, but no integer from `low` to the greatest of 64 bits. -/
def OutOfRange (p : Params) (name : String) (low : Int) : Prop :=
  ∃ x, p.get? name = some x ∧ ∀ k, x.integer? = some k → ¬ (low ≤ k ∧ k < Word.bound)

variable {p : Params} {name : String} {low : Int}

theorem not_outOfRange_of_none (h : p.get? name = none) : ¬ p.OutOfRange name low := by
  simp [OutOfRange, h]

theorem outOfRange_iff {x : Value} {k : Int} (hget : p.get? name = some x)
    (hx : x.integer? = some k) : p.OutOfRange name low ↔ ¬ (low ≤ k ∧ k < Word.bound) := by
  simp [OutOfRange, hget, hx]

end Params

namespace SpinReversal

/-- A seed is refused if it is no word. -/
theorem seedAsked_cases (params : Params) :
    (params.OutOfRange seedName 0 ∧ ∃ x, params.get? seedName = some x ∧
      seedAsked params = .error ⟨seedName, .nonNegativeInteger, x⟩) ∨
    (¬ params.OutOfRange seedName 0 ∧ ∃ seed, seedAsked params = .ok seed) := by
  rcases params.take_word_cases seedName .nonNegativeInteger with
    ⟨hget, hseed⟩ | ⟨x, hget, hout, hseed⟩ | ⟨x, n, hget, hx, hseed⟩
  · exact .inr ⟨Params.not_outOfRange_of_none hget, _, hseed⟩
  · exact .inl ⟨⟨x, hget, hout⟩, x, hget, hseed⟩
  · have hlt := toNat_lt_word n
    refine .inr ⟨?_, _, hseed⟩
    rw [Params.outOfRange_iff hget hx]
    omega

/-- Why a value is no number of transforms. -/
def transformsError (x : Value) : ParamError :=
  if x.integer? = some 0 then ⟨transformsName, .positiveInteger, .int 0⟩
  else ⟨transformsName, .size, x⟩

/-- A number of transforms is refused if it is no word, and if it is zero. -/
theorem transformsAsked_cases (params : Params) :
    (params.OutOfRange transformsName 1 ∧ ∃ x, params.get? transformsName = some x ∧
      transformsAsked params = .error (transformsError x)) ∨
    (¬ params.OutOfRange transformsName 1 ∧ ∃ count, transformsAsked params = .ok count ∧
      (params.get? transformsName = none ∧ count.toNat = 2 ∨
        ∃ x, params.get? transformsName = some x ∧ x.integer? = some (count.toNat : Int))) := by
  unfold transformsAsked Params.takeSize
  rcases params.take_word_cases transformsName .size with
    ⟨hget, hgiven⟩ | ⟨x, hget, hout, hgiven⟩ | ⟨x, n, hget, hx, hgiven⟩
  · rw [hgiven]
    exact .inr ⟨Params.not_outOfRange_of_none hget, _, rfl, .inl ⟨hget, rfl⟩⟩
  · have hzero : x.integer? ≠ some 0 := fun h => hout 0 h ⟨le_refl 0, by decide⟩
    refine .inl ⟨⟨x, hget, fun k hk hin => hout k hk ⟨by omega, hin.2⟩⟩, x, hget, ?_⟩
    rw [hgiven, transformsError, if_neg hzero]
    rfl
  · have hlt := toNat_lt_word n
    rw [hgiven, Params.outOfRange_iff hget hx]
    by_cases hn : 0 < n
    · have hpos : 0 < n.toNat := UInt64.lt_iff_toNat_lt.mp hn
      refine .inr ⟨by omega, ⟨n, hn⟩, ?_, .inr ⟨x, hget, hx⟩⟩
      simp [Except.bind, transformCount, PositiveSize.ofUInt64, hn, Except.mapError]
    · -- only a zero is reported as the integer it was read as, not as the value it came from
      obtain rfl : n = 0 := by simpa using hn
      have hzero : x.integer? = some 0 := hx
      refine .inl ⟨by decide, x, hget, ?_⟩
      rw [transformsError, if_pos hzero]
      rfl

variable {σ V R : Type}

/-- The variables that each of `n` transforms flips. -/
def plan (m : Model V R) : Nat → BitSource → List (List V)
  | 0, _ => []
  | n + 1, source =>
    let (bits, source) := source.draw m.numVariables
    chosen m.labels bits :: plan m n source

theorem length_plan (m : Model V R) (n : Nat) (source : BitSource) :
    (plan m n source).length = n := by
  induction n generalizing source with
  | zero => rfl
  | succ n ih => simp [plan, ih]

theorem sublist_of_mem_plan {m : Model V R} {n : Nat} {source : BitSource} {flips : List V}
    (h : flips ∈ plan m n source) : flips.Sublist m.labels := by
  induction n generalizing source with
  | zero => cases h
  | succ n ih =>
    rcases List.mem_cons.mp h with rfl | h
    · exact chosen_sublist ..
    · exact ih h

/-- The child is told what it declares itself, except under the two names of the layer, which it
may declare as well. -/
theorem get?_remaining (child : Sampler σ V R) (params : Params) (name : String) :
    (remaining child params).get? name =
      if child.parameters.contains name = true ∧ name ≠ transformsName ∧ name ≠ seedName
      then params.get? name else none := by
  rw [remaining, Params.get?_erase, Params.get?_erase, Params.get?_known, parametersOver,
    NameMap.contains_insert, NameMap.contains_insert]
  by_cases hseed : name = seedName
  · simp [hseed]
  · by_cases htransforms : name = transformsName
    · simp [htransforms]
    · have hseed' : seedName ≠ name := fun h => hseed h.symm
      have htransforms' : transformsName ≠ name := fun h => htransforms h.symm
      simp [hseed, hseed', htransforms, htransforms']

variable [DecidableEq V]

/-- An answer of the child with some variables flipped back. A failure of the child stays as it
is. -/
def flippedBack (flips : List V) (given : Except (SampleError V) (SampleSet V R)) :
    Except (SampleError V) (SampleSet V R) :=
  given.bind (fun inner => (inner.flipVariables flips).mapError .model)

/-- What a run makes of the sets of its calls. A failure of one of them stays as it is. -/
def joined (t : Vartype) (result : Except (SampleError V) (List (SampleSet V R))) :
    Except (SampleError V) (SampleSet V R) :=
  result.bind (fun sets => ((SampleSet.concatenate sets).mapError .model).map (·.changeVartype t))

variable [Coefficient R]

/-- One call of a child, for a model with some variables flipped. `answer` is what comes of it with
these flipped back. -/
structure Call (child : Sampler σ V R) (m : Model V R) (params : Params) (flips : List V)
    (s : Session σ) (transformed : Model V R) (answer : Except (SampleError V) (SampleSet V R))
    (s' : Session σ) : Prop where
  flipped : flips.foldlM Model.flipVariable m = .ok transformed
  answered : answer = flippedBack flips (outcome (child.sample transformed params) s).1
  session : s' = (outcome (child.sample transformed params) s).2

/-- Calls in a row, all with the same parameters, which flip the variables of a plan in turn. `made`
are the models of the calls. Each call takes over the session from the one before it, and the
first one that fails is the last. -/
inductive Calls (child : Sampler σ V R) (m : Model V R) (params : Params) :
    List (List V) → Session σ → List (Model V R) →
      Except (SampleError V) (List (SampleSet V R)) → Session σ → Prop where
  | done (s : Session σ) : Calls child m params [] s [] (.ok []) s
  | failed {flips : List V} {plan : List (List V)} {transformed : Model V R} {why : SampleError V}
      {s s' : Session σ} (call : Call child m params flips s transformed (.error why) s') :
      Calls child m params (flips :: plan) s [transformed] (.error why) s'
  | next {flips : List V} {plan : List (List V)} {transformed : Model V R} {set : SampleSet V R}
      {made : List (Model V R)} {result : Except (SampleError V) (List (SampleSet V R))}
      {s s₁ s' : Session σ} (call : Call child m params flips s transformed (.ok set) s₁)
      (later : Calls child m params plan s₁ made result s') :
      Calls child m params (flips :: plan) s (transformed :: made) (result.map (set :: ·)) s'

variable {child : Sampler σ V R} {m : Model V R} {params : Params} {s s' : Session σ}

theorem Call.unique {flips : List V} {transformed transformed' : Model V R}
    {answer answer' : Except (SampleError V) (SampleSet V R)} {t : Session σ}
    (h : Call child m params flips s transformed answer s')
    (h' : Call child m params flips s transformed' answer' t) :
    transformed' = transformed ∧ answer' = answer ∧ t = s' := by
  cases h.flipped.symm.trans h'.flipped
  exact ⟨rfl, h'.answered.trans h.answered.symm, h'.session.trans h.session.symm⟩

/-- Variables of a model can be flipped, however the model was made. -/
theorem exists_call (child : Sampler σ V R) (params : Params) {flips : List V}
    (h : ∀ v ∈ flips, v ∈ m.labels) (s : Session σ) :
    ∃ transformed answer s', Call child m params flips s transformed answer s' := by
  have hstep : ∀ m' : Model V R, ∀ v ∈ flips, m'.labels = m.labels →
      ∃ m₁, m'.flipVariable v = .ok m₁ ∧ m₁.labels = m.labels := by
    intro m' v hv hlabels
    have hsome : (m'.indexOf? v).isSome = true := by simpa [Model.indexOf?, hlabels] using h v hv
    obtain ⟨k, hk⟩ := Option.isSome_iff_exists.mp hsome
    exact ⟨m'.flipAt k, Model.flipVariable_ok.mpr ⟨k, hk, rfl⟩,
      (Model.labels_flipAt m' k).trans hlabels⟩
  obtain ⟨transformed, hflips, _⟩ := foldlM_succeeds hstep rfl
  exact ⟨transformed, _, _, hflips, rfl, rfl⟩

/-- A transform is one call. -/
theorem Call.outcome_transform {flips : List V} {transformed : Model V R}
    {answer : Except (SampleError V) (SampleSet V R)}
    (h : Call child m params flips s transformed answer s') :
    outcome (transform child m params flips) s = (answer, s') := by
  rw [transform, outcome_bind, outcome_ofModel, h.flipped, h.answered, h.session]
  change outcome (child.sample transformed params >>= _) s = _
  rw [outcome_bind]
  rcases outcome (child.sample transformed params) s with ⟨why | inner, s₁⟩
  · rfl
  · exact outcome_ofModel _ s₁

theorem Calls.made_ne_nil {plan : List (List V)} {made : List (Model V R)}
    {result : Except (SampleError V) (List (SampleSet V R))}
    (h : Calls child m params plan s made result s') (hplan : plan ≠ []) : made ≠ [] := by
  cases h with
  | done => exact absurd rfl hplan
  | failed | next => simp

/-- Where nothing fails, the whole plan is carried out. -/
theorem Calls.length_of_ok {plan : List (List V)} {made : List (Model V R)}
    {sets : List (SampleSet V R)} (h : Calls child m params plan s made (.ok sets) s') :
    made.length = plan.length ∧ sets.length = plan.length := by
  generalize hresult : Except.ok sets = result at h
  induction h generalizing sets with
  | done =>
    cases hresult
    exact ⟨rfl, rfl⟩
  | failed => cases hresult
  | @next _ _ _ _ _ result _ _ _ _ _ ih =>
    cases result with
    | error => cases hresult
    | ok rest =>
      cases hresult
      obtain ⟨hmade, hsets⟩ := ih rfl
      exact ⟨by simp [hmade], by simp [hsets]⟩

/-- There is only one way for the calls of a plan to go. -/
theorem Calls.unique {plan : List (List V)} {made made' : List (Model V R)} {t : Session σ}
    {result result' : Except (SampleError V) (List (SampleSet V R))}
    (h : Calls child m params plan s made result s')
    (h' : Calls child m params plan s made' result' t) :
    made' = made ∧ result' = result ∧ t = s' := by
  induction h generalizing made' result' t with
  | done =>
    cases h'
    exact ⟨rfl, rfl, rfl⟩
  | failed call =>
    cases h' with
    | failed call' =>
      obtain ⟨rfl, hwhy, rfl⟩ := call.unique call'
      cases hwhy
      exact ⟨rfl, rfl, rfl⟩
    | next call' later' => cases (call.unique call').2.1
  | next call later ih =>
    cases h' with
    | failed call' => cases (call.unique call').2.1
    | next call' later' =>
      obtain ⟨rfl, hset, rfl⟩ := call.unique call'
      cases hset
      obtain ⟨rfl, rfl, rfl⟩ := ih later'
      exact ⟨rfl, rfl, rfl⟩

/-- The transforms after the first are made if that succeeds. -/
theorem outcome_transforms_succ (n : Nat) (source : BitSource) :
    outcome (transforms child m params (n + 1) source) s =
      match outcome (transform child m params (chosen m.labels (source.draw m.numVariables).1)) s
      with
      | (.error why, s₁) => (.error why, s₁)
      | (.ok set, s₁) =>
        let rest := outcome (transforms child m params n (source.draw m.numVariables).2) s₁
        (rest.1.map (set :: ·), rest.2) := by
  rw [transforms]
  change outcome (transform child m params _ >>= _) s = _
  rw [outcome_bind]
  rcases outcome (transform child m params _) s with ⟨why | set, s₁⟩
  · rfl
  · dsimp only
    rw [outcome_bind]
    rcases outcome (transforms child m params n _) s₁ with ⟨why | sets, s₂⟩ <;> rfl

/-- Transforms in a row are the calls of their plan. -/
theorem calls_transforms (child : Sampler σ V R) (m : Model V R) (params : Params) (n : Nat)
    (source : BitSource) (s : Session σ) :
    ∃ made result s', outcome (transforms child m params n source) s = (result, s') ∧
      Calls child m params (plan m n source) s made result s' := by
  induction n generalizing source s with
  | zero => exact ⟨[], _, _, rfl, .done s⟩
  | succ n ih =>
    have hown : ∀ v ∈ chosen m.labels (source.draw m.numVariables).1, v ∈ m.labels :=
      fun v => mem_of_mem_chosen
    obtain ⟨transformed, answer, s₁, hcall⟩ := exists_call child params hown s
    rw [outcome_transforms_succ, hcall.outcome_transform]
    cases answer with
    | error why => exact ⟨_, _, _, rfl, .failed hcall⟩
    | ok set =>
      obtain ⟨made, result, s', hrest, hcalls⟩ := ih (source.draw m.numVariables).2 s₁
      exact ⟨_, _, s', by simp [hrest], .next hcall hcalls⟩

/-- The session with the warnings that a run begins with. -/
def warned (child : Sampler σ V R) (params : Params) (s : Session σ) : Session σ :=
  { s with warnings := s.warnings ++ params.unknown (parametersOver child) }

/-- A run comes to an end with its parameters, or goes on to what they ask for. -/
theorem outcome_sample (child : Sampler σ V R) (m : Model V R) (params : Params) (s : Session σ) :
    outcome (sample child m params) s =
      match transformsAsked params, seedAsked params with
      | .error why, _ => (.error (.param why), warned child params s)
      | .ok _, .error why => (.error (.param why), warned child params s)
      | .ok count, .ok seed => outcome (do
          let source ← SampleM.bits seed
          let sets ←
            transforms child (m.changeVartype .spin) (remaining child params) count.toNat source
          let set ← SampleM.ofModel (SampleSet.concatenate sets)
          return set.changeVartype m.vartype) (warned child params s) := by
  rw [sample_eq, outcome_bind, outcome_warnUnknown]
  dsimp only
  rw [outcome_bind, outcome_ofParam]
  cases transformsAsked params with
  | error why => rfl
  | ok count =>
    change outcome (SampleM.ofParam (seedAsked params) >>= _) (warned child params s) = _
    rw [outcome_bind, outcome_ofParam]
    cases seedAsked params <;> rfl

/-- Nothing but transforms and the joining of their sets comes after the parameters. -/
theorem outcome_of_transforms {count : PositiveSize} {seed : Option UInt64}
    (hcount : transformsAsked params = .ok count) (hseed : seedAsked params = .ok seed)
    (child : Sampler σ V R) (m : Model V R) (s : Session σ) :
    ∃ source randomness, outcome (SampleM.bits seed : SampleM σ V BitSource)
        (warned child params s) =
          (.ok source, { warned child params s with randomness := randomness }) ∧
      ∀ result s', outcome (transforms child (m.changeVartype .spin) (remaining child params)
          count.toNat source)
          { warned child params s with randomness := randomness } = (result, s') →
        outcome (sample child m params) s = (joined m.vartype result, s') := by
  obtain ⟨source, randomness, hbits⟩ := outcome_bits_ok (V := V) seed (warned child params s)
  refine ⟨source, randomness, hbits, fun result s' hrun => ?_⟩
  rw [outcome_sample, hcount, hseed]
  dsimp only
  rw [outcome_bind, hbits]
  dsimp only
  rw [outcome_bind, hrun]
  cases result with
  | error why => rfl
  | ok sets =>
    dsimp only
    rw [outcome_bind, outcome_ofModel, joined, Except.bind]
    cases SampleSet.concatenate sets <;> rfl

/-- Parameters are looked at first, the number of transforms before the seed, and one that is out
of range is reported before the child is called. Otherwise there is a call for each transform, of
which there are two if none are asked for, with the variables flipped that the bits drawn for it
choose. The first call that fails ends the run with its error, and if all succeed, so does the run
unless their sets cannot be joined. -/
theorem calls_until_first_failure (child : Sampler σ V R) (m : Model V R) (params : Params)
    (s : Session σ) :
    (∀ name, (remaining child params).get? name =
      if child.parameters.contains name = true ∧ name ≠ transformsName ∧ name ≠ seedName
      then params.get? name else none) ∧
    (params.OutOfRange transformsName 1 ∧
        (∃ x, params.get? transformsName = some x ∧ outcome (sample child m params) s =
          (.error (.param (transformsError x)), warned child params s)) ∨
      ¬ params.OutOfRange transformsName 1 ∧ params.OutOfRange seedName 0 ∧
        (∃ x, params.get? seedName = some x ∧ outcome (sample child m params) s =
          (.error (.param ⟨seedName, .nonNegativeInteger, x⟩), warned child params s)) ∨
      ¬ params.OutOfRange transformsName 1 ∧ ¬ params.OutOfRange seedName 0 ∧
        ∃ t : Nat, (params.get? transformsName = none ∧ t = 2 ∨
            ∃ x, params.get? transformsName = some x ∧ x.integer? = some (t : Int)) ∧
          ∃ seed source randomness made result s', seedAsked params = .ok seed ∧
            outcome (SampleM.bits seed : SampleM σ V BitSource) (warned child params s) =
              (.ok source, { warned child params s with randomness := randomness }) ∧
            (plan (m.changeVartype .spin) t source).length = t ∧
            (∀ flips ∈ plan (m.changeVartype .spin) t source, flips.Sublist m.labels) ∧
            (∀ made' result' s₁, Calls child (m.changeVartype .spin) (remaining child params)
                (plan (m.changeVartype .spin) t source)
                { warned child params s with randomness := randomness } made' result' s₁ ↔
              made' = made ∧ result' = result ∧ s₁ = s') ∧
            made ≠ [] ∧ (∀ sets, result = .ok sets → made.length = t ∧ sets.length = t) ∧
            outcome (sample child m params) s = (joined m.vartype result, s')) := by
  refine ⟨get?_remaining child params, ?_⟩
  rcases transformsAsked_cases params with ⟨hout, x, hx, herror⟩ | ⟨hin, count, hcount, hasked⟩
  · exact .inl ⟨hout, x, hx, by rw [outcome_sample, herror]⟩
  rcases seedAsked_cases params with ⟨hout, x, hx, herror⟩ | ⟨hseedIn, seed, hseed⟩
  · exact .inr (.inl ⟨hin, hout, x, hx, by rw [outcome_sample, hcount, herror]⟩)
  obtain ⟨source, randomness, hbits, hrun⟩ := outcome_of_transforms hcount hseed child m s
  obtain ⟨made, result, s', htransforms, hcalls⟩ := calls_transforms child
    (m.changeVartype .spin) (remaining child params) count.toNat source
    { warned child params s with randomness := randomness }
  have hlength := length_plan (m.changeVartype .spin) count.toNat source
  refine .inr (.inr ⟨hin, hseedIn, count.toNat, hasked, seed, source, randomness, made, result, s',
    hseed, hbits, hlength, fun flips hflips => ?_, fun made' result' s₁ => ⟨hcalls.unique, ?_⟩,
    hcalls.made_ne_nil ?_, ?_, hrun _ _ htransforms⟩)
  · rw [← Model.labels_changeVartype m .spin]
    exact sublist_of_mem_plan hflips
  · rintro ⟨rfl, rfl, rfl⟩
    exact hcalls
  · exact List.ne_nil_of_length_pos (hlength.symm ▸ count.toNat_pos)
  · rintro sets rfl
    rw [← hlength]
    exact hcalls.length_of_ok

end SpinReversal
end BinaryQuadratic
