import BinaryQuadratic.Proofs.Params

namespace BinaryQuadratic.Params

/-- The calls that change parameters, make them anew or look for unknown names in them. -/
inductive Edit where
  | insert (name : String) (x : Value)
  | ofList (pairs : List (String × Value))
  | remove (name : String)
  | takeUInt64 (name : String)
  | takeSize (name : String)
  | takeBool (name : String)
  | warnUnknown (declared : Parameters)
  | retainKnown (declared : Parameters)

/-- A plain map of names to values. -/
abbrev Settings := String → Option Value

namespace Edit

def apply : Edit → Params → Logging Params
  | insert name x, p => return (p.replace name x).2
  | ofList pairs, _ => return .ofList pairs
  | remove name, p => return (p.remove name).2
  | takeUInt64 name, p => return (p.takeUInt64 name).2
  | takeSize name, p => return (p.takeSize name).2
  | takeBool name, p => return (p.takeBool name).2
  | warnUnknown declared, p => do
    p.warnUnknown declared
    return p
  | retainKnown declared, p => p.retainKnown declared

/-- What is to become of a plain map. Of the pairs with one name the last is kept. -/
def write : Edit → Settings → Settings
  | insert name x, f => Function.update f name (some x)
  | ofList pairs, _ => fun name => stored? name pairs.reverse
  | remove name, f | takeUInt64 name, f | takeSize name, f | takeBool name, f =>
    Function.update f name none
  | warnUnknown _, f => f
  | retainKnown declared, f => fun name => if name ∈ declared.names then f name else none

/-- The one name that a call is about. -/
def target? : Edit → Option String
  | insert name _ | remove name | takeUInt64 name | takeSize name | takeBool name => some name
  | ofList _ | warnUnknown _ | retainKnown _ => none

/-- The declarations in which a call looks names up. -/
def declared? : Edit → Option Parameters
  | warnUnknown declared | retainKnown declared => some declared
  | _ => none

/-- The names that a call is to warn of: each that has a value and is not declared, once, in
ascending order. -/
structure Reports (e : Edit) (f : Settings) (names : List String) : Prop where
  ascending : names.Pairwise (· < ·)
  mem : ∀ name, name ∈ names ↔
    (f name).isSome = true ∧ ∃ declared, e.declared? = some declared ∧ name ∉ declared.names

end Edit

/-- The parameters after some calls. -/
def run (edits : List Edit) (p : Params) : Logging Params :=
  edits.foldlM (fun p e => e.apply p) p

/-- The plain map after the same calls. -/
def settings (edits : List Edit) (f : Settings) : Settings :=
  edits.foldl (fun f e => e.write f) f

/-- The names that calls in a row are to warn of: those of each call, on what the calls before it
have left. -/
inductive Reported : List Edit → Settings → List String → Prop where
  | nil (f : Settings) : Reported [] f []
  | cons {e : Edit} {edits : List Edit} {f : Settings} {names later : List String}
      (here : e.Reports f names) (rest : Reported edits (e.write f) later) :
      Reported (e :: edits) f (names ++ later)

theorem get?_write_of_ne {e : Edit} {name other : String} (h : e.target? = some name)
    (hne : other ≠ name) (f : Settings) : e.write f other = f other := by
  cases e with
  | ofList | warnUnknown | retainKnown => cases h
  | insert | remove | takeUInt64 | takeSize | takeBool =>
    cases h
    exact Function.update_of_ne hne _ _

/-- What a run of the logging steps gives, and what it adds to the log. -/
def Gives (x : Logging Params) (q : Params) (names : List String) : Prop :=
  ∀ log, x.run log = (q, log ++ names.map .unknownParameter)

theorem gives_pure (q : Params) : Gives (pure q) q [] :=
  fun log => congrArg (Prod.mk q) (List.append_nil log).symm

theorem Gives.bind {x : Logging Params} {next : Params → Logging Params} {q q' : Params}
    {names later : List String} (hx : Gives x q names) (hnext : Gives (next q) q' later) :
    Gives (x >>= next) q' (names ++ later) := by
  intro log
  rw [StateT.run_bind, hx]
  change (next q).run _ = _
  rw [hnext, List.append_assoc, List.map_append]

/-- The names with a value that are not declared, in ascending order. -/
def unknownNames (p : Params) (declared : Parameters) : List String :=
  p.names.filter (fun name => !declared.contains name)

theorem mem_unknownNames {p : Params} {declared : Parameters} {name : String} :
    name ∈ p.unknownNames declared ↔ (p.get? name).isSome = true ∧ name ∉ declared.names := by
  simp [unknownNames, isSome_get?, NameMap.mem_names]

theorem gives_retainKnown (p : Params) (declared : Parameters) :
    Gives (p.retainKnown declared) (p.known declared) (p.unknownNames declared) :=
  p.run_retainKnown declared

theorem gives_warnUnknown (p : Params) (declared : Parameters) :
    Gives (do p.warnUnknown declared; return p) p (p.unknownNames declared) := by
  intro log
  rw [StateT.run_bind, run_warnUnknown]
  rfl

theorem get?_known_mem (p : Params) (declared : Parameters) :
    (p.known declared).get? = fun name => if name ∈ declared.names then p.get? name else none := by
  funext name
  rw [get?_known]
  simp only [NameMap.mem_names]

theorem reports_of_declared? {e : Edit} {declared : Parameters} (h : e.declared? = some declared)
    (p : Params) : e.Reports p.get? (p.unknownNames declared) where
  ascending := p.names_ascending.filter _
  mem := fun name => by
    rw [mem_unknownNames, h]
    simp

theorem reports_nil {e : Edit} (h : e.declared? = none) (f : Settings) : e.Reports f [] where
  ascending := .nil
  mem := fun name => by simp [h]

/-- One call does to parameters what it is to do to a plain map. -/
theorem gives_apply (e : Edit) (p : Params) : ∃ q names, Gives (e.apply p) q names ∧
    q.get? = e.write p.get? ∧ e.Reports p.get? names := by
  have herase (k : String) : (p.erase k).get? = Function.update p.get? k none := by
    funext name
    exact (p.get?_erase k name).trans (Function.update_apply ..).symm
  cases e with
  | insert k x =>
    refine ⟨_, [], gives_pure _, ?_, reports_nil rfl _⟩
    funext name
    exact (p.get?_insert k x name).trans (Function.update_apply ..).symm
  | ofList pairs =>
    exact ⟨_, [], gives_pure _, funext (NameMap.get?_ofList pairs), reports_nil rfl _⟩
  | remove k | takeUInt64 k | takeSize k | takeBool k =>
    exact ⟨_, [], gives_pure _, herase k, reports_nil rfl _⟩
  | warnUnknown declared =>
    exact ⟨p, _, gives_warnUnknown p declared, rfl, reports_of_declared? rfl p⟩
  | retainKnown declared =>
    exact ⟨_, _, gives_retainKnown p declared, get?_known_mem p declared,
      reports_of_declared? rfl p⟩

theorem gives_run (edits : List Edit) (p : Params) : ∃ q names, Gives (run edits p) q names ∧
    q.get? = settings edits p.get? ∧ Reported edits p.get? names := by
  induction edits generalizing p with
  | nil => exact ⟨p, [], gives_pure p, rfl, .nil _⟩
  | cons e edits ih =>
    obtain ⟨q, names, hfirst, hwritten, hreports⟩ := gives_apply e p
    obtain ⟨q', later, hrest, hget, hreported⟩ := ih q
    rw [hwritten] at hget hreported
    exact ⟨q', names ++ later, hfirst.bind hrest, hget, .cons hreports hreported⟩

/-- Parameters show what a plain map holds, and the names in ascending order. -/
structure Shows (p : Params) (f : Settings) : Prop where
  get? : ∀ name, p.get? name = f name
  contains : ∀ name, p.contains name = true ↔ (f name).isSome = true
  names : ∀ name, name ∈ p.names ↔ (f name).isSome = true
  ascending : p.names.Pairwise (· < ·)
  size : p.size = {name | (f name).isSome = true}.ncard

theorem shows_get? (p : Params) : Shows p p.get? where
  get? := fun _ => rfl
  contains := fun _ => mem_names.symm.trans isSome_get?.symm
  names := fun _ => isSome_get?.symm
  ascending := p.names_ascending
  size := p.values.size_eq_ncard

/-- Taking a name out answers with what its value means, with nothing where there is no value, and
else with an error that has the value. The name is without a value in every case, and no other has
changed. -/
structure Takes {α : Type} (f : Settings) (name : String) (expected : Expectation)
    (means : Value → α → Prop) (refused : Value → Prop)
    (taken : Except ParamError (Option α) × Params) : Prop where
  value : ∀ a, taken.1 = .ok (some a) ↔ ∃ x, f name = some x ∧ means x a
  nothing : taken.1 = .ok none ↔ f name = none
  verdict : ∀ x, f name = some x → (∃ a, means x a) ∨ refused x
  error : ∀ e, taken.1 = .error e ↔ ∃ x, f name = some x ∧ refused x ∧ e = ⟨name, expected, x⟩
  absent : taken.2.contains name = false
  others : ∀ other, other ≠ name → taken.2.get? other = f other

/-- A word is taken of the integer that is the same number. Only integers below zero are refused. -/
abbrev TakesWord (f : Settings) (name : String) (expected : Expectation)
    (taken : Except ParamError (Option UInt64) × Params) : Prop :=
  Takes f name expected (fun x n => x.integer? = some (n.toNat : Int))
    (fun x => ∀ k, x.integer? = some k → k < 0) taken

theorem takes_takeWith {α : Type} {read : Value → Option α} {means : Value → α → Prop}
    {refused : Value → Prop} (hmeans : ∀ {x a}, read x = some a ↔ means x a)
    (hrefused : ∀ {x}, read x = none ↔ refused x) (p : Params) (name : String)
    (expected : Expectation) :
    Takes p.get? name expected means refused (p.takeWith name expected read) where
  value := fun a => by
    simp only [takeWith_eq_some, hmeans]
  nothing := p.takeWith_eq_none name expected read
  verdict := fun x _ => by
    cases hx : read x with
    | none => exact .inr (hrefused.mp hx)
    | some a => exact .inl ⟨a, hmeans.mp hx⟩
  error := fun e => by
    simp only [takeWith_eq_error, hrefused]
  absent := by
    have hget := p.get?_erase name name
    rw [if_pos rfl] at hget
    exact (NameMap.contains_eq_isSome _ name).trans (congrArg Option.isSome hget)
  others := fun other hne => (p.get?_erase name other).trans (if_neg hne)

/-- Dropping unknown names keeps those that are declared, and warns of each other one once, in
ascending order. Doing it again changes nothing and warns of nothing. -/
structure Retains (p : Params) (f : Settings) (declared : Parameters) (q : Params)
    (dropped : List String) : Prop where
  gives : Gives (p.retainKnown declared) q dropped
  kept : ∀ name, q.get? name = if name ∈ declared.names then f name else none
  ascending : dropped.Pairwise (· < ·)
  warned : ∀ name, name ∈ dropped ↔ (f name).isSome = true ∧ name ∉ declared.names
  again : Gives (q.retainKnown declared) q []

theorem retains_get? (p : Params) (declared : Parameters) :
    Retains p p.get? declared (p.known declared) (p.unknownNames declared) where
  gives := gives_retainKnown p declared
  kept := congrFun (get?_known_mem p declared)
  ascending := p.names_ascending.filter _
  warned := fun _ => mem_unknownNames
  again := fun log => by
    rw [run_retainKnown, known_known, unknown_known]
    rfl

/-- What parameters answer, and what the next call does to them, is told by a plain map. -/
structure Refines (p : Params) (f : Settings) : Prop where
  shows : Shows p f
  apart : ∀ (e : Edit) name, e.target? = some name →
    ∃ q, Gives (e.apply p) q [] ∧ ∀ other, other ≠ name → q.get? other = f other
  replaces : ∀ name x, (p.replace name x).1 = f name
  removes : ∀ name, (p.remove name).1 = f name
  takesUInt64 : ∀ name, TakesWord f name .nonNegativeInteger (p.takeUInt64 name)
  takesSize : ∀ name, TakesWord f name .size (p.takeSize name)
  takesBool : ∀ name, Takes f name .boolean (fun x b => x = .bool b) (fun x => ∀ b, x ≠ .bool b)
    (p.takeBool name)
  retains : ∀ declared, ∃ q dropped, Retains p f declared q dropped

theorem declared?_of_target? {e : Edit} {name : String} (h : e.target? = some name) :
    e.declared? = none := by
  cases e with
  | ofList | warnUnknown | retainKnown => cases h
  | insert | remove | takeUInt64 | takeSize | takeBool => rfl

theorem refines_get? (p : Params) : Refines p p.get? where
  shows := shows_get? p
  apart := fun e name htarget => by
    obtain ⟨q, names, hgives, hget, hreports⟩ := gives_apply e p
    obtain rfl : names = [] := List.eq_nil_iff_forall_not_mem.mpr (fun k hk => by
      obtain ⟨_, declared, hdeclared, _⟩ := (hreports.mem k).mp hk
      rw [declared?_of_target? htarget] at hdeclared
      cases hdeclared)
    refine ⟨q, hgives, fun other hne => ?_⟩
    rw [hget, get?_write_of_ne htarget hne]
  replaces := fun _ _ => rfl
  removes := fun _ => rfl
  takesUInt64 := fun name =>
    takes_takeWith Value.asUInt64?_eq_some Value.asUInt64?_eq_none_iff_neg p name _
  takesSize := fun name =>
    takes_takeWith Value.asUInt64?_eq_some Value.asUInt64?_eq_none_iff_neg p name _
  takesBool := fun name =>
    takes_takeWith Value.asBool?_eq_some Value.asBool?_eq_none p name _
  retains := fun declared => ⟨_, _, retains_get? p declared⟩

/-- Whatever calls have been made, parameters are the plain map to which the same was done, and
each name that was found unknown has been warned of where that happened. -/
theorem refines_run (edits : List Edit) :
    ∃ p names, (∀ log, (run edits .empty).run log = (p, log ++ names.map .unknownParameter)) ∧
      Refines p (settings edits (fun _ => none)) ∧ Reported edits (fun _ => none) names := by
  have hempty : Params.empty.get? = fun _ => none := rfl
  obtain ⟨p, names, hgives, hget, hreported⟩ := gives_run edits .empty
  rw [hempty] at hget hreported
  exact ⟨p, names, hgives, hget ▸ refines_get? p, hreported⟩

end BinaryQuadratic.Params
