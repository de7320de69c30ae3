import BinaryQuadratic.Value.Json
import BinaryQuadratic.Value.Text

namespace BinaryQuadratic

/-- What a sampler tells about itself, by name. -/
abbrev Properties := NameMap Value

/-- The parameters a sampler accepts, each with the properties that bear on it. -/
abbrev Parameters := NameMap (List String)

namespace Properties

def toJson (m : Properties) : Json :=
  .obj (Value.toJsonEntries m.entries)

/-- Reads values by name from an object that stands inside `outer` others. -/
def ofJsonIn? (outer : Nat) : Json → Option Properties
  | .obj members => do
    let entries ← members.mapM (fun (k, x) => (Value.ofJsonIn? (outer + 1) x).map (k, ·))
    return NameMap.ofList entries
  | _ => none

def beq (m m' : Properties) : Bool :=
  Value.beqEntries m.entries m'.entries

end Properties

namespace Parameters

def ofJson? : Json → Option Parameters
  | .obj members => do
    let entries ← members.mapM (fun (k, x) => do
      let names ← (← x.arr?).mapM Json.str?
      return (k, names))
    return NameMap.ofList entries
  | _ => none

end Parameters

inductive Warning where
  | unknownParameter (name : String)
  deriving DecidableEq, Repr

def Warning.message : Warning → String
  | unknownParameter name => "ignoring unknown parameter `" ++ name ++ "`"

/-- A step that may log warnings, after those that are logged already. -/
abbrev Logging :=
  StateM (List Warning)

def Logging.warn (w : Warning) : Logging Unit :=
  modify (· ++ [w])

/-- What a parameter was expected to be. -/
inductive Expectation where
  | nonNegativeInteger
  | size
  | boolean
  | positiveInteger
  deriving DecidableEq, Repr

def Expectation.text : Expectation → String
  | nonNegativeInteger => "a non-negative integer"
  | size => "a size"
  | boolean => "a boolean"
  | positiveInteger => "a positive integer"

structure ParamError where
  name : String
  expected : Expectation
  found : Value

def ParamError.message (e : ParamError) : String :=
  "parameter `" ++ e.name ++ "` expected " ++ e.expected.text ++ ", found " ++ e.found.text

/-- The settings of one call of a sampler. -/
structure Params where
  values : NameMap Value

namespace Params

def empty : Params :=
  ⟨NameMap.empty⟩

def ofList (pairs : List (String × Value)) : Params :=
  ⟨NameMap.ofList pairs⟩

def insert (p : Params) (name : String) (x : Value) : Params :=
  ⟨p.values.insert name x⟩

def get? (p : Params) (name : String) : Option Value :=
  p.values.get? name

def erase (p : Params) (name : String) : Params :=
  ⟨p.values.erase name⟩

/-- Sets the value of `name`, and tells the one it had. -/
def replace (p : Params) (name : String) (x : Value) : Option Value × Params :=
  (p.get? name, p.insert name x)

/-- Takes the value of `name` out. -/
def remove (p : Params) (name : String) : Option Value × Params :=
  (p.get? name, p.erase name)

def contains (p : Params) (name : String) : Bool :=
  p.values.contains name

def size (p : Params) : Nat :=
  p.values.size

def isEmpty (p : Params) : Bool :=
  p.values.isEmpty

def names (p : Params) : List String :=
  p.values.names

instance : BEq Params := ⟨fun p q => Value.beqEntries p.values.entries q.values.entries⟩

/-- Takes the value of `name` out. A value of the wrong kind is an error, and taken out all the
same. -/
def takeWith (p : Params) (name : String) (expected : Expectation) (read : Value → Option α) :
    Except ParamError (Option α) × Params :=
  let (taken, rest) := p.remove name
  let answer := match taken with
    | none => .ok none
    | some x =>
      match read x with
      | some a => .ok (some a)
      | none => .error ⟨name, expected, x⟩
  (answer, rest)

def takeUInt64 (p : Params) (name : String) : Except ParamError (Option UInt64) × Params :=
  p.takeWith name .nonNegativeInteger Value.asUInt64?

/-- Sizes are 64 bits wide. -/
def takeSize (p : Params) (name : String) : Except ParamError (Option UInt64) × Params :=
  p.takeWith name .size Value.asUInt64?

def takeBool (p : Params) (name : String) : Except ParamError (Option Bool) × Params :=
  p.takeWith name .boolean Value.asBool?

/-- One warning for each name that is not declared, in the order of the names. -/
def unknown (p : Params) (declared : Parameters) : List Warning :=
  (p.names.filter (fun name => !declared.contains name)).map .unknownParameter

def warnUnknown (p : Params) (declared : Parameters) : Logging Unit :=
  (p.unknown declared).forM Logging.warn

/-- What is left without the names that are not declared. -/
def known (p : Params) (declared : Parameters) : Params :=
  ⟨p.values.restrict declared.contains⟩

/-- Drops the names that are not declared, and logs a warning for each. -/
def retainKnown (p : Params) (declared : Parameters) : Logging Params := do
  p.warnUnknown declared
  return p.known declared

def toJson (p : Params) : Json :=
  Properties.toJson p.values

def ofJson? (j : Json) : Option Params :=
  (Properties.ofJsonIn? 0 j).map Params.mk

end Params
end BinaryQuadratic
