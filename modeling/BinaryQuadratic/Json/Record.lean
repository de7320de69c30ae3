import BinaryQuadratic.Json.Basic

namespace BinaryQuadratic.Json

/-- The member named `name`, when there is exactly one. -/
def member? (name : String) (members : List (String × Json)) : Option Json :=
  match members.filter (·.1 == name) with
  | [(_, x)] => some x
  | _ => none

/-- The parts of a record, in the order of their names: an object that has each name once, among
members that are ignored, or an array of just the parts. -/
def parts? (names : List String) : Json → Option (List Json)
  | obj members => names.mapM (member? · members)
  | arr items => if items.length = names.length then some items else none
  | _ => none

/-- The name of a case without contents: a string, or an object with `null` under that name. -/
def case? : Json → Option String
  | str s => some s
  | obj [(s, null)] => some s
  | _ => none

mutual

/-- How deep arrays and objects are nested; a scalar has depth zero. -/
def nesting : Json → Nat
  | arr items => nestingItems items + 1
  | obj members => nestingMembers members + 1
  | _ => 0

def nestingItems : List Json → Nat
  | [] => 0
  | x :: xs => max (nesting x) (nestingItems xs)

def nestingMembers : List (String × Json) → Nat
  | [] => 0
  | (_, x) :: ms => max (nesting x) (nestingMembers ms)

end

/-- Deeper values are refused. -/
def nestingLimit : Nat :=
  127

end BinaryQuadratic.Json
