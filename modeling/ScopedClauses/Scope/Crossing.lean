import ScopedClauses.Scope.Basic

/-!
The boundaries to cross on the way from one scope to another. Scopes are listed deepest first
where they are required, and crossed from the outermost inwards.
-/

namespace ScopedClauses

inductive Crossing where
  | direct
  | enter (scopes : List String)
  | exit (target : Option String) (scopes : List String)
deriving Repr, DecidableEq

def isWithin (scope outer : String) : Bool :=
  (outer.toList ++ ['.']).isPrefixOf scope.toList

namespace Crossing

def steps : Crossing → List Boundary
  | .direct => []
  | .enter scopes => scopes.map .enter
  | .exit target scopes => .exit target :: scopes.map .enter

def inside (required : List String) (scope : String) : List String :=
  (required.takeWhile (· ≠ scope)).reverse

/-- The crossing from `current` to the first of the required scopes. Scopes that enclose both
are not left. -/
def plan (current : Option String) (required : List String) : Crossing :=
  if current = required.head? then .direct
  else match current with
    | none => .enter required.reverse
    | some scope =>
        if required.contains scope then .enter (inside required scope)
        else match required.find? (isWithin scope) with
          | some common => .exit (some common) (inside required common)
          | none => .exit none required.reverse

end Crossing

end ScopedClauses
