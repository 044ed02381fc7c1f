import ScopedClauses.Mapping.Basic
import ScopedClauses.Scope.Crossing

/-!
Placing a clause in the scope of its field. The boundaries between the position and that scope
are crossed one after the other; a clause that is such a boundary already is used again.
-/

namespace ScopedClauses

class Crossable (E : Type) (P : outParam Type) where
  scopeAt : E → P → Option String
  /-- The position inside a boundary that lies directly below a position. -/
  existing? : E → P → Boundary → Option P
  /-- The position inside a new boundary; none where there is no clause for it. -/
  opened? : E → P → Boundary → Result (Option (P × E))

def cross {E P : Type} [Crossable E P] (refusal : Error) :
    E → P → List Boundary → Result (P × E)
  | engine, position, [] => pure (position, engine)
  | engine, position, boundary :: rest =>
      match Crossable.existing? engine position boundary with
      | some inner => cross refusal engine inner rest
      | none => do
          match ← Crossable.opened? engine position boundary with
          | some (inner, engine) => cross refusal engine inner rest
          | none => throw refusal

def reconcile {E P : Type} [Crossable E P] (engine : E) (position : P) (field : String)
    (mapping : Mapping) (autocorrect : Bool) : Result (P × E) := do
  let required ← mapping.nestedScopes field
  let current := Crossable.scopeAt engine position
  match Crossing.plan current required with
  | .direct => pure (position, engine)
  | crossing =>
      let refusal := Error.invalidNesting field current required.head?
      if autocorrect then cross refusal engine position crossing.steps
      else throw refusal

end ScopedClauses
