import ScopedClauses.Tree.Basic

/-!
Nested scopes of tree positions. A node may enter a scope or leave scopes; the nearest such
node, from a position outwards, decides the scope there.
-/

namespace ScopedClauses

inductive Boundary where
  | enter (path : String)
  /-- Leaves nested scopes, up to a path or to the document. -/
  | exit (target : Option String)
deriving Repr, DecidableEq

def Boundary.inside : Boundary → Option String
  | .enter path => some path
  | .exit target => target

class Scoped (N : Type) where
  boundary? : N → Option Boundary

namespace Tree

variable {N : Type} [Scoped N]

def currentScope (tree : Tree N) (id : Nat) : Option String :=
  ((tree.ancestry id).findSome? fun node => Scoped.boundary? node.content).bind Boundary.inside

end Tree

end ScopedClauses
