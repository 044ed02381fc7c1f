import ScopedClauses.Proofs.Scope.Crossing
import ScopedClauses.Proofs.Tree.Gaining

/-!
One operation run twice, with autocorrection off and on. The runs stay twins as long as the first
one succeeds, and what is in view of its tree is counted along the way.
-/

namespace ScopedClauses

open Tree

class Correctable (E : Type) (N : outParam Type) where
  treeOf : E → Tree N
  autocorrects : E → Bool
  /-- The engine with autocorrection on. -/
  corrected : E → E

open Correctable

variable {E N α β : Type} [Correctable E N]

/-- Two engines that are equal but for autocorrection, and show no more than the tree that both
started from and what is new. -/
structure Twins (view : Keyed N → Option α) (start : Tree N) (new : Multiset α) (plain other : E) :
    Prop where
  off : autocorrects plain = false
  same : other = corrected plain
  gains : Gains view start new (treeOf plain)

inductive TwinsWith (view : Keyed N → Option α) (start : Tree N) (new : Multiset α) :
    β × E → β × E → Prop where
  | intro (value : β) {plain other : E} (twins : Twins view start new plain other) :
      TwinsWith view start new (value, plain) (value, other)

theorem Twins.mono {view : Keyed N → Option α} {start : Tree N} {new more : Multiset α}
    {plain other : E} (twins : Twins view start new plain other) (less : new ≤ more) :
    Twins view start more plain other :=
  ⟨twins.off, twins.same, twins.gains.mono less⟩

theorem Twins.rooted {view : Keyed N → Option α} {start : Tree N} {new : Multiset α} {plain other : E}
    (twins : Twins view start (0 + new) plain other) (settled : start.detached = []) :
    Rose.shown view (treeOf plain).shape?.toList ≤ Rose.shown view start.shape?.toList + new :=
  zero_add new ▸ twins.gains.rooted settled

end ScopedClauses
