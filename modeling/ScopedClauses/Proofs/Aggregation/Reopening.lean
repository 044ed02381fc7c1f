import ScopedClauses.Proofs.Aggregation.Names
import ScopedClauses.Proofs.Aggregation.Settling
import ScopedClauses.Proofs.Scope.Trail
import ScopedClauses.Proofs.Tree.Adding

/-!
Markers that are found again. A node that is added comes after its siblings, so the first marker of
a boundary below a node stays the first one.
-/

namespace ScopedClauses

namespace Aggregations

open Rose Tree

variable {aggs final : Aggregations} {parent id inner : Nat}

def marks (boundary : Boundary) (node : AggNode) : Bool := node.boundary? = some boundary

theorem existingMarker?_eq (aggs : Aggregations) (parent : Nat) (boundary : Boundary) :
    Crossable.existing? aggs parent boundary =
      aggs.tree.findChild? parent fun node _ => marks boundary node := rfl

theorem existingMarker?_marks (numbered : aggs.tree.Numbered) {boundary : Boundary}
    (found : Crossable.existing? aggs parent boundary = some inner) :
    (∃ node, aggs.tree.get? parent = some node) ∧
      ∃ marker, aggs.tree.get? inner = some marker ∧ marker.boundary? = some boundary := by
  rw [existingMarker?_eq, findChild?_eq numbered] at found
  obtain ⟨node, got⟩ := (known_of_child numbered (List.mem_of_find?_eq_some found)).2
  have wanted := List.find?_some found
  rw [got, Option.any_some, marks, decide_eq_true_eq] at wanted
  exact ⟨(known_of_child numbered (List.mem_of_find?_eq_some found)).1, node, got, wanted⟩

theorem retains_planted (numbered : aggs.tree.Numbered) {content : AggNode}
    (planted : Planted aggs.tree parent id content final.tree) : Retains aggs final := by
  constructor
  · intro position inner boundary found
    rw [existingMarker?_eq] at found ⊢
    rw [planted.findChild? numbered, found, Option.some_or]
  · intro position inner boundary found
    obtain ⟨⟨node, got⟩, _⟩ := existingMarker?_marks numbered found
    exact planted.currentScope got

theorem planted_insertNode (numbered : aggs.tree.Numbered) {content : AggClause} {name : String}
    (placed : aggs.insertNode content parent name = .ok (id, final)) :
    Planted aggs.tree parent id (.clause content) final.tree := by
  obtain ⟨⟨number, tree⟩, inserted, same⟩ := Result.bind_ok.mp placed
  cases Result.pure_ok.mp same
  exact planted_insert numbered inserted

theorem reopens_markers : Reopens fun aggs : Aggregations => aggs.tree.Numbered := by
  constructor
  · intro aggs position inner boundary numbered found
    obtain ⟨_, marker, got, marks⟩ := existingMarker?_marks numbered found
    exact currentScope_of_boundary got marks
  · intro aggs final position inner boundary numbered missing opened
    obtain ⟨⟨next, grown⟩, placed, same⟩ := Result.map_ok.mp opened
    cases same
    have planted := planted_insertNode numbered placed
    refine ⟨planted.numbered, ?_, retains_planted numbered planted, ?_⟩
    · rw [existingMarker?_eq] at missing ⊢
      rw [planted.findChild? numbered, missing, Option.none_or]
      exact if_pos ⟨rfl, decide_eq_true (boundary?_ofBoundary boundary)⟩
    · obtain ⟨node, got⟩ := planted.holder
      exact planted.currentScope got

/-! ### Runs -/

inductive Step where
  | configure (mapping : Option Mapping) (autocorrect : Bool)
  | operate (operation : Operation)

def Step.apply (aggs : Aggregations) : Step → Result Aggregations
  | .configure mapping autocorrect =>
      pure { aggs with mapping := mapping, autocorrect := autocorrect }
  | .operate operation => operation.apply aggs

theorem sound_step (sound : Sound aggs.tree) {step : Step} (applied : step.apply aggs = .ok final) :
    Sound final.tree := by
  cases step with
  | configure mapping autocorrect =>
      cases Result.pure_ok.mp applied
      exact sound
  | operate operation => exact (names_apply sound applied).1

theorem sound_acts (sound : Sound aggs.tree) (acts : List (Act Step Nat))
    (ran : acts.foldlM (Act.apply Step.apply) aggs = .ok final) : Sound final.tree := by
  let Good := fun aggs : Aggregations => Sound aggs.tree
  have opens : ∀ {aggs grown : Aggregations} {position inner : Nat} {boundary : Boundary},
      Good aggs → Crossable.opened? aggs position boundary = .ok (some (inner, grown)) →
        Good grown := by
    intro aggs grown position inner boundary stays opened
    obtain ⟨reached, placed, same⟩ := Result.map_ok.mp opened
    cases same
    exact (sound_insertNode stays placed).1
  have steps : ∀ {aggs final : Aggregations} {step : Step}, True → Good aggs →
      step.apply aggs = .ok final → Good final := fun _ stays applied => sound_step stays applied
  have ends : Good final := kept_acts opens steps sound acts (fun _ _ => trivial) ran
  exact ends

end Aggregations

end ScopedClauses
