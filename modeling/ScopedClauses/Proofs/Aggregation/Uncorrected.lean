import ScopedClauses.Proofs.Aggregation.Steps
import ScopedClauses.Proofs.Scope.Twins

/-!
Requests without autocorrection. What an operation makes of one it makes of the same request with
autocorrection, and no marker of a scope is added to those that were there and those that were
inserted.
-/

namespace ScopedClauses

namespace Aggregations

open Rose Tree Result

instance : Correctable Aggregations AggNode where
  treeOf := tree
  autocorrects := autocorrect
  corrected aggs := { aggs with autocorrect := true }

section Steps

variable {α : Type} {view : Keyed AggNode → Option α} {start : Tree AggNode} {new more : Multiset α}
  {aggs other : Aggregations}

theorem twins_tree (twins : Twins view start new aggs other) {after : Tree AggNode}
    (gains : Gains view aggs.tree more after) :
    Twins view start (new + more) { aggs with tree := after } { other with tree := after } := by
  obtain ⟨off, rfl, before⟩ := twins
  exact ⟨off, rfl, before.trans gains⟩

theorem twins_steady (twins : Twins view start new aggs other) {after : Tree AggNode}
    (gains : Gains view aggs.tree 0 after) :
    Twins view start new { aggs with tree := after } { other with tree := after } := by
  simpa using twins_tree twins gains

theorem tree_of_twins (twins : Twins view start new aggs other) : other.tree = aggs.tree := by
  rw [twins.same]
  rfl

theorem mapping_of_twins (twins : Twins view start new aggs other) : other.mapping = aggs.mapping := by
  rw [twins.same]
  rfl

theorem numbered_of_twins (twins : Twins view start new aggs other) : aggs.tree.Numbered :=
  twins.gains.numbered

theorem reconcile_twins (twins : Twins view start new aggs other) (parent : Nat) (field : String)
    (mapping : Mapping) :
    Echoes (TwinsWith view start new) (reconcile aggs parent field mapping aggs.autocorrect)
      (reconcile other parent field mapping other.autocorrect) := by
  have off : aggs.autocorrect = false := twins.off
  have scope : other.tree.currentScope parent = aggs.tree.currentScope parent := by
    rw [tree_of_twins twins]
  rw [off]
  exact reconcile_echoes scope ⟨parent, twins⟩ field mapping _

theorem settle_twins (twins : Twins view start new aggs other) (parent : Nat) (content : AggClause) :
    Echoes (TwinsWith view start new) (aggs.settle parent content) (other.settle parent content) := by
  unfold settle
  rw [mapping_of_twins twins]
  cases aggs.mapping with
  | none => exact .pure ⟨parent, twins⟩
  | some mapping =>
      refine .after fun _ _ => ?_
      cases content.field? with
      | none => exact .pure ⟨parent, twins⟩
      | some field => exact .after fun _ _ => reconcile_twins twins parent field mapping

theorem insertNode_twins (twins : Twins view start new aggs other) (content : AggClause)
    (parent : Nat) (name : String) :
    Echoes (TwinsWith view start (new + seen view ⟨some name, .clause content⟩))
      (aggs.insertNode content parent name) (other.insertNode content parent name) := by
  unfold insertNode
  rw [tree_of_twins twins]
  exact .after fun ⟨number, tree⟩ inserted =>
    .pure ⟨number, twins_tree twins (gains_insert (numbered_of_twins twins) inserted)⟩

mutual

theorem insertShape_twins (parent : Nat) :
    ∀ (shape : Shape AggNode) {new : Multiset α} {aggs other : Aggregations},
      Twins view start new aggs other →
      Echoes (TwinsWith view start (new + shown view [shape])) (aggs.insertShape parent shape)
        (other.insertShape parent shape)
  | .node ⟨none, content⟩ below, new, aggs, other, twins => by
      rw [insertShape]
      exact .error
  | .node ⟨some name, content⟩ below, new, aggs, other, twins => by
      rw [insertShape, insertShape, tree_of_twins twins]
      simp only
      split
      · exact .error
      · cases content with
        | root => exact .error
        | clause content =>
            refine (settle_twins twins parent content).bind ?_
            rintro _ _ ⟨inner, settled⟩
            refine (insertNode_twins settled content inner name).bind ?_
            rintro _ _ ⟨number, placed⟩
            refine (insertShapes_twins number below placed).bind ?_
            intro _ _ filled
            rw [shown_node, ← add_assoc]
            exact .pure ⟨number, filled⟩

theorem insertShapes_twins (parent : Nat) :
    ∀ (shapes : List (Shape AggNode)) {new : Multiset α} {aggs other : Aggregations},
      Twins view start new aggs other →
      Echoes (Twins view start (new + shown view shapes)) (aggs.insertShapes parent shapes)
        (other.insertShapes parent shapes)
  | [], new, aggs, other, twins => by
      rw [shown_nil, add_zero]
      exact .pure twins
  | shape :: rest, new, aggs, other, twins => by
      rw [insertShapes, insertShapes, shown_cons, ← add_assoc]
      refine (insertShape_twins parent shape twins).bind ?_
      rintro _ _ ⟨number, placed⟩
      exact insertShapes_twins parent rest placed

end

/-! ### Relocation -/

theorem moveBelow_twins (twins : Twins view start new aggs other) (number target : Nat) :
    Echoes (Twins view start new) (aggs.moveBelow number target) (other.moveBelow number target) := by
  unfold moveBelow
  rw [tree_of_twins twins]
  cases moved : aggs.tree.move number target with
  | mk after result =>
      cases result with
      | ok _ => exact .pure (twins_steady twins (gains_move (numbered_of_twins twins) moved))
      | error error => exact .error

theorem resettle_twins (twins : Twins view start new aggs other) (target : Nat) (content : AggNode) :
    Echoes (TwinsWith view start new) (aggs.resettle target content)
      (other.resettle target content) := by
  unfold resettle
  rw [mapping_of_twins twins]
  split
  · exact reconcile_twins twins target _ _
  · exact .pure ⟨target, twins⟩

mutual

theorem relocate_twins (target : Nat) :
    ∀ (branch : Branch AggNode) {aggs other : Aggregations}, Twins view start new aggs other →
      Echoes (Twins view start new) (aggs.relocate target branch) (other.relocate target branch)
  | .node label below, aggs, other, twins => by
      have idle : other.isIdle target label.content = aggs.isIdle target label.content := by
        rw [twins.same]
        rfl
      rw [relocate, relocate, idle]
      split
      · refine (relocateAll_twins target below twins).bind fun emptied _ moved => ?_
        rw [tree_of_twins moved]
        exact .after fun ⟨removed, tree⟩ done =>
          .pure (twins_steady moved (gains_remove (numbered_of_twins moved) done).1)
      · refine (resettle_twins twins target label.content).bind ?_
        rintro _ _ ⟨destination, settled⟩
        exact moveBelow_twins settled label.id destination

theorem relocateAll_twins (target : Nat) :
    ∀ (branches : List (Branch AggNode)) {aggs other : Aggregations},
      Twins view start new aggs other →
      Echoes (Twins view start new) (aggs.relocateAll target branches)
        (other.relocateAll target branches)
  | [], aggs, other, twins => .pure twins
  | branch :: rest, aggs, other, twins => by
      rw [relocateAll, relocateAll]
      exact (relocate_twins target branch twins).bind fun _ _ moved =>
        relocateAll_twins target rest moved

end

theorem ensureHolds_of_twins (twins : Twins view start new aggs other) (number : Nat) (what : Party) :
    other.ensureHolds number what = aggs.ensureHolds number what := by
  rw [ensureHolds, tree_of_twins twins, ensureHolds]

theorem displace_twins (before holding : List Nat) (inserted : Nat) (left : List Nat)
    (twins : Twins view start new aggs other) :
    Echoes (Twins view start new) (displace before holding inserted aggs left)
      (displace before holding inserted other left) := by
  induction left generalizing aggs other with
  | nil => exact .pure twins
  | cons holder rest ih =>
      unfold displace at ih ⊢
      rw [List.foldlM_cons, List.foldlM_cons, tree_of_twins twins]
      exact (relocateAll_twins inserted _ twins).bind fun _ _ moved => ih moved

theorem insertBetween_twins (parent : Nat) (shape : Shape AggNode)
    (twins : Twins view start new aggs other) :
    Echoes (TwinsWith view start (new + shown view [shape])) (aggs.insertBetween parent shape)
      (other.insertBetween parent shape) := by
  unfold insertBetween
  rw [ensureHolds_of_twins twins, tree_of_twins twins]
  refine .after fun _ _ => (insertShape_twins parent shape twins).bind ?_
  rintro _ _ ⟨inserted, grown⟩
  simp only [tree_of_twins grown]
  exact (displace_twins _ _ inserted _ grown).bind fun _ _ moved => .pure ⟨inserted, moved⟩

theorem insertChain_twins (shapes : List (Shape AggNode)) (parent : Nat)
    (twins : Twins view start new aggs other) :
    Echoes (TwinsWith view start (new + shown view shapes)) (aggs.insertChain parent shapes)
      (other.insertChain parent shapes) := by
  induction shapes generalizing new aggs other parent with
  | nil =>
      rw [shown_nil, add_zero]
      exact .pure ⟨parent, twins⟩
  | cons shape rest ih =>
      rw [insertChain, insertChain, shown_cons, ← add_assoc]
      split
      · exact .error
      · refine (insertBetween_twins parent shape twins).bind ?_
        rintro _ _ ⟨inserted, grown⟩
        exact ih inserted grown

/-! ### Operations -/

theorem target_of_twins (twins : Twins view start new aggs other) (name : Option String) :
    other.target name = aggs.target name := by
  rw [twins.same]
  rfl

theorem shown_clausesOf (request : Option (Shape AggNode)) :
    shown view (clausesOf request) ≤ shown view request.toList := by
  cases request with
  | none => exact le_rfl
  | some shape =>
      rw [Option.toList_some, ← node_eta shape, shown_node]
      exact Multiset.le_add_left _ _

theorem add_twins (twins : Twins view start new aggs other) {input : Input}
    {request : Option (Shape AggNode)} (read : input.read = .ok request) (name : Option String) :
    Echoes (Twins view start (new + shown view request.toList)) (aggs.add input name)
      (other.add input name) := by
  simp only [add, insertBeside, read, Result.ok_bind, target_of_twins twins, ensureHolds_of_twins twins]
  refine .after fun target _ => .after fun _ _ => ?_
  exact (insertShapes_twins target _ twins).mono fun _ _ filled =>
    filled.mono (add_le_add le_rfl (shown_clausesOf request))

theorem groupBy_twins (twins : Twins view start new aggs other) {input : Input}
    {request : Option (Shape AggNode)} (read : input.read = .ok request) (name : Option String) :
    Echoes (Twins view start (new + shown view request.toList)) (aggs.groupBy input name)
      (other.groupBy input name) := by
  simp only [groupBy, read, Result.ok_bind, target_of_twins twins]
  refine .after fun target _ => ?_
  cases request with
  | none =>
      rw [Option.toList_none, shown_nil, add_zero]
      exact .pure twins
  | some shape =>
      refine (insertChain_twins shape.children target twins).bind ?_
      rintro _ _ ⟨last, moved⟩
      have grown := moved.mono (add_le_add le_rfl (shown_clausesOf (some shape)))
      obtain ⟨off, rfl, gains⟩ := grown
      exact .pure ⟨off, rfl, gains⟩

end Steps

end Aggregations

end ScopedClauses
