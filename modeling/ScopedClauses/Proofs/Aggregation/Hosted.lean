import ScopedClauses.Proofs.Aggregation.Pointer
import ScopedClauses.Proofs.Tree.Running

/-!
Whatever an operation does to a request it does by inserting, moving and removing single branches.
In every request that operations make, only the request itself and buckets hold aggregations.
-/

namespace ScopedClauses

namespace AggNode

def hosts : AggNode → Bool
  | .root => true
  | .clause content => content.kind.isBucket

theorem hosts_of_checkChild {parent child : AggNode} {siblings : Nat}
    (taken : checkChild parent child siblings = .ok ()) : parent.hosts = true := by
  cases parent with
  | root => rfl
  | clause content =>
      cases child with
      | root => cases taken
      | clause inner =>
          simp only [checkChild] at taken
          split at taken
          · assumption
          · cases taken

theorem checkChild_of_hosts {parent : AggNode} (hosts : parent.hosts = true) (clause : AggClause)
    (siblings : Nat) : checkChild parent (.clause clause) siblings = .ok () := by
  cases parent with
  | root => rfl
  | clause content => exact if_pos hosts

end AggNode

namespace Aggregations

open Rose Tree

def Hosted (forest : List (Branch AggNode)) : Prop :=
  ∀ branch ∈ preorderAll forest, branch.children ≠ [] → branch.content.hosts = true

section Forests

theorem hosted_nil : Hosted [] := fun _ absent => by cases absent

theorem hosted_cons {label : Entry AggNode} {children rest : List (Branch AggNode)} :
    Hosted (.node label children :: rest) ↔
      (children ≠ [] → label.content.hosts = true) ∧ Hosted children ∧ Hosted rest := by
  simp only [Hosted, preorderAll_cons, List.forall_mem_cons, List.forall_mem_append]
  rfl

theorem hosted_append {front back : List (Branch AggNode)} :
    Hosted (front ++ back) ↔ Hosted front ∧ Hosted back := by
  simp only [Hosted, preorderAll_append]
  exact List.forall_mem_append

theorem hosted_updateAt {number : Nat} {new : Branch AggNode} (fresh : Hosted [new])
    {forest : List (Branch AggNode)} (hosted : Hosted forest) :
    Hosted (updateAt number (fun _ => new) forest) := by
  induction forest using forestInduction with
  | nil => exact hosted
  | cons label children rest ihBelow ihBeside =>
      obtain ⟨own, below, beside⟩ := hosted_cons.mp hosted
      rw [updateAt_cons]
      split
      · exact hosted_append.mpr ⟨fresh, ihBeside beside⟩
      · refine hosted_cons.mpr ⟨fun more => own fun none => ?_, ihBelow below, ihBeside beside⟩
        rw [none, updateAt_nil] at more
        exact more rfl

theorem hosted_pruneAt {number : Nat} {forest : List (Branch AggNode)} (hosted : Hosted forest) :
    Hosted (pruneAt number forest) := by
  induction forest using forestInduction with
  | nil => exact hosted
  | cons label children rest ihBelow ihBeside =>
      obtain ⟨own, below, beside⟩ := hosted_cons.mp hosted
      rw [pruneAt_cons]
      split
      · exact ihBeside beside
      · refine hosted_cons.mpr ⟨fun more => own fun none => ?_, ihBelow below, ihBeside beside⟩
        rw [none, pruneAt_nil] at more
        exact more rfl

theorem hosted_of_mem {forest : List (Branch AggNode)} {branch : Branch AggNode}
    (hosted : Hosted forest) (member : branch ∈ preorderAll forest) : Hosted [branch] :=
  fun inner inside => hosted inner (mem_preorderAll_of_branch forest member inside)

theorem hosted_extended {holder branch : Branch AggNode} (hosts : holder.content.hosts = true)
    (own : Hosted [holder]) (below : Hosted [branch]) : Hosted [extended holder branch] := by
  obtain ⟨label, children⟩ := holder
  refine hosted_cons.mpr ⟨fun _ => hosts, ?_, hosted_nil⟩
  exact hosted_append.mpr ⟨(hosted_cons.mp own).2.1, below⟩

end Forests

/-! ### Single branches -/

inductive Rebuilt (before : Tree AggNode) : Tree AggNode → Prop where
  | refl : Rebuilt before before
  | insert {middle after : Tree AggNode} {content : AggNode} {parent id : Nat} {key : Option String} :
      Rebuilt before middle → middle.insert content parent key = .ok (id, after) →
      Rebuilt before after
  | move {middle after : Tree AggNode} {id target : Nat} :
      Rebuilt before middle → middle.move id target = (after, .ok ()) → Rebuilt before after
  | remove {middle after removed : Tree AggNode} {id : Nat} :
      Rebuilt before middle → middle.remove id = .ok (removed, after) → Rebuilt before after

theorem Rebuilt.hosted {before after : Tree AggNode} (rebuilt : Rebuilt before after)
    (whole : Whole before) (hosted : Hosted before.branches) :
    Whole after ∧ Hosted after.branches := by
  induction rebuilt with
  | refl => exact ⟨whole, hosted⟩
  | insert _ inserted ih =>
      obtain ⟨whole, hosted⟩ := ih
      obtain ⟨holder, member, _, _, taken, regrown⟩ := insert_ok whole.numbered inserted
      refine ⟨whole.regrown regrown member, ?_⟩
      rw [regrown.branches]
      refine hosted_updateAt (hosted_extended (AggNode.hosts_of_checkChild taken)
        (hosted_of_mem hosted member) ?_) hosted
      exact hosted_cons.mpr ⟨fun more => absurd rfl more, hosted_nil, hosted_nil⟩
  | move _ moves ih =>
      obtain ⟨whole, hosted⟩ := ih
      obtain ⟨branch, holder, _, _, moved⟩ := move_ok whole.numbered whole.settled moves
      refine ⟨⟨moved.numbered_after whole.numbered, moved.settled⟩, ?_⟩
      have pruned : Hosted (pruneAt branch.id _) := hosted_pruneAt hosted
      rw [moved.branches]
      exact hosted_updateAt (hosted_extended (AggNode.hosts_of_checkChild moved.taken)
        (hosted_of_mem pruned moved.outside) (hosted_of_mem hosted moved.member)) pruned
  | remove _ removes ih =>
      obtain ⟨whole, hosted⟩ := ih
      obtain ⟨_, _, _, branches, settled, _⟩ := remove_ok whole.numbered whole.settled removes
      exact ⟨⟨(renewed_remove whole.numbered removes).numbered, settled⟩,
        branches ▸ hosted_pruneAt hosted⟩

section Steps

variable {start : Tree AggNode} {aggs final : Aggregations} {parent id inner target last : Nat}

theorem rebuilt_insertNode (rebuilt : Rebuilt start aggs.tree) {content : AggClause} {name : String}
    (placed : aggs.insertNode content parent name = .ok (id, final)) : Rebuilt start final.tree := by
  simp only [insertNode, Result.bind_ok, Result.pure_ok, Prod.mk.injEq] at placed
  obtain ⟨⟨_, after⟩, inserted, _, rfl⟩ := placed
  exact rebuilt.insert inserted

theorem rebuilt_resettle (rebuilt : Rebuilt start aggs.tree) {node : AggNode}
    (settled : aggs.resettle parent node = .ok (inner, final)) : Rebuilt start final.tree := by
  rcases resettle_ok settled with ⟨_, rfl, _⟩ | ⟨mapping, field, _, _, made⟩
  · exact rebuilt
  · obtain ⟨required, refusal, _, crossed⟩ := reconcile_ok made
    let Holds := fun (_ : List Boundary) (reached : Aggregations) (_ : Nat) =>
      Rebuilt start reached.tree
    have ends : Holds [] final inner := cross_along (fun stood _ => stood)
      (fun stood placed => rebuilt_insertNode stood placed) rebuilt crossed
    exact ends

mutual

theorem rebuilt_insertShape : ∀ (shape : Shape AggNode) {aggs final : Aggregations} {parent id : Nat},
    Rebuilt start aggs.tree → aggs.insertShape parent shape = .ok (id, final) →
    Rebuilt start final.tree
  | .node label below, aggs, final, parent, _, rebuilt, made => by
      obtain ⟨name, content, inner, settled, grown, _, _, _, settles, placed, rest⟩ :=
        insertShape_ok made
      have stood := rebuilt_resettle rebuilt (resettle_of_settle settles)
      exact rebuilt_insertShapes below (rebuilt_insertNode stood placed) rest

theorem rebuilt_insertShapes : ∀ (shapes : List (Shape AggNode)) {aggs final : Aggregations}
    {parent : Nat}, Rebuilt start aggs.tree → aggs.insertShapes parent shapes = .ok final →
    Rebuilt start final.tree
  | [], aggs, final, parent, rebuilt, made => by
      cases Result.pure_ok.mp made
      exact rebuilt
  | shape :: rest, aggs, final, parent, rebuilt, made => by
      obtain ⟨_, grown, first, later⟩ := insertShapes_ok made
      exact rebuilt_insertShapes rest (rebuilt_insertShape shape rebuilt first) later

end

theorem rebuilt_displace (rebuilt : Rebuilt start aggs.tree) {before holding left : List Nat}
    {inserted : Nat} (made : displace before holding inserted aggs left = .ok final) :
    Rebuilt start final.tree := by
  let Holds := fun (reached : Aggregations) => Rebuilt start reached.tree
  have ends : Holds final := displace_keeps (fun stood settled => rebuilt_resettle stood settled)
    (fun stood moved => stood.move moved) (fun stood done => stood.remove done) rebuilt made
  exact ends

theorem rebuilt_insertChain (rebuilt : Rebuilt start aggs.tree) {chain : List (Shape AggNode)}
    (made : aggs.insertChain parent chain = .ok (last, final)) : Rebuilt start final.tree := by
  let Holds := fun (_ : List (Shape AggNode)) (reached : Aggregations) (_ : Nat) =>
    Rebuilt start reached.tree
  have ends : Holds [] final last := by
    refine insertChain_along (fun stood first => ?_) rebuilt made
    obtain ⟨_, grown, placed, displaced⟩ := insertBetween_ok first
    exact rebuilt_displace (rebuilt_insertShape _ stood placed) displaced
  exact ends

end Steps

/-! ### Operations -/

def emptyTree : Tree AggNode := Tree.ofShape AggNode.emptyRequest

theorem rebuilt_apply {aggs final : Aggregations} (rebuilt : Rebuilt emptyTree aggs.tree)
    {operation : Operation} (applied : operation.apply aggs = .ok final) :
    Rebuilt emptyTree final.tree := by
  cases operation with
  | ofJson json =>
      obtain ⟨request, _, made⟩ := ofJson_ok applied
      exact rebuilt_insertShapes request.children .refl made
  | add input below =>
      obtain ⟨request, target, _, _, made⟩ := add_ok applied
      exact rebuilt_insertShapes (clausesOf request) rebuilt made
  | groupBy input below =>
      obtain ⟨request, target, _, _, made⟩ := groupBy_ok applied
      rcases made with ⟨_, rfl⟩ | ⟨last, moved, made, rfl⟩
      · exact rebuilt
      · have grown := rebuilt_insertChain rebuilt made
        exact grown
  | groupedBy name =>
      obtain ⟨id, _, rfl⟩ := groupedBy_ok applied
      exact rebuilt

/-- In what any run makes of an empty request only the request and buckets hold aggregations. -/
theorem hosted_run {aggs final : Aggregations} (rebuilt : Rebuilt emptyTree aggs.tree)
    (operations : List Operation) (ran : operations.foldlM Operation.apply aggs = .ok final) :
    Whole final.tree ∧ Hosted final.tree.branches := by
  induction operations generalizing aggs with
  | nil =>
      cases Result.pure_ok.mp ran
      obtain ⟨sound, _⟩ := sound_empty none true
      refine rebuilt.hosted sound.toWhole ?_
      rw [emptyTree, show (Tree.ofShape AggNode.emptyRequest).branches = _ from
        branches_empty none true]
      exact hosted_cons.mpr ⟨fun _ => rfl, hosted_nil, hosted_nil⟩
  | cons operation rest ih =>
      rw [List.foldlM_cons] at ran
      obtain ⟨middle, applied, later⟩ := Result.bind_ok.mp ran
      exact ih (rebuilt_apply rebuilt applied) later

end Aggregations

end ScopedClauses
