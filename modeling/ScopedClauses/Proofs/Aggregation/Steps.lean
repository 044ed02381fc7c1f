import ScopedClauses.Aggregation.Insertion
import ScopedClauses.Proofs.Scope.Crossing
import ScopedClauses.Proofs.Tree.Moving

/-!
What the steps of the operations on a request do when they succeed. A clause becomes the last
child of a node; on the way to its scope it passes markers that are there or were put there for
it. An operation is a run of such steps and of moves.
-/

namespace ScopedClauses

namespace Aggregations

open Rose Tree

def withTree (aggs : Aggregations) (tree : Tree AggNode) : Aggregations := { aggs with tree := tree }

@[simp] theorem tree_withTree (aggs : Aggregations) (tree : Tree AggNode) :
    (aggs.withTree tree).tree = tree := rfl

@[simp] theorem mapping_withTree (aggs : Aggregations) (tree : Tree AggNode) :
    (aggs.withTree tree).mapping = aggs.mapping := rfl

@[simp] theorem withTree_withTree (aggs : Aggregations) (first second : Tree AggNode) :
    (aggs.withTree first).withTree second = aggs.withTree second := rfl

structure Whole (tree : Tree AggNode) : Prop where
  numbered : tree.Numbered
  settled : tree.detached = []

theorem Whole.regrown {before after : Tree AggNode} {old new : Branch AggNode}
    (whole : Whole before) (regrown : Regrown before old new after) (member : old ∈ before.live) :
    Whole after :=
  ⟨regrown.numbered whole.numbered member, regrown.settled whole.settled⟩

variable {aggs final : Aggregations} {parent id inner : Nat} {content : AggClause} {name : String}

theorem insertNode_ok (numbered : aggs.tree.Numbered)
    (placed : aggs.insertNode content parent name = .ok (id, final)) :
    ∃ holder ∈ aggs.tree.live, ∃ after, holder.id = parent ∧ id = aggs.tree.next ∧
      final = aggs.withTree after ∧
      Regrown aggs.tree holder (extended holder (bud (some name) (.clause content) id)) after := by
  simp only [insertNode, Result.bind_ok, Result.pure_ok, Prod.mk.injEq] at placed
  obtain ⟨⟨number, after⟩, inserted, rfl, rfl⟩ := placed
  obtain ⟨holder, member, same, new, _, regrown⟩ := insert_ok numbered inserted
  exact ⟨holder, member, after, same, new, rfl, regrown⟩

/-- What holds at a position before some boundaries holds behind them, if it does so past a
marker that is there and past one that is put there. -/
theorem cross_along {Holds : List Boundary → Aggregations → Nat → Prop}
    (existing : ∀ {boundary rest aggs position inner}, Holds (boundary :: rest) aggs position →
      aggs.existingMarker? position boundary = some inner → Holds rest aggs inner)
    (opened : ∀ {boundary rest aggs position inner final}, Holds (boundary :: rest) aggs position →
      aggs.insertNode (AggClause.ofBoundary boundary) position
        (aggs.markerName (AggClause.ofBoundary boundary).kind.tag position) = .ok (inner, final) →
      Holds rest final inner)
    {refusal : Error} {boundaries : List Boundary} (start : Holds boundaries aggs parent)
    (crossed : cross refusal aggs parent boundaries = .ok (inner, final)) :
    Holds [] final inner := by
  refine cross_induction existing (fun start _ made => ?_) start crossed
  obtain ⟨⟨next, grown⟩, placed, same⟩ := Result.map_ok.mp made
  cases same
  exact opened start placed

/-- A reconciliation ends in the scope of its field. What holds in the scope that it starts from
holds where it ends, if it does so past a marker that is there and past one that is put there. -/
theorem reconcile_along {Holds : Option String → Aggregations → Nat → Prop} {mapping : Mapping}
    {field : String} {autocorrect : Bool}
    (existing : ∀ {scope boundary aggs position inner}, Holds scope aggs position →
      aggs.existingMarker? position boundary = some inner → Holds boundary.inside aggs inner)
    (opened : ∀ {scope boundary aggs position inner final}, Holds scope aggs position →
      (∀ path, boundary.inside = some path →
        ∃ required, mapping.nestedScopes field = .ok required ∧ path ∈ required) →
      aggs.insertNode (AggClause.ofBoundary boundary) position
        (aggs.markerName (AggClause.ofBoundary boundary).kind.tag position) = .ok (inner, final) →
      Holds boundary.inside final inner)
    (start : Holds (aggs.tree.currentScope parent) aggs parent)
    (made : reconcile aggs parent field mapping autocorrect = .ok (inner, final)) :
    ∃ scope, Holds scope final inner ∧ mapping.nestedAt field = .ok scope := by
  obtain ⟨required, refusal, listed, crossed⟩ := reconcile_ok made
  -- at each position the rest of the plan still leads to the required scope
  let Ahead := fun (rest : List Boundary) (reached : Aggregations) (position : Nat) =>
    ∃ scope, Holds scope reached position ∧ reach scope rest = required.head? ∧
      ∀ boundary ∈ rest, ∀ path, boundary.inside = some path → path ∈ required
  have ends : Ahead [] final inner := by
    refine cross_along ?_ ?_ ?_ crossed
    · rintro boundary rest reached position next ⟨scope, holds, ahead, known⟩ found
      exact ⟨_, existing holds found, ahead, (List.forall_mem_cons.mp known).2⟩
    · rintro boundary rest reached position next grown ⟨scope, holds, ahead, known⟩ placed
      rw [List.forall_mem_cons] at known
      exact ⟨_, opened holds (fun path leads => ⟨required, listed, known.1 path leads⟩) placed, ahead,
        known.2⟩
    · exact ⟨_, start, Crossing.plan_reaches _ required,
        fun boundary step path => Crossing.mem_steps_plan step⟩
  obtain ⟨scope, holds, here, _⟩ := ends
  refine ⟨scope, holds, ?_⟩
  rw [Mapping.nestedAt, listed, show scope = required.head? from here]
  rfl

theorem checkMarker_ok {mapping : Mapping} :
    checkMarker mapping content = .ok () ↔ ∀ path,
      content.boundary?.bind Boundary.inside = some path → mapping.isNested path = true := by
  unfold checkMarker
  cases content.boundary?.bind Boundary.inside with
  | none => simp [Result.pure_ok]
  | some path =>
      cases nested : mapping.isNested path <;>
        simp [nested, Result.bind_ok, Result.throw_ok, Result.pure_ok]

/-- Before it is placed, a clause is checked and settled like a node that moves. -/
theorem resettle_of_settle (settled : aggs.settle parent content = .ok (inner, final)) :
    aggs.resettle parent (.clause content) = .ok (inner, final) := by
  have own : AggNode.field? (.clause content) = content.field? := rfl
  unfold settle at settled
  rw [resettle, own]
  split at settled
  · rename_i unbound
    rw [unbound]
    cases content.field? <;> exact settled
  · rename_i mapping bound
    obtain ⟨_, _, settled⟩ := Result.bind_ok.mp settled
    split at settled
    · rename_i field named
      obtain ⟨_, _, settled⟩ := Result.bind_ok.mp settled
      rw [named, bound]
      exact settled
    · rename_i unnamed
      rw [unnamed]
      exact settled

theorem resettle_ok {node : AggNode} (settled : aggs.resettle parent node = .ok (inner, final)) :
    (inner = parent ∧ final = aggs ∧ (aggs.mapping = none ∨ node.field? = none)) ∨
      ∃ mapping field, aggs.mapping = some mapping ∧ node.field? = some field ∧
        reconcile aggs parent field mapping aggs.autocorrect = .ok (inner, final) := by
  unfold resettle at settled
  split at settled
  · rename_i field mapping named bound
    exact Or.inr ⟨mapping, field, bound, named, settled⟩
  · rename_i other
    cases Result.pure_ok.mp settled
    refine Or.inl ⟨rfl, rfl, ?_⟩
    cases bound : aggs.mapping with
    | none => exact Or.inl rfl
    | some mapping =>
        cases named : node.field? with
        | none => exact Or.inr rfl
        | some field => exact absurd bound (other field mapping named)

theorem insertShape_ok {label : Keyed AggNode} {children : List (Shape AggNode)}
    (made : aggs.insertShape parent (.node label children) = .ok (id, final)) :
    ∃ name content inner settled grown, label.key = some name ∧
      label.content = .clause content ∧ aggs.tree.findByKey? name = none ∧
      aggs.settle parent content = .ok (inner, settled) ∧
      settled.insertNode content inner name = .ok (id, grown) ∧
      grown.insertShapes id children = .ok final := by
  rw [insertShape] at made
  cases keyed : label.key with
  | none =>
      rw [keyed] at made
      cases made
  | some name =>
      cases holds : label.content with
      | root =>
          rw [keyed, holds] at made
          simp only at made
          split at made <;> cases made
      | clause content =>
          rw [keyed, holds] at made
          simp only at made
          split at made
          · cases made
          · rename_i free
            simp only [Result.bind_ok, Result.pure_ok, Prod.mk.injEq] at made
            obtain ⟨⟨inner, settled⟩, settles, ⟨number, grown⟩, placed, _, below, rfl, rfl⟩ := made
            refine ⟨name, content, inner, settled, grown, rfl, rfl, ?_, settles, placed, below⟩
            simpa using free

theorem insertShapes_ok {shape : Shape AggNode} {rest : List (Shape AggNode)}
    (made : aggs.insertShapes parent (shape :: rest) = .ok final) :
    ∃ id grown, aggs.insertShape parent shape = .ok (id, grown) ∧
      grown.insertShapes parent rest = .ok final := by
  simp only [insertShapes, Result.bind_ok] at made
  obtain ⟨⟨id, grown⟩, first, later⟩ := made
  exact ⟨id, grown, first, later⟩

/-! ### Relocation -/

theorem moveBelow_ok {target : Nat} (moved : aggs.moveBelow id target = .ok final) :
    ∃ after, aggs.tree.move id target = (after, .ok ()) ∧ final = aggs.withTree after := by
  unfold moveBelow at moved
  split at moved
  · rename_i after done
    cases Result.pure_ok.mp moved
    exact ⟨after, done, rfl⟩
  · cases moved

theorem relocate_ok {target : Nat} {entry : Entry AggNode} {below : List (Branch AggNode)}
    (made : aggs.relocate target (.node entry below) = .ok final) :
    (aggs.isIdle target entry.content = true ∧ ∃ emptied removed after,
      aggs.relocateAll target below = .ok emptied ∧
      emptied.tree.remove entry.id = .ok (removed, after) ∧ final = emptied.withTree after) ∨
    (aggs.isIdle target entry.content = false ∧ ∃ destination settled after,
      aggs.resettle target entry.content = .ok (destination, settled) ∧
      settled.tree.move entry.id destination = (after, .ok ()) ∧
      final = settled.withTree after) := by
  rw [relocate] at made
  split at made
  · rename_i idle
    simp only [Result.bind_ok, Result.pure_ok] at made
    obtain ⟨emptied, all, ⟨removed, after⟩, done, rfl⟩ := made
    exact Or.inl ⟨idle, emptied, removed, after, all, done, rfl⟩
  · rename_i busy
    simp only [Result.bind_ok] at made
    obtain ⟨⟨destination, settled⟩, settles, moved⟩ := made
    obtain ⟨after, done, rfl⟩ := moveBelow_ok moved
    exact Or.inr ⟨by simpa using busy, destination, settled, after, settles, done, rfl⟩

theorem relocateAll_ok {target : Nat} {branch : Branch AggNode} {rest : List (Branch AggNode)}
    (made : aggs.relocateAll target (branch :: rest) = .ok final) :
    ∃ middle, aggs.relocate target branch = .ok middle ∧
      middle.relocateAll target rest = .ok final := by
  simp only [relocateAll, Result.bind_ok] at made
  exact made

/-- What a relocation does: branches go one after the other, each by a move to the place that its head
is settled at, or, if it is of an idle marker, by relocating what is below and removing the marker. -/
theorem relocateAll_along {target : Nat}
    {Moves : List (Branch AggNode) → Aggregations → Aggregations → Prop}
    (none : ∀ {aggs}, Moves [] aggs aggs)
    (more : ∀ {branch rest aggs middle final}, Moves [branch] aggs middle →
      Moves rest middle final → Moves (branch :: rest) aggs final)
    (dissolved : ∀ {entry below aggs emptied removed after},
      aggs.isIdle target entry.content = true → Moves below aggs emptied →
      emptied.tree.remove entry.id = .ok (removed, after) →
      Moves [.node entry below] aggs (emptied.withTree after))
    (moved : ∀ {entry below aggs destination settled after},
      aggs.resettle target entry.content = .ok (destination, settled) →
      settled.tree.move entry.id destination = (after, .ok ()) →
      Moves [.node entry below] aggs (settled.withTree after))
    {branches : List (Branch AggNode)} (made : aggs.relocateAll target branches = .ok final) :
    Moves branches aggs final := by
  induction branches using forestInduction generalizing aggs final with
  | nil =>
      cases Result.pure_ok.mp made
      exact none
  | cons entry below rest ihBelow ihBeside =>
      obtain ⟨middle, first, later⟩ := relocateAll_ok made
      refine more ?_ (ihBeside later)
      rcases relocate_ok first with ⟨idle, emptied, removed, after, all, done, rfl⟩ |
        ⟨_, destination, settled, after, settles, done, rfl⟩
      · exact dissolved idle (ihBelow all) done
      · exact moved settles done

def holders (tree : Tree AggNode) (parent inserted : Nat) : List Nat :=
  (tree.ancestors inserted false).takeWhile (· ≠ parent) ++ [parent]

def displaced (tree : Tree AggNode) (before holders : List Nat) (inserted holder : Nat) :
    List (Branch AggNode) :=
  (tree.childBranches holder).filter fun child =>
    before.contains child.id && !holders.contains child.id && child.id ≠ inserted

def displace (before holding : List Nat) (inserted : Nat) (aggs : Aggregations) :
    List Nat → Result Aggregations :=
  List.foldlM (fun aggs holder =>
    aggs.relocateAll inserted (displaced aggs.tree before holding inserted holder)) aggs

theorem displace_ok {before holding : List Nat} {inserted holder : Nat} {rest : List Nat}
    (made : displace before holding inserted aggs (holder :: rest) = .ok final) :
    ∃ middle, aggs.relocateAll inserted (displaced aggs.tree before holding inserted holder) =
        .ok middle ∧ displace before holding inserted middle rest = .ok final := by
  simp only [displace, List.foldlM_cons, Result.bind_ok] at made
  exact made

/-- What holds before some holders holds behind them, if it does so past each. -/
theorem displace_along {Holds : List Nat → Aggregations → Prop} {before holding : List Nat}
    {inserted : Nat}
    (step : ∀ {holder rest aggs middle}, Holds (holder :: rest) aggs →
      aggs.relocateAll inserted (displaced aggs.tree before holding inserted holder) = .ok middle →
      Holds rest middle)
    {left : List Nat} (start : Holds left aggs)
    (made : displace before holding inserted aggs left = .ok final) : Holds [] final := by
  induction left generalizing aggs with
  | nil =>
      cases Result.pure_ok.mp made
      exact start
  | cons holder rest ih =>
      obtain ⟨middle, first, later⟩ := displace_ok made
      exact ih (step start first) later

/-- What settling, moving and removing keep, a displacement keeps. -/
theorem displace_keeps {Holds : Aggregations → Prop} {before holding : List Nat} {inserted : Nat}
    (settles : ∀ {aggs parent node inner settled}, Holds aggs →
      aggs.resettle parent node = .ok (inner, settled) → Holds settled)
    (moves : ∀ {aggs id target after}, Holds aggs → aggs.tree.move id target = (after, .ok ()) →
      Holds (aggs.withTree after))
    (removes : ∀ {aggs id removed after}, Holds aggs → aggs.tree.remove id = .ok (removed, after) →
      Holds (aggs.withTree after))
    {left : List Nat} (start : Holds aggs)
    (made : displace before holding inserted aggs left = .ok final) : Holds final := by
  let Moves := fun (_ : List (Branch AggNode)) (first last : Aggregations) => Holds first → Holds last
  let Kept := fun (_ : List Nat) (reached : Aggregations) => Holds reached
  have relocated {target : Nat} {branches : List (Branch AggNode)} {first last : Aggregations}
      (done : first.relocateAll target branches = .ok last) : Moves branches first last := by
    refine relocateAll_along (fun holds => holds) (fun moving others holds => others (moving holds))
      ?_ ?_ done
    · exact fun _ below done holds => removes (below holds) done
    · exact fun settled done holds => moves (settles holds settled) done
  have ends : Kept [] final := displace_along (fun holds done => relocated done holds) start made
  exact ends

theorem live_of_ensureHolds {what : Party} {done : Unit}
    (ensured : aggs.ensureHolds parent what = .ok done) :
    ∃ holder ∈ aggs.tree.live, holder.id = parent := by
  obtain ⟨node, got, _⟩ := Result.bind_ok.mp ensured
  obtain ⟨holder, member, number, _⟩ := live_of_get got
  exact ⟨holder, member, number⟩

theorem insertBetween_ok {shape : Shape AggNode} {inserted : Nat}
    (made : aggs.insertBetween parent shape = .ok (inserted, final)) :
    (∃ holder ∈ aggs.tree.live, holder.id = parent) ∧
    ∃ grown, aggs.insertShape parent shape = .ok (inserted, grown) ∧
      displace (aggs.tree.descendants parent) (holders grown.tree parent inserted) inserted grown
        (holders grown.tree parent inserted) = .ok final := by
  simp only [insertBetween, Result.bind_ok, Result.pure_ok, Prod.mk.injEq] at made
  obtain ⟨_, ensured, ⟨number, grown⟩, first, moved, displaces, rfl, rfl⟩ := made
  exact ⟨live_of_ensureHolds ensured, grown, first, displaces⟩

theorem insertChain_ok {shape : Shape AggNode} {rest : List (Shape AggNode)} {last : Nat}
    (made : aggs.insertChain parent (shape :: rest) = .ok (last, final)) :
    ∃ inserted middle, aggs.insertBetween parent shape = .ok (inserted, middle) ∧
      middle.insertChain inserted rest = .ok (last, final) := by
  rw [insertChain] at made
  split at made
  · cases made
  · simp only [Result.bind_ok] at made
    obtain ⟨⟨inserted, middle⟩, first, later⟩ := made
    exact ⟨inserted, middle, first, later⟩

/-- What holds before the clauses of a chain holds behind them, if it does so past each. -/
theorem insertChain_along {Holds : List (Shape AggNode) → Aggregations → Nat → Prop}
    (step : ∀ {shape rest aggs parent inserted middle}, Holds (shape :: rest) aggs parent →
      aggs.insertBetween parent shape = .ok (inserted, middle) → Holds rest middle inserted)
    {chain : List (Shape AggNode)} {last : Nat} (start : Holds chain aggs parent)
    (made : aggs.insertChain parent chain = .ok (last, final)) : Holds [] final last := by
  induction chain generalizing aggs parent with
  | nil =>
      cases Result.pure_ok.mp made
      exact start
  | cons shape rest ih =>
      obtain ⟨inserted, middle, first, later⟩ := insertChain_ok made
      exact ih (step start first) later

/-! ### Operations -/

inductive Operation where
  | ofJson (json : Json)
  | add (input : Input) (below : Option String)
  | groupBy (input : Input) (below : Option String)
  | groupedBy (name : String)

def Operation.apply (aggs : Aggregations) : Operation → Result Aggregations
  | .ofJson json => Aggregations.ofJson json aggs.mapping
  | .add input below => aggs.add input below
  | .groupBy input below => aggs.groupBy input below
  | .groupedBy name => aggs.groupedBy name

def castMapping : Mapping :=
  ⟨Tree.ofShape (.node ⟨none, .root []⟩
    [.node ⟨some "price", .field ⟨"price", "price", .float, [], []⟩⟩ [],
      .node ⟨some "roles", .field ⟨"roles", "roles", .nested, [], []⟩⟩
        [.node ⟨some "roles.gender", .field ⟨"gender", "roles.gender", .keyword, [], []⟩⟩ []]])⟩

theorem insertBeside_ok {request : Option (Shape AggNode)}
    (made : aggs.insertBeside parent request = .ok final) :
    aggs.insertShapes parent (clausesOf request) = .ok final := by
  obtain ⟨_, _, inserted⟩ := Result.bind_ok.mp made
  exact inserted

theorem add_ok {input : Input} {below : Option String} (made : aggs.add input below = .ok final) :
    ∃ request target, input.read = .ok request ∧ aggs.target below = .ok target ∧
      aggs.insertShapes target (clausesOf request) = .ok final := by
  simp only [add, Result.bind_ok] at made
  obtain ⟨request, read, target, aimed, inserted⟩ := made
  exact ⟨request, target, read, aimed, insertBeside_ok inserted⟩

theorem add_live {input : Input} {below : Option String} (made : aggs.add input below = .ok final) :
    ∃ request, input.read = .ok request ∧ ∃ holder ∈ aggs.tree.live,
      aggs.target below = .ok holder.id ∧
        aggs.insertShapes holder.id (clausesOf request) = .ok final := by
  simp only [add, Result.bind_ok] at made
  obtain ⟨request, read, target, aimed, inserted⟩ := made
  obtain ⟨_, ensured, _⟩ := Result.bind_ok.mp inserted
  obtain ⟨holder, member, rfl⟩ := live_of_ensureHolds ensured
  exact ⟨request, read, holder, member, aimed, insertBeside_ok inserted⟩

theorem ofJson_ok {json : Json} {mapping : Option Mapping}
    (made : ofJson json mapping = .ok final) :
    ∃ request, AggNode.ofJson json = .ok request ∧
      ({ mapping := mapping } : Aggregations).insertShapes 0 request.children = .ok final := by
  simp only [ofJson, Result.bind_ok] at made
  obtain ⟨request, read, target, aimed, inserted⟩ := made
  cases Result.pure_ok.mp aimed
  exact ⟨request, read, insertBeside_ok inserted⟩

theorem groupBy_ok {input : Input} {below : Option String}
    (made : aggs.groupBy input below = .ok final) :
    ∃ request target, input.read = .ok request ∧ aggs.target below = .ok target ∧
      ((request = none ∧ final = aggs) ∨ ∃ last moved,
        aggs.insertChain target (clausesOf request) = .ok (last, moved) ∧
          final = { moved with grouping := some last }) := by
  simp only [groupBy, Result.bind_ok] at made
  obtain ⟨request, read, target, aimed, made⟩ := made
  cases request with
  | none =>
      cases Result.pure_ok.mp made
      exact ⟨none, target, read, aimed, Or.inl ⟨rfl, rfl⟩⟩
  | some shape =>
      simp only [Result.bind_ok, Result.pure_ok] at made
      obtain ⟨⟨last, moved⟩, inserted, rfl⟩ := made
      exact ⟨some shape, target, read, aimed, Or.inr ⟨last, moved, inserted, rfl⟩⟩

theorem groupedBy_ok (made : aggs.groupedBy name = .ok final) :
    ∃ id, aggs.idOf name = .ok id ∧ final = { aggs with grouping := some id } := by
  simp only [groupedBy, Result.bind_ok, Result.pure_ok] at made
  obtain ⟨id, found, _, _, rfl⟩ := made
  exact ⟨id, found, rfl⟩

end Aggregations

end ScopedClauses
