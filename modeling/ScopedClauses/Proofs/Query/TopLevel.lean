import ScopedClauses.Proofs.Query.Inserting

/-!
Insertion at the top of a query. The top is a place for one clause like any other, save that no
slot stands around it.
-/

namespace ScopedClauses

namespace Query

open Rose Tree Weaving

theorem branches_of_root {query : Query} (whole : query.Whole) :
    query.tree.branches = query.tree.root.toList :=
  branches_of_settled whole.settled

theorem sound_empty (mapping : Option Mapping) : Sound { mapping := mapping } :=
  ⟨⟨numbered_empty, rfl⟩, formed_nil⟩

theorem shape?_of_branches {query : Query} (whole : query.Whole) {result : Shape QueryNode}
    (shape : shapes query.tree.branches = [result]) : query.tree.shape? = some result := by
  obtain ⟨root, branches, rfl⟩ := shapes_eq_singleton shape
  rw [branches_of_root whole] at branches
  have rooted : query.tree.root = some root := by
    simpa using branches
  rw [shape?, rooted]
  rfl

structure LandsTop (spot : Branch QueryNode) (middle : Tree QueryNode) (route : List String)
    (effect : Shape QueryNode → List (Shape QueryNode)) : Prop where
  numbered : middle.Numbered
  settled : middle.detached = []
  site : (spot, arrive none route) ∈ sites none middle.branches
  completes : ∀ grown after, Regrown middle spot grown after → grown.label = spot.label →
    shapes after.branches = effect grown.shape

theorem Lands.top {before middle : Tree QueryNode} {root spot : Branch QueryNode}
    {route : List String} {effect : Shape QueryNode → List (Shape QueryNode)}
    (lands : Lands before root spot middle route effect) (outer : List String)
    (only : before.branches = [root])
    (entered : arrive (within none root.content) route = arrive none outer) :
    LandsTop spot middle outer fun shape => [.node root.label.toKeyed (effect shape)] := by
  refine ⟨lands.numbered, lands.settled, ?_, fun grown after regrown same => ?_⟩
  · rw [← entered]
    exact lands.site none (by rw [only]; exact top_site (by simp))
  · obtain ⟨root', grew, label, below⟩ := lands.completes grown after regrown same
    have replaced : updateAt root.id (fun _ => root') [root] = [root'] := by
      obtain ⟨entry, children⟩ := root
      simp [updateAt_cons]
    rw [grew.branches, only, replaced, shapes_cons_eq, ← node_eta root', shape_node, below, label]
    rfl

theorem LandsTop.trans {middle last : Tree QueryNode} {spot deeper : Branch QueryNode}
    {route further : List String} {effect : Shape QueryNode → List (Shape QueryNode)}
    {inner : Shape QueryNode → List (Shape QueryNode)} (lands : LandsTop spot middle route effect)
    (next : Lands middle spot deeper last further inner) (outer : List String)
    (joined : arrive (within (arrive none route) spot.content) further = arrive none outer) :
    LandsTop deeper last outer fun shape => effect (.node spot.label.toKeyed (inner shape)) := by
  refine ⟨next.numbered, next.settled, ?_, fun grown after regrown same => ?_⟩
  · rw [← joined]
    exact next.site _ lands.site
  · obtain ⟨spot', regrownSpot, spotLabel, below⟩ := next.completes grown after regrown same
    rw [lands.completes spot' after regrownSpot spotLabel, ← node_eta spot', shape_node, below,
      spotLabel]

/-! ### Joining with the root -/

def underBool (clause : Branch QueryNode) (first : Nat) : Branch QueryNode :=
  .node ⟨⟨none, QueryNode.emptyBool⟩, first⟩
    [.node ⟨⟨some "must", .slot mustPlace⟩, first + 1⟩ [clause]]

theorem numbered_underBool {clause : Branch QueryNode} {first next : Nat}
    (distinct : (numbers [clause]).Nodup) (known : ∀ number ∈ numbers [clause], number < first)
    (below : first + 1 < next) :
    (⟨some (underBool clause first), [], next⟩ : Tree QueryNode).Numbered := by
  have parts : numbers [underBool clause first] = first :: (first + 1) :: numbers [clause] := by
    simp [underBool, numbers_cons]
  constructor
  · simp only [branches, Option.toList_some, List.append_nil, parts, List.nodup_cons,
      List.mem_cons, not_or]
    refine ⟨⟨by omega, fun inside => ?_⟩, fun inside => ?_, distinct⟩
    · exact absurd (known _ inside) (Nat.lt_irrefl _)
    · have bound := known _ inside
      omega
  · simp only [branches, Option.toList_some, List.append_nil, parts, List.forall_mem_cons]
    refine ⟨by omega, below, fun number inside => ?_⟩
    have bound := known number inside
    omega

theorem ensureMust_beside (query : Query) {root : Branch QueryNode} {next : Nat}
    (distinct : (numbers [root]).Nodup) (known : ∀ number ∈ numbers [root], number < next) :
    ∃ after, (query.withTree
        ⟨some (bud none QueryNode.emptyBool next), [root], next + 1⟩).ensureSlot next "must" =
          .ok (next + 1, query.withTree after) ∧
      after.Numbered ∧ after.detached = [root] ∧
      after.root = some (.node ⟨⟨none, QueryNode.emptyBool⟩, next⟩
        [bud (some "must") (.slot mustPlace) (next + 1)]) := by
  let before : Tree QueryNode := ⟨some (bud none QueryNode.emptyBool next), [root], next + 1⟩
  have parts : before.branches = bud none QueryNode.emptyBool next :: [root] := rfl
  have absent : next ∉ numbers [root] := fun inside =>
    absurd (known _ inside) (Nat.lt_irrefl _)
  have numbered : before.Numbered := by
    constructor
    · rw [parts, bud, numbers_cons, numbers_nil, List.nil_append, List.nodup_cons]
      exact ⟨absent, distinct⟩
    · rw [parts, bud, numbers_cons, numbers_nil, List.nil_append, List.forall_mem_cons]
      exact ⟨Nat.lt_succ_self _, fun number inside => Nat.lt_succ_of_lt (known number inside)⟩
  have live : bud none QueryNode.emptyBool next ∈ before.live := by
    simp [Tree.live, parts, bud]
  obtain ⟨after, made, grew⟩ := ensureMust_ok (query.withTree before) numbered live
  refine ⟨after, made, grew.numbered numbered live, ?_, ?_⟩
  · rw [grew.parts.2]
    exact updateAt_of_not_mem _ _ absent
  · have rootIs : after.root.toList = [.node ⟨⟨none, QueryNode.emptyBool⟩, next⟩
        [bud (some "must") (.slot mustPlace) (next + 1)]] := by
      rw [grew.parts.1]
      simp [before, bud, updateAt_cons]
    cases grown : after.root <;> simp_all

theorem wrapInBool_root {query : Query} (whole : query.Whole) {root : Branch QueryNode}
    (rooted : query.tree.root = some root) :
    ∃ outer must after, query.wrapInBool root.id =
        (NodeRules.checkChild (QueryNode.slot mustPlace) root.content 0).map
          (fun _ => (outer.id, must.id, query.withTree after)) ∧
      (query.withTree after).Whole ∧ after.root = some outer ∧
      outer.label.toKeyed = ⟨none, QueryNode.emptyBool⟩ ∧ outer.children = [must] ∧
      must.label.toKeyed = ⟨some "must", .slot mustPlace⟩ ∧ must.children = [root] := by
  have only : query.tree.branches = [root] := by rw [branches_of_root whole, rooted]; rfl
  have distinct : (numbers [root]).Nodup := only ▸ whole.numbered.distinct
  have known : ∀ number ∈ numbers [root], number < query.tree.next :=
    only ▸ whole.numbered.bounded
  have parent := parent?_of_top whole.numbered (only ▸ List.mem_singleton_self root)
  have cut := detach_root whole.numbered whole.settled rooted
  obtain ⟨opened, made, numbered, detached, rootIs⟩ := ensureMust_beside query distinct known
  have mustNode : bud (some "must") (.slot mustPlace) (query.tree.next + 1) ∈ opened.nodes := by
    simp [nodes, rootIs, bud]
  have below : query.tree.next + 1 < opened.next := numbered.bounded (query.tree.next + 1)
    (by simp [branches, rootIs, detached, bud])
  have attached := attach_detached numbered detached mustNode
  refine ⟨underBool root query.tree.next, _,
    ⟨some (underBool root query.tree.next), [], opened.next⟩, ?_,
    ⟨numbered_underBool distinct known below, rfl⟩, rfl, rfl, rfl, rfl, rfl⟩
  simp only [withTree, bud] at made
  simp only [wrapInBool, parent, cut, Result.ok_bind, insertRoot]
  simp only [Result.pure_bind, made, Result.ok_bind]
  simp only [bud, id_node, content_node, children_node, rootIs, Option.map_some] at attached
  rw [attached]
  cases NodeRules.checkChild (QueryNode.slot mustPlace) root.content 0 with
  | error error => rfl
  | ok _ =>
      simp [underBool, Except.map, Rose.update, updateAll, extended, withTree, pure, Except.pure]

theorem wrapInBool_root_ok {query final : Query} (whole : query.Whole) {root : Branch QueryNode}
    (rooted : query.tree.root = some root) {outer must : Nat}
    (wrapped : query.wrapInBool root.id = .ok (outer, must, final)) :
    ∃ bool slot after, outer = bool.id ∧ must = slot.id ∧ final = query.withTree after ∧
      (query.withTree after).Whole ∧ query.tree.branches = [root] ∧
      after.root = some bool ∧ after.branches = [bool] ∧
      bool.label.toKeyed = ⟨none, QueryNode.emptyBool⟩ ∧ bool.children = [slot] ∧
      slot.label.toKeyed = ⟨some "must", .slot mustPlace⟩ ∧ slot.children = [root] := by
  obtain ⟨bool, slot, after, made, wholeAfter, rootIs, boolKeyed, boolBelow, slotKeyed, slotBelow⟩ :=
    wrapInBool_root whole rooted
  obtain ⟨_, _, same⟩ := Result.map_ok.mp (made.symm.trans wrapped)
  cases same
  have only := branches_of_root whole
  have grown := branches_of_root wholeAfter
  rw [rooted, Option.toList_some] at only
  rw [tree_withTree, rootIs, Option.toList_some] at grown
  exact ⟨bool, slot, after, rfl, rfl, rfl, wholeAfter, only, rootIs, grown, boolKeyed, boolBelow,
    slotKeyed, slotBelow⟩

theorem wrapInBool_clause {query : Query} (whole : query.Whole) {root : Branch QueryNode}
    (rooted : query.tree.root = some root) (bare : root.content.slot? = none) :
    ∃ outer must after, query.wrapInBool root.id = .ok (outer.id, must, query.withTree after) ∧
      (query.withTree after).Whole ∧ after.root = some outer ∧
      outer.content = QueryNode.emptyBool ∧ shapes after.branches = [conjunction [root.shape]] := by
  obtain ⟨outer, must, after, made, wholeAfter, rootIs, outerKeyed, outerBelow, mustKeyed,
    mustBelow⟩ := wrapInBool_root whole rooted
  rw [slot_takes mustPlace bare fun _ => rfl] at made
  refine ⟨outer, must.id, after, made, wholeAfter, rootIs, congrArg Keyed.content outerKeyed, ?_⟩
  have parts := branches_of_root wholeAfter
  rw [tree_withTree, rootIs] at parts
  rw [parts, Option.toList_some, shapes_cons_eq, shapes_nil, ← node_eta outer,
    shape_node, outerKeyed, outerBelow, shapes_cons_eq, shapes_nil, ← node_eta must,
    shape_node, mustKeyed, mustBelow, shapes_cons_eq, shapes_nil]
  rfl

theorem joinWith_root {query : Query} (whole : query.Whole) {root : Branch QueryNode}
    (rooted : query.tree.root = some root) (bareRoot : root.content.slot? = none)
    {node : QueryNode} (bare : node.slot? = none) (key : Option String) :
    ∃ id after, query.joinWith node key root.id = .ok (id, query.withTree after) ∧
      LandsTop (bud key node id) after [] fun shape => [conjunction [root.shape, shape]] := by
  obtain ⟨outer, must, wrapped, made, wholeWrapped, rootIs, outerKeyed, outerBelow, mustKeyed,
    mustBelow⟩ := wrapInBool_root whole rooted
  rw [slot_takes mustPlace bareRoot fun _ => rfl] at made
  have only : wrapped.branches = [outer] := by
    have parts := branches_of_root wholeWrapped
    rwa [tree_withTree, rootIs] at parts
  have liveOuter : outer ∈ wrapped.live := mem_preorderAll_of_mem (by simp [only])
  have splitOuter : outer = .node outer.label ([] ++ must :: []) := by
    rw [List.nil_append, ← outerBelow, node_eta]
  have liveMust : must ∈ wrapped.live :=
    mem_preorderAll_trans _ liveOuter (mem_preorderAll_of_mem (by simp [outerBelow]))
  have mustContent : must.content = .slot mustPlace := congrArg Keyed.content mustKeyed
  have outerContent : outer.content = QueryNode.emptyBool := congrArg Keyed.content outerKeyed
  obtain ⟨after, inserted, lands⟩ := insertNode_ok (query.withTree wrapped) wholeWrapped
    liveMust mustContent bare key (by simp [mustPlace])
  rw [splitOuter] at liveOuter
  have inOuter := lands.child [] [] [] wholeWrapped.numbered liveOuter fun scope => by
    rw [mustContent]
    rfl
  rw [← splitOuter] at inOuter
  refine ⟨wrapped.next, after, ?_, ?_⟩
  · simp only [joinWith, made, Except.map, Result.ok_bind]
    exact inserted
  · have total := inOuter.top [] only (by rw [outerContent]; rfl)
    simpa [outerKeyed, mustKeyed, mustBelow, shapes_cons_eq, conjunction, QueryNode.slotShape,
      mustPlace] using total

theorem joinWith_root_refuses {query : Query} (whole : query.Whole) {root : Branch QueryNode}
    (rooted : query.tree.root = some root) {own : Slot} (content : root.content = .slot own)
    (node : QueryNode) (key : Option String) :
    query.joinWith node key root.id = .error (.parameterUnderParameter own.name) := by
  obtain ⟨outer, must, wrapped, made, _⟩ := wrapInBool_root whole rooted
  rw [joinWith, made, content]
  rfl

/-! ### Placing at the top -/

theorem rootId?_root {query : Query} {root : Branch QueryNode}
    (rooted : query.tree.root = some root) : query.tree.rootId? = some root.id := by
  rw [rootId?, rooted]
  rfl

section Top

variable {query : Query} (sound : query.Sound) {root : Branch QueryNode}
  (rooted : query.tree.root = some root)

include sound rooted

theorem only_root : query.tree.branches = [root] := by
  rw [branches_of_root sound.toWhole, rooted]
  rfl

theorem live_root : root ∈ query.tree.live :=
  mem_preorderAll_of_mem (by simp [only_root sound rooted])

theorem effective_top :
    query.effective .top = if root.content.isBool then .slot root.id "must" else .top := by
  simp only [effective, rootId?_root rooted,
    isBool_live sound.numbered (live_root sound rooted)]

theorem boolean_root (bool : root.content.isBool = true) :
    ∃ clause, root.content = .compound clause ∧ clause.kind.slot? "must" = some mustPlace ∧
      query.effective .top = query.effective (.slot root.id "must") := by
  have live := live_root sound rooted
  have formed := formed_of_live sound live
  obtain ⟨clause, content, kind⟩ := QueryNode.kind_of_isBool formed.2 bool
  have declares : clause.kind.slot? "must" = some mustPlace := by rw [kind, boolean_must]
  refine ⟨clause, content, declares, ?_⟩
  rw [effective_top sound rooted, bool, if_pos rfl]
  rcases findSlot?_cases sound.numbered live "must" with ⟨missing, _⟩ | ⟨_, slot, _, first, found⟩
  · simp [effective, missing]
  · obtain ⟨slotContent, _⟩ := first.formed content declares formed
    have free := occupant?_live query sound.numbered (first.live live) slotContent
    simp only [mustPlace, if_true] at free
    simp [effective, found, free]

end Top

theorem place_congr {query : Query} {first second : Position}
    (same : query.effective first = query.effective second) :
    query.place first = query.place second := by
  funext node key
  simp only [place, same]

theorem cross_congr {query : Query} {first second : Position}
    (same : query.effective first = query.effective second) (refusal : Error)
    (boundary : Boundary) (rest : List Boundary) :
    cross refusal query first (boundary :: rest) = cross refusal query second (boundary :: rest) := by
  have clauses : query.clausesAt first = query.clausesAt second := by simp only [clausesAt, same]
  have existing : existingNested? query first boundary = existingNested? query second boundary := by
    cases boundary <;> simp only [existingNested?, clauses]
  have opened : openNested? query first boundary = openNested? query second boundary := by
    cases boundary <;> simp only [openNested?, place_congr same]
  simp only [cross, Crossable.existing?, Crossable.opened?, existing, opened]

theorem place_empty {query : Query} (whole : query.Whole) (bare : query.tree.root = none)
    (node : QueryNode) (key : Option String) :
    ∃ id after, query.place .top node key = .ok (id, query.withTree after) ∧
      LandsTop (bud key node id) after [] fun shape => [shape] := by
  have noRoot : query.tree.rootId? = none := by rw [rootId?, bare]; rfl
  refine ⟨query.tree.next, ⟨some (bud key node query.tree.next), [], query.tree.next + 1⟩,
    ?_, ⟨?_, ?_⟩, rfl, top_site (by simp [branches]), fun grown after regrown same => ?_⟩
  · simp only [place, effective, noRoot, insertRoot, bare, Result.pure_bind, whole.settled]
    rfl
  · simp [branches, bud]
  · simp [branches, bud]
  · have replaced : updateAt query.tree.next (fun _ => grown) [bud key node query.tree.next] =
        [grown] := by
      simp [bud, updateAt_cons]
    rw [regrown.branches]
    simp only [branches, Option.toList_some, List.append_nil]
    exact congrArg shapes replaced

theorem place_top {query : Query} (sound : query.Sound)
    (bareRoot : ∀ root, query.tree.root = some root → root.content.slot? = none)
    {node : QueryNode} (bare : node.slot? = none) (key : Option String) :
    ∃ id after, query.place .top node key = .ok (id, query.withTree after) ∧
      LandsTop (bud key node id) after [] fun shape =>
        add false shape (shapes query.tree.branches) := by
  cases rooted : query.tree.root with
  | none =>
      obtain ⟨id, after, placed, lands⟩ := place_empty sound.toWhole rooted node key
      refine ⟨id, after, placed, ?_⟩
      simpa only [branches_of_root sound.toWhole, rooted, Option.toList_none, shapes_nil, add_nil]
        using lands
  | some root =>
      have only := only_root sound rooted
      cases bool : root.content.isBool with
      | true =>
          obtain ⟨clause, content, declares, same⟩ := boolean_root sound rooted bool
          obtain ⟨id, after, placed, lands⟩ := place_slot sound.toWhole (live_root sound rooted)
            content declares (formed_of_live sound (live_root sound rooted)) bare key
          refine ⟨id, after, by rw [place_congr same]; exact placed, ?_⟩
          have top := lands.top [] only (by
            rw [isBool_within (formed_of_live sound (live_root sound rooted)).2 bool])
          have effect : (fun shape => add false shape (shapes query.tree.branches)) = fun shape =>
              [.node root.label.toKeyed
                (changeSlot mustPlace (add true shape) (shapes root.children))] := by
            funext shape
            rw [only, shapes_cons_eq, shapes_nil, add_single, isBool_shape, bool, if_pos rfl, inSlot,
              label_shape, children_shape]
            rfl
          rwa [effect]
      | false =>
          obtain ⟨id, after, joined, lands⟩ :=
            joinWith_root sound.toWhole rooted (bareRoot root rooted) bare key
          refine ⟨id, after, ?_, ?_⟩
          · rw [← joined, place, effective_top sound rooted, bool]
            simp only [Bool.false_eq_true, if_false, rootId?_root rooted]
          · have effect : (fun shape => add false shape (shapes query.tree.branches)) = fun shape =>
                [conjunction [root.shape, shape]] := by
              funext shape
              rw [only, shapes_cons_eq, shapes_nil, add_single, isBool_shape, bool]
              rfl
            rwa [effect]

theorem existing_top {query : Query} (sound : query.Sound)
    (plain : ∀ root, query.tree.root = some root → root.content.isBool = false) (path : String) :
    (query.existingNested? .top (.enter path) = none ∧
        (standing false (shapes query.tree.branches)).any (opens path) = false) ∨
      ∃ root, query.tree.root = some root ∧ root.content.nestedPath? = some path ∧
        query.existingNested? .top (.enter path) = some (.slot root.id "query") ∧
        (standing false (shapes query.tree.branches)).any (opens path) = true := by
  cases rooted : query.tree.root with
  | none =>
      have noRoot : query.tree.rootId? = none := by rw [rootId?, rooted]; rfl
      refine Or.inl ⟨by simp [existingNested?, clausesAt, effective, noRoot], ?_⟩
      simp [branches_of_root sound.toWhole, rooted, standing_nil]
  | some root =>
      have bool := plain root rooted
      have looked : query.existingNested? .top (.enter path) =
          if root.content.nestedPath? = some path then some (.slot root.id "query") else none := by
        have effective := effective_top sound rooted
        rw [bool, if_neg (by simp)] at effective
        simp only [existingNested?, clausesAt, effective, rootId?_root rooted, Option.toList_some,
          List.find?_cons, List.find?_nil, get?_live sound.numbered (live_root sound rooted),
          Option.bind_some]
        by_cases enters : root.content.nestedPath? = some path <;> simp [enters]
      have met : (standing false (shapes query.tree.branches)).any (opens path) =
          decide (root.content.nestedPath? = some path) := by
        simp [only_root sound rooted, shapes_cons_eq, standing_single, isBool_shape, bool,
          opens_shape]
      rw [looked, met]
      by_cases enters : root.content.nestedPath? = some path
      · exact Or.inr ⟨root, rfl, enters, by simp [enters], by simp [enters]⟩
      · exact Or.inl ⟨by simp [enters], by simp [enters]⟩

def CrossesTop (refusal : Error) (query : Query) (node : QueryNode) (key : Option String)
    (route : List String) : Prop :=
  ∃ position crossed id after,
    cross refusal query .top (route.map .enter) = .ok (position, crossed) ∧
    crossed.place position node key = .ok (id, query.withTree after) ∧
    LandsTop (bud key node id) after route fun shape =>
      weave route false shape (shapes query.tree.branches)

section Crossing

variable (refusal : Error) {node : QueryNode} (bare : node.slot? = none) (key : Option String)
  {query : Query} (sound : query.Sound) {root : Branch QueryNode}

include bare sound

theorem cross_place_bool (rooted : query.tree.root = some root) (bool : root.content.isBool = true)
    (path : String) (rest : List String) :
    CrossesTop refusal query node key (path :: rest) := by
  have live := live_root sound rooted
  have only := only_root sound rooted
  have formed := formed_of_live sound live
  obtain ⟨clause, content, declares, same⟩ := boolean_root sound rooted bool
  obtain ⟨position, crossed, id, after, crossing, placing, lands⟩ :=
    cross_place refusal bare key (path :: rest) sound.toWhole live content declares formed
  refine ⟨position, crossed, id, after, (cross_congr same refusal _ _).trans crossing, placing, ?_⟩
  have top := lands.top (path :: rest) only (by rw [isBool_within formed.2 bool])
  have boolShape : Weaving.isBool root.shape = true := by rw [isBool_shape, bool]
  have effect : (fun shape => weave (path :: rest) false shape (shapes query.tree.branches)) =
      fun shape => [.node root.label.toKeyed
        (changeSlot mustPlace (weave (path :: rest) true shape) (shapes root.children))] := by
    funext shape
    rw [only, shapes_cons_eq, shapes_nil, weave_bool _ _ boolShape, inSlot, label_shape,
      children_shape]
  rwa [effect]

theorem cross_place_entered (rooted : query.tree.root = some root)
    (plain : root.content.isBool = false) {path : String}
    (enters : root.content.nestedPath? = some path)
    (found : query.existingNested? .top (.enter path) = some (.slot root.id "query"))
    (rest : List String) :
    CrossesTop refusal query node key (path :: rest) := by
  have live := live_root sound rooted
  have only := only_root sound rooted
  have formed := formed_of_live sound live
  obtain ⟨inner, innerContent, innerKind⟩ := QueryNode.kind_of_nestedPath formed.2 enters
  obtain ⟨position, crossed, id, after, crossing, placing, lands⟩ :=
    cross_place refusal bare key rest sound.toWhole live innerContent
      (by rw [innerKind]; exact nested_query) formed
  refine ⟨position, crossed, id, after, (cross_existing found).trans crossing, placing, ?_⟩
  have top := lands.top (path :: rest) only (by
    simp [within, Scoped.boundary?, enters, Boundary.inside, arrive])
  have entered : opens path root.shape = true := by simp [opens_shape, enters]
  have effect : (fun shape => weave (path :: rest) false shape (shapes query.tree.branches)) =
      fun shape => [.node root.label.toKeyed
        (changeSlot queryPlace (weave rest queryPlace.multiple shape) (shapes root.children))] := by
    funext shape
    have opened : (standing false [root.shape]).any (opens path) = true := by
      simp [standing_single, isBool_shape, plain, entered]
    rw [only, shapes_cons_eq, shapes_nil, weave_opened opened, changeStanding_single, isBool_shape,
      plain]
    simp [changeFirst, entered, inSlot, label_shape, children_shape]
  rwa [effect]

theorem cross_place_opened
    (bareRoot : ∀ root, query.tree.root = some root → root.content.slot? = none) {path : String}
    (missing : query.existingNested? .top (.enter path) = none)
    (closed : (standing false (shapes query.tree.branches)).any (opens path) = false)
    (rest : List String) :
    CrossesTop refusal query node key (path :: rest) := by
  obtain ⟨opener, made, placed, landsOpener⟩ :=
    place_top sound bareRoot (rfl : (QueryNode.enter path).slot? = none) none
  have liveOpener : bud none (QueryNode.enter path) opener ∈ made.live :=
    mem_of_site landsOpener.site
  obtain ⟨position, crossed, id, after, crossing, placing, lands⟩ :=
    cross_place refusal bare key rest
      (⟨landsOpener.numbered, landsOpener.settled⟩ : (query.withTree made).Whole)
      liveOpener rfl nested_query (formedSlots_enter path)
  refine ⟨position, crossed, id, after,
    (cross_opened missing (opened_of_place placed)).trans crossing, placing, ?_⟩
  have total := landsOpener.trans lands (path :: rest) rfl
  simp only [weave_closed closed]
  exact total

theorem cross_place_top
    (bareRoot : ∀ root, query.tree.root = some root → root.content.slot? = none)
    (route : List String) :
    CrossesTop refusal query node key route := by
  cases route with
  | nil =>
      obtain ⟨id, after, placed, lands⟩ := place_top sound bareRoot bare key
      exact ⟨.top, query, id, after, rfl, placed, lands⟩
  | cons path rest =>
      by_cases anyBool : ∃ root, query.tree.root = some root ∧ root.content.isBool = true
      · obtain ⟨root, rooted, bool⟩ := anyBool
        exact cross_place_bool refusal bare key sound rooted bool path rest
      · have plain : ∀ root, query.tree.root = some root → root.content.isBool = false := by
          intro root rooted
          simpa using fun bool => anyBool ⟨root, rooted, bool⟩
        rcases existing_top sound plain path with
          ⟨missing, closed⟩ | ⟨root, rooted, enters, found, _⟩
        · exact cross_place_opened refusal bare key sound bareRoot missing closed rest
        · exact cross_place_entered refusal bare key sound rooted (plain root rooted) enters found
            rest

end Crossing

/-! ### Inserting at the top -/

def FollowsTop (query : Query) (woven : Result (List (Shape QueryNode)))
    (inserted : Result Query) : Prop :=
  match woven with
  | .error error => inserted = .error error
  | .ok roots => ∃ after, inserted = .ok (query.withTree after) ∧ (query.withTree after).Sound ∧
      shapes after.branches = roots

theorem FollowsTop.ok {query final : Query} {woven : Result (List (Shape QueryNode))}
    (follows : FollowsTop query woven (.ok final)) :
    ∃ after, final = query.withTree after ∧ (query.withTree after).Sound ∧
      woven = .ok (shapes after.branches) := by
  cases woven with
  | error error => cases follows
  | ok roots =>
      obtain ⟨after, same, sound, rfl⟩ := follows
      exact ⟨after, Except.ok.inj same, sound, rfl⟩

theorem cross_place_refused {query : Query} (sound : query.Sound) {root : Branch QueryNode}
    (rooted : query.tree.root = some root) {own : Slot} (content : root.content = .slot own)
    (refusal : Error) (route : List String) (node : QueryNode) (key : Option String) :
    (cross refusal query .top (route.map .enter) >>= fun (position, query) =>
      query.place position node key) = .error (.parameterUnderParameter own.name) := by
  have refused : ∀ node key, query.place .top node key =
      .error (.parameterUnderParameter own.name) := by
    intro node key
    rw [place, effective_top sound rooted, content]
    simp only [QueryNode.isBool, Bool.false_eq_true, if_false, rootId?_root rooted]
    exact joinWith_root_refuses sound.toWhole rooted content node key
  cases route with
  | nil => exact refused node key
  | cons path rest =>
      have plain : ∀ other, query.tree.root = some other → other.content.isBool = false := by
        intro other same
        rw [rooted] at same
        cases same
        rw [content]
        rfl
      rcases existing_top sound plain path with ⟨missing, _⟩ | ⟨other, same, enters, _⟩
      · have failed : Crossable.opened? query Position.top (.enter path) =
            (.error (.parameterUnderParameter own.name) :
              Result (Option (Position × Query))) := by
          simp only [Crossable.opened?, openNested?, refused]
          rfl
        rw [List.map_cons, cross, show Crossable.existing? query Position.top (.enter path) =
          (none : Option Position) from missing]
        simp only [failed]
        rfl
      · rw [rooted] at same
        cases same
        rw [content] at enters
        cases enters

theorem place_top_refuses {query : Query} (sound : query.Sound) {root : Branch QueryNode}
    (rooted : query.tree.root = some root) (bareRoot : root.content.slot? = none) (inner : Slot)
    (key : Option String) :
    query.place .top (.slot inner) key = .error (.parameterUnderParameter inner.name) := by
  cases bool : root.content.isBool with
  | true =>
      obtain ⟨clause, content, declares, same⟩ := boolean_root sound rooted bool
      rw [place_congr same]
      exact place_slot_refuses sound.toWhole (live_root sound rooted) content declares
        (formed_of_live sound (live_root sound rooted)) inner key
  | false =>
      obtain ⟨outer, must, wrapped, made, whole, rootIs, _, outerBelow, mustKeyed, _⟩ :=
        wrapInBool_root sound.toWhole rooted
      rw [slot_takes mustPlace bareRoot fun _ => rfl] at made
      have liveOuter : outer ∈ wrapped.live :=
        mem_preorderAll_of_mem (by simp [branches, rootIs])
      have liveMust : must ∈ wrapped.live :=
        mem_preorderAll_trans _ liveOuter (mem_preorderAll_of_mem (by simp [outerBelow]))
      rw [place, effective_top sound rooted, bool]
      simp only [Bool.false_eq_true, if_false, rootId?_root rooted, joinWith, made, Except.map,
        Result.ok_bind]
      exact insertNode_refuses (query.withTree wrapped) whole liveMust
        (congrArg Keyed.content mustKeyed) inner key

theorem formed_weave_top {roots : List (Shape QueryNode)} (formed : Formed roots)
    (few : roots.length ≤ 1) {incoming : Shape QueryNode} (formedIncoming : Formed [incoming])
    (bareRoots : ∀ root ∈ roots, root.label.content.slot? = none)
    (bare : incoming.label.content.slot? = none) (route : List String) :
    Formed (weave route false incoming roots) := by
  have slot : FormedSlot queryPlace roots :=
    ⟨formed, by simpa using bareRoots, fun _ => by simpa using few⟩
  exact (formedSlot_weave formedIncoming bare route slot).1

theorem followsTop_of_lands (query : Query) {entry : Keyed QueryNode}
    {slots : List (Shape QueryNode)} (known : AllKnown [.node entry slots]) {id : Nat}
    {after : Tree QueryNode} {route : List String}
    {effect : Shape QueryNode → List (Shape QueryNode)}
    (lands : LandsTop (bud entry.key entry.content id) after route effect)
    (formed : ∀ incoming, Formed [incoming] → incoming.label = entry → Formed (effect incoming)) :
    FollowsTop query
      (correct query.mapping query.autocorrect (arrive none route) (.node entry slots) >>=
        fun incoming => pure (effect incoming))
      ((query.withTree after).insertSlots id slots) := by
  rw [allKnown_cons] at known
  have placed := lands.completes _ after
    (Regrown.refl lands.numbered (mem_of_site lands.site)) rfl
  have soundAfter : (query.withTree after).Sound := by
    refine ⟨⟨lands.numbered, lands.settled⟩, ?_⟩
    rw [tree_withTree, placed]
    exact formed _ (formed_bud _ known.1) rfl
  have inserted := insertSlots_follows soundAfter lands.site slots known.2.1
  change Follows (query.withTree after) (bud entry.key entry.content id)
    (correctSlots query.mapping query.autocorrect
      (within (arrive none route) entry.content) entry.content slots [])
    ((query.withTree after).insertSlots id slots) at inserted
  simp only [correct, Result.bind_pure_map]
  cases corrected : correctSlots query.mapping query.autocorrect
      (within (arrive none route) entry.content) entry.content slots [] with
  | error error =>
      rw [corrected] at inserted
      exact inserted
  | ok done =>
      rw [corrected] at inserted
      obtain ⟨grown, final, result, grew, label, below⟩ := inserted
      have woven := lands.completes grown final grew label
      refine ⟨final, result, ⟨⟨grew.numbered lands.numbered (mem_of_site lands.site),
        grew.settled lands.settled⟩, ?_⟩, ?_⟩
      · have made : correct query.mapping query.autocorrect (arrive none route) (.node entry slots) =
            .ok (.node entry done) := by
          rw [correct, corrected]
          rfl
        have whole := formed_correct (.node entry slots) ((allKnown_cons _ _ _).mpr known) made
        rw [tree_withTree, woven, ← node_eta grown, shape_node, below, label]
        exact formed _ whole.1 rfl
      · rw [woven, ← node_eta grown, shape_node, below, label]
        rfl

section InsertClause

variable {query : Query} (sound : query.Sound) {entry : Keyed QueryNode}
  {slots : List (Shape QueryNode)} (known : AllKnown [.node entry slots]) {refusal : Error}

include sound known

/-- Where neither a slot comes in nor stands alone at the top, a clause is crossed to and placed. -/
theorem insertClause_woven {route : List String} (settled : query.settle .top entry.content =
      cross refusal query .top (route.map .enter)) (bare : entry.content.slot? = none)
    (bareRoot : ∀ root, query.tree.root = some root → root.content.slot? = none) :
    FollowsTop query
      (correct query.mapping query.autocorrect (arrive none route) (.node entry slots) >>=
        fun incoming => pure (weave route false incoming (shapes query.tree.branches)))
      ((·.2) <$> query.insertClause .top (.node entry slots)) := by
  obtain ⟨position, crossed, id, after, crossing, placing, lands⟩ :=
    cross_place_top refusal bare entry.key sound bareRoot route
  rw [insertClause_placed slots (settled.trans crossing) placing]
  refine followsTop_of_lands query known lands fun incoming formedIncoming same => ?_
  have few : (shapes query.tree.branches).length ≤ 1 := by
    rw [branches_of_root sound.toWhole]
    cases query.tree.root <;> simp [shapes_cons_eq]
  refine formed_weave_top sound.formed few formedIncoming ?_ (same ▸ bare) route
  intro shape inside
  obtain ⟨root, top, rfl⟩ := mem_shapes.mp inside
  rw [branches_of_root sound.toWhole] at top
  rw [content_shape]
  exact bareRoot root (by simpa using top)

theorem insertClause_alone (settled : query.settle .top entry.content =
      cross refusal query .top []) (bare : query.tree.root = none) :
    FollowsTop query
      (correct query.mapping query.autocorrect none (.node entry slots) >>= fun incoming =>
        pure [incoming])
      ((·.2) <$> query.insertClause .top (.node entry slots)) := by
  obtain ⟨id, after, placing, lands⟩ := place_empty sound.toWhole bare entry.content entry.key
  rw [insertClause_placed slots settled placing]
  exact followsTop_of_lands query known lands fun incoming formed _ => formed

end InsertClause

/-- Inserting a clause at the top weaves it in. -/
theorem insertClause_top {query : Query} (sound : query.Sound) (shape : Shape QueryNode)
    (known : AllKnown [shape]) :
    FollowsTop query
      (weaveTop query.mapping query.autocorrect shape (shapes query.tree.branches))
      ((·.2) <$> query.insertClause .top shape) := by
  obtain ⟨entry, slots⟩ := shape
  rcases settle_cases query .top entry.content with
    ⟨error, unrouted, failed⟩ | ⟨route, refusal, routed, settled⟩
  · have unrouted : routeFor query.mapping query.autocorrect none entry.content = .error error :=
      unrouted
    rw [insertClause_refused slots (by rw [failed]; rfl)]
    simp only [weaveTop, label_node, unrouted]
    rfl
  · have routed : routeFor query.mapping query.autocorrect none entry.content = .ok route := routed
    simp only [weaveTop, label_node, routed, Result.ok_bind]
    cases rooted : query.tree.root with
    | none =>
        have empty : shapes query.tree.branches = [] := by
          rw [branches_of_root sound.toWhole, rooted]
          rfl
        simp only [empty, refuseJoin, Result.pure_bind]
        cases slotted : entry.content.slot? with
        | none =>
            have woven := insertClause_woven sound known settled slotted (by simp [rooted])
            rwa [empty] at woven
        | some inner =>
            rw [QueryNode.slot?_eq_some.mp slotted] at routed
            obtain rfl := route_of_slot routed
            exact insertClause_alone sound known settled rooted
    | some root =>
        have only : shapes query.tree.branches = [root.shape] := by
          rw [only_root sound rooted, shapes_cons_eq, shapes_nil]
        cases slottedRoot : root.content.slot? with
        | some own =>
            have isSlot := QueryNode.slot?_eq_some.mp slottedRoot
            rw [insertClause_refused slots (by
              rw [settled]
              exact cross_place_refused sound rooted isSlot refusal route _ _)]
            rw [only, refuseJoin, content_shape, isSlot, refuseSlot_slot]
            rfl
        | none =>
            have allowed : refuseSlot root.shape.label.content = .ok () := by
              rw [content_shape]
              exact refuseSlot_ok.mpr slottedRoot
            cases slotted : entry.content.slot? with
            | some inner =>
                have isSlot := QueryNode.slot?_eq_some.mp slotted
                rw [isSlot] at routed
                obtain rfl := route_of_slot routed
                rw [insertClause_refused slots (by
                  rw [settled, isSlot]
                  exact place_top_refuses sound rooted slottedRoot inner entry.key)]
                rw [only, refuseJoin, allowed, isSlot, refuseSlot_slot]
                rfl
            | none =>
                have admitted : refuseSlot entry.content = .ok () := refuseSlot_ok.mpr slotted
                have woven := insertClause_woven sound known settled slotted fun other same => by
                  rw [rooted] at same
                  cases same
                  exact slottedRoot
                rw [only] at woven ⊢
                simp only [refuseJoin, allowed, admitted, Result.ok_bind]
                exact woven

theorem followsTop_bind {query : Query} {woven : Result (List (Shape QueryNode))}
    {inserted : Result Query}
    {weaveNext : List (Shape QueryNode) → Result (List (Shape QueryNode))}
    {insertNext : Query → Result Query} (first : FollowsTop query woven inserted)
    (next : ∀ after, (query.withTree after).Sound → FollowsTop (query.withTree after)
      (weaveNext (shapes after.branches)) (insertNext (query.withTree after))) :
    FollowsTop query (woven >>= weaveNext) (inserted >>= insertNext) := by
  cases wove : woven with
  | error error =>
      rw [wove] at first
      have failed : inserted = .error error := first
      rw [failed]
      rfl
  | ok roots =>
      rw [wove] at first
      obtain ⟨after, rfl, sound, rfl⟩ := first
      simp only [Result.ok_bind]
      have second := next after sound
      cases wovenNext : weaveNext (shapes after.branches) with
      | error error =>
          rw [wovenNext] at second
          exact second
      | ok final =>
          rw [wovenNext] at second
          exact second

theorem insertClauses_top {query : Query} (sound : query.Sound) (clauses : List (Shape QueryNode))
    (known : AllKnown clauses) :
    FollowsTop query
      (weaveTopAll query.mapping query.autocorrect clauses (shapes query.tree.branches))
      (query.insertClauses .top clauses) := by
  induction clauses generalizing query with
  | nil => exact ⟨query.tree, rfl, sound, rfl⟩
  | cons shape rest ih =>
      rw [allKnown_cons_iff] at known
      rw [weaveTopAll, insertClauses_cons]
      exact followsTop_bind (insertClause_top sound shape known.1) fun after soundAfter =>
        ih soundAfter known.2

end Query

end ScopedClauses
