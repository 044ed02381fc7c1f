import Mathlib.Data.List.Find
import ScopedClauses.Proofs.Query.Form
import ScopedClauses.Proofs.Scope.Crossing

/-!
Insertion into query trees does what weaving does to their shapes. Every step grows one branch of
the tree, and a clause that was placed can be grown further where it stands.
-/

namespace ScopedClauses

namespace Query

open Rose Tree Weaving

structure Whole (query : Query) : Prop where
  numbered : query.tree.Numbered
  settled : query.tree.detached = []

def withTree (query : Query) (tree : Tree QueryNode) : Query := { query with tree := tree }

@[simp] theorem tree_withTree (query : Query) (tree : Tree QueryNode) :
    (query.withTree tree).tree = tree := rfl

@[simp] theorem withTree_withTree (query : Query) (first second : Tree QueryNode) :
    (query.withTree first).withTree second = query.withTree second := rfl

theorem Whole.regrown {query : Query} (whole : query.Whole) {old new : Branch QueryNode}
    {after : Tree QueryNode} (regrown : Regrown query.tree old new after)
    (member : old ∈ query.tree.live) : (query.withTree after).Whole :=
  ⟨regrown.numbered whole.numbered member, regrown.settled whole.settled⟩

/-! ### Slots -/

theorem isNamed_shape (name : String) (branch : Branch QueryNode) :
    isNamed name branch.shape = branch.content.slot?.any (·.name = name) := by
  rw [isNamed, content_shape]

theorem isBool_shape (branch : Branch QueryNode) :
    Weaving.isBool branch.shape = branch.content.isBool := by
  rw [Weaving.isBool, content_shape]

theorem opens_shape (path : String) (branch : Branch QueryNode) :
    opens path branch.shape = decide (branch.content.nestedPath? = some path) := by
  rw [opens, content_shape]

structure FirstSlot (holder : Branch QueryNode) (name : String)
    (front : List (Branch QueryNode)) (slot : Branch QueryNode) (back : List (Branch QueryNode)) :
    Prop where
  parts : holder.children = front ++ slot :: back
  absent : ∀ child ∈ front, isNamed name child.shape = false
  named : isNamed name slot.shape = true

namespace FirstSlot

variable {holder slot : Branch QueryNode} {name : String} {front back : List (Branch QueryNode)}

theorem holder_eq (first : FirstSlot holder name front slot back) :
    holder = .node holder.label (front ++ slot :: back) := by
  rw [← first.parts, node_eta]

theorem live {tree : Tree QueryNode} (first : FirstSlot holder name front slot back)
    (member : holder ∈ tree.live) : slot ∈ tree.live :=
  mem_preorderAll_trans tree.branches member
    (mem_preorderAll_of_mem (by rw [first.parts]; simp))

theorem change_eq (first : FirstSlot holder name front slot back) {place : Slot}
    (named : place.name = name) (change : List (Shape QueryNode) → List (Shape QueryNode)) :
    changeSlot place change (shapes holder.children) =
      shapes front ++ .node slot.label.toKeyed (change (shapes slot.children)) :: shapes back := by
  subst named
  rw [first.parts, shapes_append, shapes_cons_eq, changeSlot_split change, label_shape,
    children_shape]
  · intro other inFront
    obtain ⟨child, below, rfl⟩ := mem_shapes.mp inFront
    exact first.absent child below
  · exact first.named

theorem clausesIn_eq (first : FirstSlot holder name front slot back) :
    clausesIn name (shapes holder.children) = shapes slot.children := by
  have found : (shapes holder.children).find? (isNamed name) = some slot.shape := by
    rw [List.find?_eq_some_iff_append]
    refine ⟨first.named, shapes front, shapes back, ?_, fun other inFront => ?_⟩
    · rw [first.parts, shapes_append, shapes_cons_eq]
    · obtain ⟨child, below, rfl⟩ := mem_shapes.mp inFront
      simp [first.absent child below]
  rw [clausesIn, found]
  exact children_shape slot

variable {clause : CompoundClause} {place : Slot}

theorem formed (first : FirstSlot holder name front slot back)
    (content : holder.content = .compound clause)
    (declares : clause.kind.slot? name = some place)
    (formed : FormedSlots holder.content (shapes holder.children)) :
    slot.content = .slot place ∧ FormedSlot place (shapes slot.children) := by
  have declaredSlots := formed.2
  rw [content] at declaredSlots
  obtain ⟨own, ownContent, sameName⟩ := isNamed_iff.mp first.named
  rw [content_shape] at ownContent
  obtain ⟨found, foundContent, foundDeclared⟩ := declaredSlots.2.1 slot.content (by
    simp [first.parts, shapes_append, shapes_cons_eq, content_shape])
  rw [foundContent] at ownContent
  cases ownContent
  rw [sameName, declares] at foundDeclared
  cases Option.some.inj foundDeclared
  refine ⟨foundContent, ?_⟩
  have below := formed.1
  rw [first.parts, shapes_append, shapes_cons_eq, formed_append, formed_cons_iff,
    ← node_eta slot, shape_node, formed_cons] at below
  obtain ⟨_, ⟨holds, clauses, _⟩, _⟩ := below
  exact ⟨clauses, foundContent ▸ holds⟩

end FirstSlot

theorem findSlot?_cases {query : Query} (numbered : query.tree.Numbered)
    {holder : Branch QueryNode} (member : holder ∈ query.tree.live) (name : String) :
    (query.findSlot? holder.id name = none ∧
        ∀ child ∈ holder.children, isNamed name child.shape = false) ∨
      ∃ front slot back, FirstSlot holder name front slot back ∧
        query.findSlot? holder.id name = some slot.id := by
  have looked : query.findSlot? holder.id name =
      (holder.children.find? fun child => isNamed name child.shape).map Rose.id := by
    simp only [findSlot?, findChild?, childBranches_of_live numbered member, isNamed_shape]
  cases found : holder.children.find? fun child => isNamed name child.shape with
  | none =>
      refine Or.inl ⟨by rw [looked, found]; rfl, ?_⟩
      simpa using found
  | some slot =>
      obtain ⟨named, front, back, parts, others⟩ := List.find?_eq_some_iff_append.mp found
      refine Or.inr ⟨front, slot, back, ⟨parts, ?_, named⟩, by rw [looked, found]; rfl⟩
      simpa using others

theorem changeSlot_missing {holder : Branch QueryNode} {place : Slot}
    (absent : ∀ child ∈ holder.children, isNamed place.name child.shape = false)
    (change : List (Shape QueryNode) → List (Shape QueryNode)) :
    changeSlot place change (shapes holder.children) =
      shapes holder.children ++ [QueryNode.slotShape place (change [])] := by
  refine changeSlot_absent change fun slot found => ?_
  obtain ⟨child, below, rfl⟩ := mem_shapes.mp found
  exact absent child below

theorem ensureSlot_missing {query : Query} (numbered : query.tree.Numbered)
    {holder : Branch QueryNode} (member : holder ∈ query.tree.live) {clause : CompoundClause}
    (content : holder.content = .compound clause) {name : String} {place : Slot}
    (declares : clause.kind.slot? name = some place)
    (missing : query.findSlot? holder.id name = none) :
    ∃ after, query.ensureSlot holder.id name = .ok (query.tree.next, query.withTree after) ∧
      Regrown query.tree holder
        (extended holder (bud (some place.name) (.slot place) query.tree.next)) after ∧
      after.next = query.tree.next + 1 := by
  have named : place.name = name := CompoundKind.slot?_name declares
  have checked : NodeRules.checkChild holder.content (.slot place) holder.children.length =
      .ok () := by
    simp [NodeRules.checkChild, QueryNode.checkChild, content, named, declares, pure, Except.pure]
  have got : query.tree.get holder.id = .ok (.compound clause) := by
    simp [Tree.get, find_of_find? (find?_of_live numbered member), Functor.map, Except.map,
      content]
  obtain ⟨after, made, grew, next⟩ := insert_taken numbered member (some place.name) checked
  refine ⟨after, ?_, grew, next⟩
  simp only [ensureSlot, missing, got, Result.ok_bind, declares, made]
  rfl

/-! ### Landing -/

structure Lands (before : Tree QueryNode) (holder spot : Branch QueryNode)
    (middle : Tree QueryNode) (route : List String)
    (effect : Shape QueryNode → List (Shape QueryNode)) : Prop where
  numbered : middle.Numbered
  settled : middle.detached = []
  site : ∀ around, (holder, around) ∈ sites none before.branches →
    (spot, arrive (within around holder.content) route) ∈ sites none middle.branches
  completes : ∀ grown after, Regrown middle spot grown after → grown.label = spot.label →
    ∃ holder', Regrown before holder holder' after ∧ holder'.label = holder.label ∧
      shapes holder'.children = effect grown.shape

namespace Lands

variable {before middle : Tree QueryNode} {holder spot : Branch QueryNode}
  {route : List String} {effect : Shape QueryNode → List (Shape QueryNode)}

theorem live (lands : Lands before holder spot middle route effect)
    (member : holder ∈ before.live) : spot ∈ middle.live := by
  obtain ⟨around, site⟩ := exists_site_of_live member
  exact mem_of_site (lands.site around site)

theorem child {entry : Entry QueryNode} (lands : Lands before holder spot middle route effect)
    (outer : List String) (front back : List (Branch QueryNode))
    (numbered : before.Numbered) (member : .node entry (front ++ holder :: back) ∈ before.live)
    (entered : ∀ scope, arrive (within scope holder.content) route = arrive scope outer) :
    Lands before (.node entry (front ++ holder :: back)) spot middle outer fun shape =>
      shapes front ++ .node holder.label.toKeyed (effect shape) :: shapes back := by
  refine ⟨lands.numbered, lands.settled, fun around site => ?_, fun grown after regrown same => ?_⟩
  · rw [← entered]
    exact lands.site _ (child_site none before.branches site (by simp))
  · obtain ⟨holder', regrownHolder, label, below⟩ := lands.completes grown after regrown same
    refine ⟨_, regrownHolder.child front back numbered member, rfl, ?_⟩
    rw [children_node, shapes_append, shapes_cons_eq, ← node_eta holder', shape_node, below, label]

theorem regrown {start : Tree QueryNode} {old : Branch QueryNode}
    (lands : Lands before holder spot middle route effect) (numbered : start.Numbered)
    (member : old ∈ start.live) (grew : Regrown start old holder before)
    (label : holder.label = old.label) : Lands start old spot middle route effect := by
  refine ⟨lands.numbered, lands.settled, fun around site => ?_, fun grown after regrown same => ?_⟩
  · have content : holder.content = old.content := congrArg (·.content) label
    rw [← content]
    exact lands.site around (grew.site_new numbered site)
  · obtain ⟨holder', regrownHolder, sameLabel, below⟩ := lands.completes grown after regrown same
    exact ⟨holder', grew.trans regrownHolder numbered member, sameLabel.trans label, below⟩

theorem trans {last : Tree QueryNode} {deeper : Branch QueryNode} {further : List String}
    {inner : Shape QueryNode → List (Shape QueryNode)}
    (lands : Lands before holder spot middle route effect)
    (next : Lands middle spot deeper last further inner) (outer : List String)
    (joined : ∀ scope, arrive (within (arrive scope route) spot.content) further =
      arrive scope outer) :
    Lands before holder deeper last outer fun shape =>
      effect (.node spot.label.toKeyed (inner shape)) := by
  refine ⟨next.numbered, next.settled, fun around site => ?_, fun grown after regrown same => ?_⟩
  · rw [← joined]
    exact next.site _ (lands.site around site)
  · obtain ⟨spot', regrownSpot, spotLabel, below⟩ := next.completes grown after regrown same
    obtain ⟨holder', regrownHolder, label, result⟩ := lands.completes spot' after regrownSpot spotLabel
    refine ⟨holder', regrownHolder, label, ?_⟩
    rw [result, ← node_eta spot', shape_node, below, spotLabel]

end Lands

theorem insertNode_ok (query : Query) (whole : query.Whole) {slot : Branch QueryNode}
    (member : slot ∈ query.tree.live) {place : Slot} (content : slot.content = .slot place)
    {node : QueryNode} (bare : node.slot? = none) (key : Option String)
    (room : place.multiple = false → slot.children = []) :
    ∃ after, query.insertNode node key slot.id = .ok (query.tree.next, query.withTree after) ∧
      Lands query.tree slot (bud key node query.tree.next) after []
        fun shape => shapes slot.children ++ [shape] := by
  have checked : NodeRules.checkChild slot.content node slot.children.length = .ok () := by
    cases many : place.multiple with
    | true => cases node <;> simp_all [NodeRules.checkChild, QueryNode.checkChild, pure, Except.pure,
        QueryNode.slot?]
    | false => cases node <;> simp_all [NodeRules.checkChild, QueryNode.checkChild, pure,
        Except.pure, QueryNode.slot?]
  obtain ⟨after, made, grew, _⟩ := insert_taken whole.numbered member key checked
  refine ⟨after, by simp only [insertNode, made]; rfl, ?_⟩
  refine ⟨grew.numbered whole.numbered member, grew.settled whole.settled, fun around site => ?_,
    fun grown after regrown same => ?_⟩
  · refine grew.site whole.numbered site ?_
    have last : bud key node query.tree.next ∈
        (extended slot (bud key node query.tree.next)).children := by simp [extended]
    have below := child_site around [extended slot (bud key node query.tree.next)]
      (top_site (List.mem_singleton_self _)) last
    have same : within around (extended slot (bud key node query.tree.next)).content =
        within around slot.content := rfl
    rwa [same] at below
  · have parent := regrown.child slot.children [] (grew.numbered whole.numbered member)
      (grew.live_new whole.numbered member)
    refine ⟨_, grew.trans parent whole.numbered member, rfl, ?_⟩
    rw [children_node, shapes_append, shapes_cons_eq]
    rfl

theorem insertNode_refuses (query : Query) (whole : query.Whole) {slot : Branch QueryNode}
    (member : slot ∈ query.tree.live) {own : Slot} (content : slot.content = .slot own)
    (inner : Slot) (key : Option String) :
    query.insertNode (.slot inner) key slot.id = .error (.parameterUnderParameter inner.name) := by
  simp only [insertNode, insert_of_live whole.numbered member, content, NodeRules.checkChild,
    QueryNode.checkChild]
  rfl

/-! ### Joining -/

theorem boolean_must : QueryKind.boolean.slot? "must" = some mustPlace := by decide +kernel

theorem nested_query : QueryKind.nested.slot? "query" = some queryPlace := by decide +kernel

theorem ensureMust_ok (query : Query) (numbered : query.tree.Numbered) {id : Nat}
    (member : bud none QueryNode.emptyBool id ∈ query.tree.live) :
    ∃ after, query.ensureSlot id "must" = .ok (query.tree.next, query.withTree after) ∧
      Regrown query.tree (bud none QueryNode.emptyBool id)
        (.node ⟨⟨none, QueryNode.emptyBool⟩, id⟩
          [bud (some "must") (.slot mustPlace) query.tree.next]) after := by
  rcases findSlot?_cases numbered member "must" with ⟨missing, _⟩ | ⟨_, _, _, first, _⟩
  · obtain ⟨after, made, grew, _⟩ := ensureSlot_missing numbered member rfl boolean_must missing
    exact ⟨after, made, grew⟩
  · have impossible := first.parts
    simp [bud] at impossible

theorem slot_takes (place : Slot) {child : QueryNode} (bare : child.slot? = none) {siblings : Nat}
    (room : place.multiple = false → siblings = 0) :
    NodeRules.checkChild (QueryNode.slot place) child siblings = .ok () := by
  cases many : place.multiple with
  | true => cases child <;> simp_all [NodeRules.checkChild, QueryNode.checkChild, pure,
      Except.pure, QueryNode.slot?]
  | false => cases child <;> simp_all [NodeRules.checkChild, QueryNode.checkChild, pure,
      Except.pure, QueryNode.slot?]

theorem wrapInBool_slot {query : Query} (whole : query.Whole) {entry : Entry QueryNode}
    {occupant : Branch QueryNode} (member : .node entry [occupant] ∈ query.tree.live)
    {place : Slot} (content : entry.content = .slot place)
    (bare : occupant.content.slot? = none) :
    ∃ outer must after, query.wrapInBool occupant.id = .ok (outer.id, must.id, query.withTree after) ∧
      outer.label.toKeyed = ⟨none, QueryNode.emptyBool⟩ ∧ outer.children = [must] ∧
      must.label.toKeyed = ⟨some "must", .slot mustPlace⟩ ∧ must.children = [occupant] ∧
      Regrown query.tree (.node entry [occupant]) (.node entry [outer]) after := by
  have cutMember : Rose.node entry ([] ++ occupant :: []) ∈ query.tree.live := member
  have parent := parent?_of_child whole.numbered member (List.mem_singleton_self occupant)
  have cut := detach_child whole.numbered whole.settled cutMember
  have numberedCut := numbered_cutChild whole.numbered whole.settled cutMember
  have liveCut := live_cutChild whole.numbered whole.settled cutMember
  -- the `bool` goes where the clause was
  have takesBool : NodeRules.checkChild (Rose.content (.node entry [])) QueryNode.emptyBool 0 =
      .ok () := by
    rw [content_node, content]
    exact slot_takes place rfl fun _ => rfl
  obtain ⟨first, placed, grewBool, next⟩ := insert_taken numberedCut liveCut none takesBool
  have numberedBool := grewBool.numbered numberedCut liveCut
  have liveParent := grewBool.live_new numberedCut liveCut
  have liveBool : bud none QueryNode.emptyBool query.tree.next ∈ first.live :=
    mem_preorderAll_trans _ liveParent (mem_preorderAll_of_mem (by simp [extended, cutChild]))
  -- its `must` is made
  obtain ⟨second, made, grewMust⟩ :=
    ensureMust_ok (query.withTree first) numberedBool liveBool
  have grew := grewBool.trans (grewMust.child [] [] numberedBool liveParent)
    numberedCut liveCut
  have known := whole.numbered.bounded entry.id (id_mem_numbers member)
  simp only [cutChild] at next
  -- the clause goes below the `must`
  have takesClause := slot_takes mustPlace bare fun _ => rfl
  have inside : bud (some "must") (QueryNode.slot mustPlace) first.next ∈ preorderAll
      [.node entry [.node ⟨⟨none, QueryNode.emptyBool⟩, query.tree.next⟩
        [bud (some "must") (QueryNode.slot mustPlace) first.next]]] := by simp [bud]
  obtain ⟨after, attached, regrown⟩ := reattach whole.numbered whole.settled cutMember grew
    inside (by simp only [bud, id_node]; omega) takesClause
  refine ⟨.node ⟨⟨none, QueryNode.emptyBool⟩, query.tree.next⟩
      [.node ⟨⟨some "must", .slot mustPlace⟩, first.next⟩ [occupant]],
    .node ⟨⟨some "must", .slot mustPlace⟩, first.next⟩ [occupant], after, ?_, rfl, rfl, rfl, rfl, ?_⟩
  · simp only [id_node, List.append_nil] at parent cut placed
    simp only [withTree] at made
    simp only [wrapInBool, parent, cut, Result.ok_bind, placed]
    simp only [cutChild, made, Result.ok_bind]
    exact congrArg (· >>= _) attached
  · have others : entry.id ≠ first.next ∧ query.tree.next ≠ first.next := by omega
    simpa [Rose.update, updateAll, others, bud, extended] using regrown

theorem joinWith_slot {query : Query} (whole : query.Whole) {entry : Entry QueryNode}
    {occupant : Branch QueryNode} (member : .node entry [occupant] ∈ query.tree.live)
    {place : Slot} (content : entry.content = .slot place)
    (bareOccupant : occupant.content.slot? = none) {node : QueryNode} (bare : node.slot? = none)
    (key : Option String) :
    ∃ id after, query.joinWith node key occupant.id = .ok (id, query.withTree after) ∧
      Lands query.tree (.node entry [occupant]) (bud key node id) after []
        fun shape => [conjunction [occupant.shape, shape]] := by
  obtain ⟨outer, must, wrapped, made, outerKeyed, outerBelow, mustKeyed, mustBelow, grew⟩ :=
    wrapInBool_slot whole member content bareOccupant
  have wholeWrapped := whole.regrown grew member
  have liveEntry := grew.live_new whole.numbered member
  have liveOuter : outer ∈ wrapped.live :=
    mem_preorderAll_trans _ liveEntry (mem_preorderAll_of_mem (by simp))
  have splitOuter : outer = .node outer.label ([] ++ must :: []) := by
    rw [List.nil_append, ← outerBelow, node_eta]
  have liveMust : must ∈ wrapped.live :=
    mem_preorderAll_trans _ liveOuter (mem_preorderAll_of_mem (by simp [outerBelow]))
  have mustContent : must.content = .slot mustPlace := congrArg Keyed.content mustKeyed
  have outerContent : outer.content = QueryNode.emptyBool := congrArg Keyed.content outerKeyed
  obtain ⟨after, inserted, lands⟩ := insertNode_ok (query.withTree wrapped) wholeWrapped
    liveMust mustContent bare key (by simp [mustPlace])
  rw [splitOuter] at liveOuter
  have inOuter := lands.child [] [] [] wholeWrapped.numbered liveOuter fun scope => by
    rw [mustContent]
    rfl
  rw [← splitOuter] at inOuter
  have inEntry := inOuter.child [] [] [] wholeWrapped.numbered
    liveEntry fun scope => by
      rw [outerContent]
      rfl
  refine ⟨wrapped.next, after, ?_, ?_⟩
  · simp only [joinWith, made, Result.ok_bind]
    exact inserted
  · have total := inEntry.regrown whole.numbered member grew rfl
    simpa [outerKeyed, mustKeyed, mustBelow, shapes_cons_eq, conjunction, QueryNode.slotShape,
      mustPlace] using total

/-! ### Placing at a slot -/

theorem get?_live {query : Query} (numbered : query.tree.Numbered) {branch : Branch QueryNode}
    (member : branch ∈ query.tree.live) : query.tree.get? branch.id = some branch.content := by
  rw [Tree.get?, find?_of_live numbered member]
  rfl

theorem isBool_live {query : Query} (numbered : query.tree.Numbered) {branch : Branch QueryNode}
    (member : branch ∈ query.tree.live) : query.isBool branch.id = branch.content.isBool := by
  rw [Query.isBool, get?_live numbered member]

theorem occupant?_live (query : Query) (numbered : query.tree.Numbered)
    {slot : Branch QueryNode} (member : slot ∈ query.tree.live) {place : Slot}
    (content : slot.content = .slot place) :
    query.occupant? slot.id =
      if place.multiple then none else slot.children.head?.map Rose.id := by
  simp only [occupant?, get?_live numbered member, content, QueryNode.slot?, bind,
    Option.bind_some, children_of_live numbered member, List.head?_map]

def placeIn (query : Query) (compound : Nat) (name : String) (node : QueryNode)
    (key : Option String) : Result (Nat × Query) := do
  let (slot, query) ← query.ensureSlot compound name
  match query.occupant? slot with
  | none => query.insertNode node key slot
  | some occupant => query.joinWith node key occupant

theorem place_of_effective {query : Query} {position : Position} {compound : Nat} {name : String}
    (effective : query.effective position = .slot compound name) (node : QueryNode)
    (key : Option String) :
    query.place position node key = query.placeIn compound name node key := by
  rw [place, effective]
  rfl

theorem opened_of_place {query opened : Query} {position : Position} {path : String} {id : Nat}
    (placed : query.place position (QueryNode.enter path) none = .ok (id, opened)) :
    Crossable.opened? query position (.enter path) =
      (.ok (some (.slot id "query", opened)) : Result (Option (Position × Query))) := by
  simp only [Crossable.opened?, openNested?, placed, Result.ok_bind]
  rfl

section Placing

variable {query : Query} (whole : query.Whole) {holder : Branch QueryNode}
  (member : holder ∈ query.tree.live) {clause : CompoundClause}
  (content : holder.content = .compound clause) {name : String} {place : Slot}
  (declares : clause.kind.slot? name = some place)
  (formed : FormedSlots holder.content (shapes holder.children))

theorem lands_slot {before middle : Tree QueryNode} (numbered : before.Numbered)
    {holder slot spot : Branch QueryNode} (member : holder ∈ before.live)
    {front back : List (Branch QueryNode)} (first : FirstSlot holder place.name front slot back)
    (content : slot.content = .slot place) {route : List String}
    (effect : Shape QueryNode → List (Shape QueryNode) → List (Shape QueryNode))
    (lands : Lands before slot spot middle route fun shape => effect shape (shapes slot.children)) :
    Lands before holder spot middle route
      fun shape => changeSlot place (effect shape) (shapes holder.children) := by
  rw [first.holder_eq] at member
  have below := lands.child route _ _ numbered member fun scope => by
    rw [content]
    rfl
  rw [← first.holder_eq] at below
  have same : (fun shape => changeSlot place (effect shape) (shapes holder.children)) =
      fun shape => shapes front ++
        .node slot.label.toKeyed (effect shape (shapes slot.children)) :: shapes back := by
    funext shape
    exact first.change_eq rfl (effect shape)
  rwa [same]

theorem lands_occupant {before middle : Tree QueryNode} (numbered : before.Numbered)
    {slot occupant spot : Branch QueryNode} (member : slot ∈ before.live)
    (below : slot.children = [occupant])
    (transparent : ∀ scope, within scope occupant.content = scope) {route : List String}
    {effect : Shape QueryNode → List (Shape QueryNode)}
    (lands : Lands before occupant spot middle route effect) :
    Lands before slot spot middle route
      fun shape => [.node occupant.label.toKeyed (effect shape)] := by
  have split : slot = .node slot.label ([] ++ occupant :: []) := by
    rw [List.nil_append, ← below, node_eta]
  rw [split] at member
  have inside := lands.child route _ _ numbered member fun scope => by rw [transparent]
  rwa [← split] at inside

theorem isBool_within {node : QueryNode} {below : List QueryNode}
    (holds : QueryNode.Holds node below) (bool : node.isBool = true) (scope : Option String) :
    within scope node = scope := by
  obtain ⟨clause, rfl, kind⟩ := QueryNode.kind_of_isBool holds bool
  simp [within, Scoped.boundary?, QueryNode.nestedPath?, CompoundClause.path?, kind,
    QueryKind.boolean]

structure Occupied (query : Query) (holder : Branch QueryNode) (place : Slot)
    (slot occupant : Branch QueryNode) : Prop where
  first : ∃ front back, FirstSlot holder place.name front slot back
  live : slot ∈ query.tree.live
  content : slot.content = .slot place
  single : place.multiple = false
  below : slot.children = [occupant]
  formed : Formed [occupant.shape]
  bare : occupant.content.slot? = none
  found : query.findSlot? holder.id place.name = some slot.id
  met : query.occupant? slot.id = some occupant.id

namespace Occupied

variable {slot occupant : Branch QueryNode} (occupied : Occupied query holder place slot occupant)

include occupied

theorem live_occupant : occupant ∈ query.tree.live :=
  mem_preorderAll_trans _ occupied.live (mem_preorderAll_of_mem (by simp [occupied.below]))

theorem shapes_eq : shapes slot.children = [occupant.shape] := by
  rw [occupied.below]
  rfl

theorem clausesIn_eq : clausesIn place.name (shapes holder.children) = [occupant.shape] := by
  obtain ⟨front, back, first⟩ := occupied.first
  rw [first.clausesIn_eq, occupied.shapes_eq]

theorem effective (numbered : query.tree.Numbered) :
    query.effective (.slot holder.id place.name) =
      if occupant.content.isBool then .slot occupant.id "must"
      else .slot holder.id place.name := by
  simp only [Query.effective, occupied.found, Option.bind_some, occupied.met,
    isBool_live numbered occupied.live_occupant]

theorem inner (bool : occupant.content.isBool = true) :
    (∃ clause, occupant.content = .compound clause ∧
      clause.kind.slot? "must" = some mustPlace) ∧
    FormedSlots occupant.content (shapes occupant.children) ∧
      ∀ scope, within scope occupant.content = scope := by
  have formed := occupied.formed
  rw [← node_eta occupant, shape_node, formed_cons] at formed
  obtain ⟨clause, content, kind⟩ := QueryNode.kind_of_isBool formed.1 bool
  exact ⟨⟨clause, content, by rw [kind, boolean_must]⟩, ⟨formed.2.1, formed.1⟩,
    isBool_within formed.1 bool⟩

theorem lands (numbered : query.tree.Numbered) (member : holder ∈ query.tree.live)
    (bool : occupant.content.isBool = true) {spot : Branch QueryNode} {middle : Tree QueryNode}
    {route : List String} (effect : Shape QueryNode → List (Shape QueryNode) → List (Shape QueryNode))
    (lands : Lands query.tree occupant spot middle route fun shape =>
      changeSlot mustPlace (effect shape) (shapes occupant.children)) :
    Lands query.tree holder spot middle route fun shape =>
      changeSlot place (changeStanding place.multiple (effect shape)) (shapes holder.children) := by
  obtain ⟨front, back, first⟩ := occupied.first
  refine lands_slot numbered member first occupied.content
    (fun shape => changeStanding place.multiple (effect shape)) ?_
  have inside := lands_occupant numbered occupied.live occupied.below (occupied.inner bool).2.2 lands
  have same : (fun shape => changeStanding place.multiple (effect shape) (shapes slot.children)) =
      fun shape => [.node occupant.label.toKeyed
        (changeSlot mustPlace (effect shape) (shapes occupant.children))] := by
    funext shape
    rw [occupied.single, occupied.shapes_eq, changeStanding_single, isBool_shape, bool, if_pos rfl,
      inSlot, label_shape, children_shape]
  rwa [same]

end Occupied

structure Reached (query : Query) (holder : Branch QueryNode) (place : Slot)
    (slot : Branch QueryNode) : Prop where
  live : slot ∈ query.tree.live
  clauses : query.clausesAt (.slot holder.id place.name) = slot.children.map Rose.id
  standing : standing place.multiple (clausesIn place.name (shapes holder.children)) =
    shapes slot.children
  formed : Formed (shapes slot.children)
  transparent : ∀ scope, within scope slot.content = scope
  lifts : ∀ (spot : Branch QueryNode) (middle : Tree QueryNode) (route : List String)
    (effect : Shape QueryNode → List (Shape QueryNode) → List (Shape QueryNode)),
    Lands query.tree slot spot middle route (fun shape => effect shape (shapes slot.children)) →
    Lands query.tree holder spot middle route fun shape =>
      changeSlot place (changeStanding place.multiple (effect shape)) (shapes holder.children)

structure Entered (query : Query) (holder : Branch QueryNode) (place : Slot) (path : String)
    (entered : Branch QueryNode) : Prop where
  found : query.existingNested? (.slot holder.id place.name) (.enter path) =
    some (.slot entered.id "query")
  opened : (standing place.multiple (clausesIn place.name (shapes holder.children))).any
    (opens path) = true
  live : entered ∈ query.tree.live
  enters : entered.content.nestedPath? = some path
  formed : Formed [entered.shape]
  lifts : ∀ (spot : Branch QueryNode) (middle : Tree QueryNode) (rest : List String)
    (deeper : Shape QueryNode → List (Shape QueryNode) → List (Shape QueryNode)),
    Lands query.tree entered spot middle rest
      (fun shape => changeSlot queryPlace (deeper shape) (shapes entered.children)) →
    Lands query.tree holder spot middle (path :: rest) fun shape =>
      changeSlot place (changeStanding place.multiple
        (changeFirst (opens path) (inSlot queryPlace (deeper shape)))) (shapes holder.children)

structure Open (query : Query) (holder : Branch QueryNode)
    (placing : QueryNode → Option String → Result (Nat × Query))
    (effect : Shape QueryNode → List (Shape QueryNode)) (made : Tree QueryNode)
    (slot : Branch QueryNode) (own : Slot) : Prop where
  whole : (query.withTree made).Whole
  live : slot ∈ made.live
  content : slot.content = .slot own
  room : own.multiple = false → slot.children = []
  placing : ∀ node key, placing node key = (query.withTree made).insertNode node key slot.id
  lifts : ∀ spot middle,
    Lands made slot spot middle [] (fun shape => shapes slot.children ++ [shape]) →
    Lands query.tree holder spot middle [] effect

structure Taken (query : Query) (holder : Branch QueryNode)
    (placing : QueryNode → Option String → Result (Nat × Query))
    (effect : Shape QueryNode → List (Shape QueryNode)) (entry : Entry QueryNode)
    (occupant : Branch QueryNode) (own : Slot) : Prop where
  live : .node entry [occupant] ∈ query.tree.live
  content : entry.content = .slot own
  bare : occupant.content.slot? = none
  placing : ∀ node key, placing node key = query.joinWith node key occupant.id
  lifts : ∀ spot middle,
    Lands query.tree (.node entry [occupant]) spot middle []
      (fun shape => [conjunction [occupant.shape, shape]]) →
    Lands query.tree holder spot middle [] effect

theorem Reached.existing (numbered : query.tree.Numbered) {slot : Branch QueryNode}
    (reached : Reached query holder place slot) (path : String) :
    query.existingNested? (.slot holder.id place.name) (.enter path) =
      (slot.children.find? fun child => child.content.nestedPath? = some path).map
        fun child => .slot child.id "query" := by
  simp only [existingNested?, reached.clauses, List.find?_map, Option.map_map]
  have same : ∀ child ∈ slot.children,
      ((fun id => decide ((query.tree.get? id).bind QueryNode.nestedPath? = some path)) ∘
        Rose.id) child = decide (child.content.nestedPath? = some path) := by
    intro child below
    have live := mem_preorderAll_trans _ reached.live (mem_preorderAll_of_mem below)
    simp only [Function.comp_apply, get?_live numbered live, Option.bind_some]
  rw [List.find?_congr same]
  rfl

theorem Reached.entered (numbered : query.tree.Numbered) {slot entered : Branch QueryNode}
    (reached : Reached query holder place slot) {path : String}
    (found : (slot.children.find? fun child => child.content.nestedPath? = some path) =
      some entered) : Entered query holder place path entered := by
  obtain ⟨enters, front, back, parts, others⟩ := List.find?_eq_some_iff_append.mp found
  have below : entered ∈ slot.children := by simp [parts]
  have enters : entered.content.nestedPath? = some path := by simpa using enters
  have opensIt : opens path entered.shape = true := by simpa [opens_shape] using enters
  refine ⟨?_, ?_, mem_preorderAll_trans _ reached.live (mem_preorderAll_of_mem below), enters, ?_,
    fun spot middle rest deeper lands => ?_⟩
  · rw [reached.existing numbered, found]
    rfl
  · rw [reached.standing, List.any_eq_true]
    exact ⟨entered.shape, mem_shapes.mpr ⟨entered, below, rfl⟩, opensIt⟩
  · have whole := reached.formed
    rw [parts, shapes_append, shapes_cons_eq, formed_append, formed_cons_iff] at whole
    exact whole.2.1
  · refine reached.lifts spot middle (path :: rest)
      (fun shape => changeFirst (opens path) (inSlot queryPlace (deeper shape))) ?_
    have slotEq : slot = .node slot.label (front ++ entered :: back) := by
      rw [← parts, node_eta]
    have live := reached.live
    rw [slotEq] at live
    have inside := lands.child (path :: rest) front back numbered live fun scope => by
      simp [within, Scoped.boundary?, enters, Boundary.inside, arrive]
    rw [← slotEq] at inside
    have passed : ∀ other ∈ shapes front, opens path other = false := by
      intro other inFront
      obtain ⟨child, childBelow, rfl⟩ := mem_shapes.mp inFront
      have absent := others child childBelow
      simpa [opens_shape] using absent
    have same : (fun shape => changeFirst (opens path) (inSlot queryPlace (deeper shape))
        (shapes slot.children)) = fun shape => shapes front ++
          .node entered.label.toKeyed
            (changeSlot queryPlace (deeper shape) (shapes entered.children)) :: shapes back := by
      funext shape
      rw [parts, shapes_append, shapes_cons_eq, changeFirst_split _ passed opensIt, inSlot,
        label_shape, children_shape]
    rwa [same]

include whole member content declares formed

theorem room_or_occupied :
    (query.effective (.slot holder.id name) = .slot holder.id name ∧
        (place.multiple = false → clausesIn name (shapes holder.children) = [])) ∨
      ∃ slot occupant, Occupied query holder place slot occupant := by
  have named : place.name = name := CompoundKind.slot?_name declares
  subst named
  rcases findSlot?_cases whole.numbered member place.name with
    ⟨missing, absent⟩ | ⟨front, slot, back, first, found⟩
  · refine Or.inl ⟨by simp [effective, missing], fun _ => clausesIn_absent fun slot below => ?_⟩
    obtain ⟨child, childBelow, rfl⟩ := mem_shapes.mp below
    exact absent child childBelow
  · obtain ⟨slotContent, formedSlot⟩ := first.formed content declares formed
    have live := first.live member
    have met := occupant?_live query whole.numbered live slotContent
    rcases slot_cases formedSlot with many | ⟨single, empty⟩ | ⟨single, shape, alone⟩
    · rw [many] at met
      exact Or.inl ⟨by simp [effective, found, met], by simp [many]⟩
    · have none := shapes_eq_nil empty
      exact Or.inl ⟨by simp [effective, found, met, none], fun _ => by
        rw [first.clausesIn_eq, empty]⟩
    · obtain ⟨occupant, below, rfl⟩ := shapes_eq_singleton alone
      simp only [single, below, Bool.false_eq_true, if_false, List.head?_cons, Option.map_some]
        at met
      have each := formedSlot.2.1 occupant.content
      rw [alone] at each
      exact Or.inr ⟨slot, occupant, ⟨front, back, first⟩, live, slotContent, single, below,
        alone ▸ formedSlot.1, each (by simp [content_shape]), found, met⟩

theorem open_of_room (room : place.multiple = false → clausesIn name (shapes holder.children) = []) :
    ∃ made slot own, Open query holder (query.placeIn holder.id name)
      (fun shape => changeSlot place (· ++ [shape]) (shapes holder.children)) made slot own := by
  have named : place.name = name := CompoundKind.slot?_name declares
  subst named
  rcases findSlot?_cases whole.numbered member place.name with
    ⟨missing, absent⟩ | ⟨front, slot, back, first, found⟩
  · obtain ⟨made, ensured, grew, _⟩ :=
      ensureSlot_missing whole.numbered member content declares missing
    have wholeMade := whole.regrown grew member
    have liveHolder := grew.live_new whole.numbered member
    have liveSlot : bud (some place.name) (.slot place) query.tree.next ∈ made.live :=
      mem_preorderAll_trans _ liveHolder (mem_preorderAll_of_mem (by simp [extended]))
    refine ⟨made, bud (some place.name) (.slot place) query.tree.next, place, wholeMade, liveSlot,
      rfl, fun _ => rfl, fun node key => ?_, fun spot middle lands => ?_⟩
    · have free := occupant?_live (query.withTree made) wholeMade.numbered liveSlot rfl
      simp only [placeIn, ensured, Result.ok_bind]
      simp only [bud, id_node, children_node, List.head?_nil, Option.map_none, ite_self] at free
      rw [free]
      rfl
    · have inside := lands.child [] holder.children [] wholeMade.numbered liveHolder fun scope => rfl
      have below := inside.regrown whole.numbered member grew rfl
      have same : (fun shape => changeSlot place (· ++ [shape]) (shapes holder.children)) =
          fun shape => shapes holder.children ++
            [QueryNode.slotShape place ([] ++ [shape])] := by
        funext shape
        exact changeSlot_missing absent _
      rw [same]
      exact below
  · obtain ⟨slotContent, formedSlot⟩ := first.formed content declares formed
    have liveSlot := first.live member
    have space : place.multiple = false → slot.children = [] := fun single =>
      shapes_eq_nil (first.clausesIn_eq ▸ room single)
    have free : query.occupant? slot.id = none := by
      rw [occupant?_live query whole.numbered liveSlot slotContent]
      split
      · rfl
      · rename_i single
        simp [space (by simpa using single)]
    refine ⟨query.tree, slot, place, whole, liveSlot, slotContent, space, fun node key => ?_,
      fun spot middle lands => lands_slot whole.numbered member first slotContent _ lands⟩
    simp only [placeIn, ensureSlot, found, Result.pure_bind, free]
    rfl

omit content declares formed in
theorem Occupied.open_must {slot occupant : Branch QueryNode}
    (occupied : Occupied query holder place slot occupant) (named : place.name = name)
    (bool : occupant.content.isBool = true) :
    ∃ made must own, Open query holder (query.place (.slot holder.id name))
      (fun shape => changeSlot place (add place.multiple shape) (shapes holder.children))
      made must own := by
  subst named
  obtain ⟨⟨inner, innerContent, innerDeclares⟩, innerFormed, _⟩ := occupied.inner bool
  obtain ⟨made, must, own, spot⟩ := open_of_room whole occupied.live_occupant innerContent
    innerDeclares innerFormed (by simp [mustPlace])
  have effective := occupied.effective whole.numbered
  rw [bool, if_pos rfl] at effective
  refine ⟨made, must, own, { spot with
    placing := fun node key => (place_of_effective effective node key).trans
      (spot.placing node key)
    lifts := fun deeper middle lands => ?_ }⟩
  have same : (fun shape => changeSlot place (add place.multiple shape)
      (shapes holder.children)) = fun shape => changeSlot place
        (changeStanding place.multiple (· ++ [shape])) (shapes holder.children) := by
    funext shape
    refine changeSlot_congr ?_
    rw [occupied.clausesIn_eq, occupied.single, add_single, changeStanding_single,
      isBool_shape, bool, if_pos rfl, if_pos rfl]
  rw [same]
  exact occupied.lands whole.numbered member bool (fun shape => (· ++ [shape]))
    (spot.lifts deeper middle lands)

omit content declares formed in
theorem Occupied.taken {slot occupant : Branch QueryNode}
    (occupied : Occupied query holder place slot occupant) (named : place.name = name)
    (plain : occupant.content.isBool = false) :
    Taken query holder (query.place (.slot holder.id name))
      (fun shape => changeSlot place (add place.multiple shape) (shapes holder.children))
      slot.label occupant place := by
  subst named
  obtain ⟨front, back, first⟩ := occupied.first
  have effective := occupied.effective whole.numbered
  rw [plain] at effective
  have split : slot = .node slot.label [occupant] := by rw [← occupied.below, node_eta]
  refine ⟨split ▸ occupied.live, occupied.content, occupied.bare, fun node key => ?_,
    fun spot middle lands => ?_⟩
  · rw [place_of_effective effective]
    simp only [placeIn, ensureSlot, occupied.found, Result.pure_bind, occupied.met]
  · refine lands_slot whole.numbered member first occupied.content (add place.multiple) ?_
    have same : (fun shape => add place.multiple shape (shapes slot.children)) = fun shape =>
        [conjunction [occupant.shape, shape]] := by
      funext shape
      rw [occupied.single, occupied.shapes_eq, add_single, isBool_shape, plain]
      rfl
    rw [same]
    rwa [← split] at lands

theorem open_or_taken :
    (∃ made slot own, Open query holder (query.place (.slot holder.id name))
      (fun shape => changeSlot place (add place.multiple shape) (shapes holder.children))
      made slot own) ∨
    ∃ entry occupant own, Taken query holder (query.place (.slot holder.id name))
      (fun shape => changeSlot place (add place.multiple shape) (shapes holder.children))
      entry occupant own := by
  have named : place.name = name := CompoundKind.slot?_name declares
  rcases room_or_occupied whole member content declares formed with
    ⟨effective, room⟩ | ⟨slot, occupant, occupied⟩
  · obtain ⟨made, slot, own, spot⟩ := open_of_room whole member content declares formed room
    have same : (fun shape => changeSlot place (add place.multiple shape) (shapes holder.children)) =
        fun shape => changeSlot place (· ++ [shape]) (shapes holder.children) := by
      funext shape
      exact changeSlot_congr (add_of_room fun single => named ▸ room single)
    rw [same]
    exact Or.inl ⟨made, slot, own, { spot with
      placing := fun node key => (place_of_effective effective node key).trans
        (spot.placing node key) }⟩
  · cases bool : occupant.content.isBool with
    | true => exact Or.inl (occupied.open_must whole member named bool)
    | false => exact Or.inr ⟨_, _, _, occupied.taken whole member named bool⟩

theorem place_slot {node : QueryNode} (bare : node.slot? = none) (key : Option String) :
    ∃ id after, query.place (.slot holder.id name) node key = .ok (id, query.withTree after) ∧
      Lands query.tree holder (bud key node id) after []
        fun shape => changeSlot place (add place.multiple shape) (shapes holder.children) := by
  rcases open_or_taken whole member content declares formed with
    ⟨made, slot, own, spot⟩ | ⟨entry, occupant, own, taken⟩
  · obtain ⟨after, inserted, lands⟩ :=
      insertNode_ok _ spot.whole spot.live spot.content bare key spot.room
    exact ⟨made.next, after, (spot.placing node key).trans inserted, spot.lifts _ after lands⟩
  · obtain ⟨id, after, joined, lands⟩ :=
      joinWith_slot whole taken.live taken.content taken.bare bare key
    exact ⟨id, after, (taken.placing node key).trans joined, taken.lifts _ after lands⟩

theorem place_slot_refuses (inner : Slot) (key : Option String) :
    query.place (.slot holder.id name) (.slot inner) key =
      .error (.parameterUnderParameter inner.name) := by
  rcases open_or_taken whole member content declares formed with
    ⟨made, slot, own, spot⟩ | ⟨entry, occupant, own, taken⟩
  · rw [spot.placing]
    exact insertNode_refuses _ spot.whole spot.live spot.content inner key
  · obtain ⟨outer, must, wrapped, wrapping, _, outerBelow, mustKeyed, _, grew⟩ :=
      wrapInBool_slot whole taken.live taken.content taken.bare
    have liveOuter : outer ∈ wrapped.live := mem_preorderAll_trans _
      (grew.live_new whole.numbered taken.live) (mem_preorderAll_of_mem (by simp))
    have liveMust : must ∈ wrapped.live :=
      mem_preorderAll_trans _ liveOuter (mem_preorderAll_of_mem (by simp [outerBelow]))
    rw [taken.placing]
    simp only [joinWith, wrapping, Result.ok_bind]
    exact insertNode_refuses _ (whole.regrown grew taken.live) liveMust
      (congrArg Keyed.content mustKeyed) inner key

theorem reached_of_room (effective : query.effective (.slot holder.id name) = .slot holder.id name)
    (room : place.multiple = false → clausesIn name (shapes holder.children) = []) :
    (query.clausesAt (.slot holder.id name) = [] ∧
        standing place.multiple (clausesIn name (shapes holder.children)) = []) ∨
      ∃ slot, Reached query holder place slot := by
  have named : place.name = name := CompoundKind.slot?_name declares
  subst named
  rw [standing_of_room room]
  rcases findSlot?_cases whole.numbered member place.name with
    ⟨missing, absent⟩ | ⟨front, slot, back, first, found⟩
  · refine Or.inl ⟨by simp [clausesAt, effective, missing], clausesIn_absent fun slot below => ?_⟩
    obtain ⟨child, childBelow, rfl⟩ := mem_shapes.mp below
    exact absent child childBelow
  · obtain ⟨slotContent, formedSlot⟩ := first.formed content declares formed
    have live := first.live member
    have children := children_of_live whole.numbered live
    refine Or.inr ⟨slot, live, by simp [clausesAt, effective, found, children], ?_, formedSlot.1,
      fun scope => by rw [slotContent]; rfl, fun spot middle route effect lands => ?_⟩
    · rw [standing_of_room room, first.clausesIn_eq]
    · have same : (fun shape => changeSlot place (changeStanding place.multiple (effect shape))
          (shapes holder.children)) =
          fun shape => changeSlot place (effect shape) (shapes holder.children) := by
        funext shape
        exact changeSlot_congr (changeStanding_of_room room)
      rw [same]
      exact lands_slot whole.numbered member first slotContent _ lands

omit content declares formed in
theorem Occupied.reached_must {slot occupant : Branch QueryNode}
    (occupied : Occupied query holder place slot occupant)
    (bool : occupant.content.isBool = true) :
    (query.clausesAt (.slot holder.id place.name) = [] ∧
        standing place.multiple (clausesIn place.name (shapes holder.children)) = []) ∨
      ∃ must, Reached query holder place must := by
  obtain ⟨⟨inner, innerContent, innerDeclares⟩, innerFormed, _⟩ := occupied.inner bool
  have many : mustPlace.multiple = false → clausesIn "must" (shapes occupant.children) = [] :=
    fun single => by cases single
  have stays := (room_or_occupied whole occupied.live_occupant innerContent innerDeclares
    innerFormed).resolve_right fun ⟨_, _, other⟩ => by cases other.single
  have effective := occupied.effective whole.numbered
  rw [bool, if_pos rfl] at effective
  have same : query.clausesAt (.slot holder.id place.name) =
      query.clausesAt (.slot occupant.id "must") := by
    rw [clausesAt, clausesAt, effective, stays.1]
  have standing : standing place.multiple (clausesIn place.name (shapes holder.children)) =
      clausesIn "must" (shapes occupant.children) := by
    rw [occupied.clausesIn_eq, occupied.single, standing_single, isBool_shape, bool,
      if_pos rfl, children_shape]
    rfl
  rw [same, standing]
  refine (reached_of_room whole occupied.live_occupant innerContent innerDeclares innerFormed
    stays.1 many).imp (fun none => ⟨none.1, none.2⟩) fun ⟨must, reached⟩ => ⟨must, ?_⟩
  exact ⟨reached.live, same.trans reached.clauses, standing.trans reached.standing,
    reached.formed, reached.transparent, fun spot middle route effect lands =>
      occupied.lands whole.numbered member bool effect
        (reached.lifts spot middle route effect lands)⟩

omit content declares formed in
theorem Occupied.reached {slot occupant : Branch QueryNode}
    (occupied : Occupied query holder place slot occupant)
    (plain : occupant.content.isBool = false) : Reached query holder place slot := by
  obtain ⟨front, back, first⟩ := occupied.first
  have effective := occupied.effective whole.numbered
  rw [plain] at effective
  have children := children_of_live whole.numbered occupied.live
  refine ⟨occupied.live, ?_, ?_, occupied.shapes_eq ▸ occupied.formed,
    fun scope => by rw [occupied.content]; rfl, fun spot middle route effect lands => ?_⟩
  · simp [clausesAt, effective, occupied.found, children]
  · rw [occupied.clausesIn_eq, occupied.single, standing_single, isBool_shape, plain,
      occupied.shapes_eq]
    rfl
  · refine lands_slot whole.numbered member first occupied.content
      (fun shape => changeStanding place.multiple (effect shape)) ?_
    have same : (fun shape =>
        changeStanding place.multiple (effect shape) (shapes slot.children)) =
        fun shape => effect shape (shapes slot.children) := by
      funext shape
      rw [occupied.single, occupied.shapes_eq, changeStanding_single, isBool_shape, plain]
      rfl
    rwa [same]

theorem reached_cases :
    (query.clausesAt (.slot holder.id name) = [] ∧
        standing place.multiple (clausesIn name (shapes holder.children)) = []) ∨
      ∃ slot, Reached query holder place slot := by
  have named : place.name = name := CompoundKind.slot?_name declares
  subst named
  rcases room_or_occupied whole member content declares formed with
    ⟨effective, room⟩ | ⟨slot, occupant, occupied⟩
  · exact reached_of_room whole member content declares formed effective room
  · cases bool : occupant.content.isBool with
    | true => exact occupied.reached_must whole member bool
    | false => exact Or.inr ⟨slot, occupied.reached whole member bool⟩

theorem existing_cases (path : String) :
    (query.existingNested? (.slot holder.id name) (.enter path) = none ∧
        (standing place.multiple (clausesIn name (shapes holder.children))).any (opens path) =
          false) ∨
      ∃ entered, Entered query holder place path entered := by
  have named : place.name = name := CompoundKind.slot?_name declares
  subst named
  rcases reached_cases whole member content declares formed with ⟨none, empty⟩ | ⟨slot, reached⟩
  · exact Or.inl ⟨by simp [existingNested?, none], by simp [empty]⟩
  · cases found : slot.children.find? fun child => child.content.nestedPath? = some path with
    | none =>
        refine Or.inl ⟨by rw [reached.existing whole.numbered path, found]; rfl, ?_⟩
        rw [reached.standing, List.any_eq_false]
        intro shape inside
        obtain ⟨child, below, rfl⟩ := mem_shapes.mp inside
        have absent := List.find?_eq_none.mp found child below
        simpa [opens_shape] using absent
    | some entered => exact Or.inr ⟨entered, reached.entered whole.numbered found⟩

end Placing

theorem formedSlots_enter (path : String) : FormedSlots (QueryNode.enter path) [] := by
  have known : .compound QueryKind.nested ∈ QueryKind.all := by decide +kernel
  exact ⟨formed_nil, known, by simp, by simp⟩

/-- Crossing into the scopes of a route and placing a node there weaves it in. -/
theorem cross_place (refusal : Error) {node : QueryNode} (bare : node.slot? = none)
    (key : Option String) (route : List String) {query : Query} (whole : query.Whole)
    {holder : Branch QueryNode} (member : holder ∈ query.tree.live) {clause : CompoundClause}
    (content : holder.content = .compound clause) {name : String} {place : Slot}
    (declares : clause.kind.slot? name = some place)
    (formed : FormedSlots holder.content (shapes holder.children)) :
    ∃ position crossed id after,
      cross refusal query (.slot holder.id name) (route.map .enter) = .ok (position, crossed) ∧
      crossed.place position node key = .ok (id, query.withTree after) ∧
      Lands query.tree holder (bud key node id) after route
        fun shape => changeSlot place (weave route place.multiple shape) (shapes holder.children) := by
  induction route generalizing query holder clause name place with
  | nil =>
      obtain ⟨id, after, placed, lands⟩ := place_slot whole member content declares formed bare key
      exact ⟨_, query, id, after, rfl, placed, lands⟩
  | cons path rest ih =>
      have named : place.name = name := CompoundKind.slot?_name declares
      subst named
      rcases existing_cases whole member content declares formed path with
        ⟨missing, closed⟩ | ⟨entered, enters⟩
      · obtain ⟨opener, made, placed, landsOpener⟩ := place_slot whole member content declares
          formed (rfl : (QueryNode.enter path).slot? = none) none
        obtain ⟨position, crossed, id, after, crossing, placing, lands⟩ :=
          ih (⟨landsOpener.numbered, landsOpener.settled⟩ : (query.withTree made).Whole)
            (landsOpener.live member) rfl nested_query (formedSlots_enter path)
        refine ⟨position, crossed, id, after,
          (cross_opened missing (opened_of_place placed)).trans crossing, placing, ?_⟩
        have total := landsOpener.trans lands (path :: rest) fun scope => rfl
        have same : (fun shape => changeSlot place (weave (path :: rest) place.multiple shape)
            (shapes holder.children)) = fun shape => changeSlot place
              (add place.multiple (.node ⟨none, QueryNode.enter path⟩
                (changeSlot queryPlace (weave rest queryPlace.multiple shape) [])))
              (shapes holder.children) := by
          funext shape
          exact changeSlot_congr (weave_closed closed rest shape)
        rw [same]
        exact total
      · have formedEntered := enters.formed
        rw [← node_eta entered, shape_node, formed_cons] at formedEntered
        obtain ⟨inner, innerContent, innerKind⟩ :=
          QueryNode.kind_of_nestedPath formedEntered.1 enters.enters
        obtain ⟨position, crossed, id, after, crossing, placing, lands⟩ :=
          ih whole enters.live innerContent (by rw [innerKind]; exact nested_query)
            ⟨formedEntered.2.1, formedEntered.1⟩
        refine ⟨position, crossed, id, after, (cross_existing enters.found).trans crossing,
          placing, ?_⟩
        have total := enters.lifts _ after rest
          (fun shape => weave rest queryPlace.multiple shape) lands
        have same : (fun shape => changeSlot place (weave (path :: rest) place.multiple shape)
            (shapes holder.children)) = fun shape => changeSlot place
              (changeStanding place.multiple (changeFirst (opens path)
                (inSlot queryPlace (weave rest queryPlace.multiple shape))))
              (shapes holder.children) := by
          funext shape
          exact changeSlot_congr (weave_opened enters.opened rest shape)
        rw [same]
        exact total

end Query

end ScopedClauses
