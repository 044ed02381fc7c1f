import ScopedClauses.Proofs.Query.RoundTrip

/-!
The structure of query trees. Whatever is inserted and wherever, whether or not its kinds are
registered, every node holds what it may, every name stands once among the slots of a clause, and
nothing is left detached.
-/

namespace ScopedClauses

namespace QueryNode

open Weaving

theorem carries_nil (node : QueryNode) : Carries node [] := by
  cases node <;> simp [Carries]

theorem carries_single (place : Slot) {child : QueryNode} (bare : child.slot? = none) :
    Carries (.slot place) [child] :=
  ⟨fun other inside => by rwa [List.mem_singleton.mp inside], fun _ => Nat.le_refl 1⟩

theorem carries_taken {node child : QueryNode} {below : List QueryNode}
    (carries : Carries node below) (bare : child.slot? = none)
    (taken : NodeRules.checkChild node child below.length = .ok ()) :
    Carries node (below ++ [child]) := by
  cases node with
  | leaf clause => cases taken
  | compound clause =>
      cases child with
      | slot inner => cases bare
      | leaf inner => cases taken
      | compound inner => cases taken
  | slot place =>
      refine ⟨fun other inside => ?_, fun single => ?_⟩
      · rcases List.mem_append.mp inside with before | last
        · exact carries.1 other before
        · rwa [List.mem_singleton.mp last]
      · have room : below.length = 0 := by
          cases child with
          | slot inner => cases bare
          | leaf inner | compound inner =>
              simp only [NodeRules.checkChild, checkChild, single] at taken
              split at taken
              · cases taken
              · rename_i free
                simpa using free
        simp [room]

theorem carries_slot {clause : CompoundClause} {below : List QueryNode} {place : Slot}
    (carries : Carries (.compound clause) below)
    (declares : clause.kind.slot? place.name = some place)
    (absent : ∀ child ∈ below, child.slot?.any (·.name = place.name) = false) :
    Carries (.compound clause) (below ++ [.slot place]) := by
  refine ⟨fun child inside => ?_, ?_⟩
  · rcases List.mem_append.mp inside with before | last
    · exact carries.1 child before
    · exact ⟨place, List.mem_singleton.mp last, declares⟩
  · rw [List.map_append, List.nodup_append]
    refine ⟨carries.2, by simp, ?_⟩
    rintro name inside other last rfl
    obtain ⟨child, before, same⟩ := List.mem_map.mp inside
    obtain ⟨own, slotted, _⟩ := carries.1 child before
    have different := absent child before
    subst slotted
    simp_all [slot?, tag]

def Takes (node : QueryNode) (below : List QueryNode) : Prop :=
  ∀ child ∈ below, ∃ siblings, NodeRules.checkChild node child siblings = .ok ()

structure Inert (good : QueryNode → Prop) : Prop where
  slot : ∀ place, good (.slot place)
  emptyBool : good emptyBool
  enter : ∀ path, good (enter path)
  body : ∀ clause body, good (.compound clause) → good (.compound { clause with body := body })

theorem inert_true : Inert fun _ => True := by
  constructor <;> intros <;> trivial

theorem inert_known : Inert Known := by
  have bool : .compound QueryKind.boolean ∈ QueryKind.all := by decide +kernel
  have nested : .compound QueryKind.nested ∈ QueryKind.all := by decide +kernel
  exact ⟨fun _ => trivial, bool, fun _ => nested, fun _ _ known => known⟩

theorem bare_of_takes {place : Slot} {below : List QueryNode} (takes : Takes (.slot place) below) :
    ∀ child ∈ below, child.slot? = none := by
  intro child inside
  obtain ⟨siblings, taken⟩ := takes child inside
  cases child with
  | slot inner => cases taken
  | leaf clause => rfl
  | compound clause => rfl

theorem takes_slot (place : Slot) {below : List QueryNode}
    (bare : ∀ child ∈ below, child.slot? = none) : Takes (.slot place) below :=
  fun child inside => ⟨0, Query.slot_takes place (bare child inside) fun _ => rfl⟩

/-! ### What is read -/

theorem read_takes : Read Takes := by
  refine ⟨fun _ _ absent => absurd absent List.not_mem_nil, fun clause below _ slots => ?_,
    fun place below bare _ => takes_slot place bare⟩
  intro child inside
  obtain ⟨place, rfl, declares⟩ := slots child inside
  exact ⟨0, by simp [NodeRules.checkChild, checkChild, declares, pure, Except.pure]⟩

end QueryNode

namespace Query

open Rose Tree Weaving QueryNode

abbrev Sits (good : QueryNode → Prop) (node : QueryNode) (below : List QueryNode) : Prop :=
  good node ∧ Carries node below

abbrev Enters (good : QueryNode → Prop) (node : QueryNode) (below : List QueryNode) : Prop :=
  good node ∧ Takes node below

structure Structured (good : QueryNode → Prop) (query : Query) : Prop extends query.Whole where
  inert : Inert good
  carried : Ruled (Sits good) (shapes query.tree.branches)
  top : Carries (.slot queryPlace) (contents (shapes query.tree.branches))

theorem structured_empty {good : QueryNode → Prop} (inert : Inert good) (mapping : Option Mapping)
    (autocorrect : Bool) (mode : MergeMode) :
    Structured good
      { mapping := mapping, autocorrect := autocorrect, mergeMode := mode : Query } :=
  ⟨⟨numbered_empty, rfl⟩, inert, ruled_nil, carries_nil _⟩

theorem enters_of_formed {forest : List (Shape QueryNode)} (formed : Formed forest) :
    Ruled (Enters Known) forest := by
  intro shape inside
  have holds := formed shape inside
  refine ⟨known_of_holds holds, ?_⟩
  cases content : shape.label.content with
  | leaf clause =>
      rw [content] at holds
      rw [holds]
      exact read_takes.leaf clause
  | compound clause =>
      rw [content] at holds
      exact read_takes.compound clause _ holds.1 holds.2.1
  | slot place =>
      rw [content] at holds
      exact takes_slot place holds.1

section Shapes

variable {good : QueryNode → Prop}

theorem ruled_bud {node : QueryNode} (admitted : good node) (key : Option String) :
    Ruled (Sits good) [.node ⟨key, node⟩ []] :=
  (ruled_singleton _ _).mpr ⟨⟨admitted, carries_nil _⟩, ruled_nil⟩

theorem ruled_conjunction (inert : Inert good) {clauses : List (Shape QueryNode)}
    (carried : Ruled (Sits good) clauses)
    (bare : ∀ clause ∈ clauses, clause.label.content.slot? = none) :
    Ruled (Sits good) [conjunction clauses] := by
  rw [conjunction, ruled_singleton, QueryNode.slotShape, ruled_singleton]
  refine ⟨⟨inert.emptyBool, fun child inside => ?_, by simp⟩,
    ⟨inert.slot _, fun child inside => ?_, by simp [mustPlace]⟩, carried⟩
  · exact ⟨mustPlace, by simpa using inside, boolean_must⟩
  · obtain ⟨clause, member, rfl⟩ := List.mem_map.mp inside
    exact bare clause member

theorem ruled_joined (inert : Inert good) {first : Shape QueryNode} {node : QueryNode}
    (key : Option String) (carried : Ruled (Sits good) [first])
    (bareFirst : first.label.content.slot? = none) (admitted : good node)
    (bare : node.slot? = none) :
    Ruled (Sits good) [conjunction [first, .node ⟨key, node⟩ []]] := by
  refine ruled_conjunction inert ((ruled_cons_iff _ _).mpr ⟨carried, ruled_bud admitted key⟩)
    fun clause inside => ?_
  rcases List.mem_cons.mp inside with rfl | last
  · exact bareFirst
  · rwa [List.mem_singleton.mp last]

end Shapes

section Steps

variable {good : QueryNode → Prop} {query final : Query}

theorem slot_of_findSlot? {compound slot : Nat} {name : String}
    (found : query.findSlot? compound name = some slot) :
    ∃ branch ∈ query.tree.live, branch.id = slot ∧ ∃ place, branch.content = .slot place := by
  simp only [Query.findSlot?, findChild?, childBranches] at found
  split at found
  · rename_i holder looked
    obtain ⟨child, first, rfl⟩ := Option.map_eq_some_iff.mp found
    obtain ⟨member, _⟩ := live_of_find? looked
    have named := List.find?_some first
    have live := mem_preorderAll_trans _ member
      (mem_preorderAll_of_mem (List.mem_of_find?_eq_some first))
    cases content : child.content with
    | slot place => exact ⟨child, live, rfl, place, content⟩
    | leaf clause => simp [content, QueryNode.slot?] at named
    | compound clause => simp [content, QueryNode.slot?] at named
  · cases found

theorem opened?_ok {position inner : Position} {boundary : Boundary}
    (opened : Crossable.opened? query position boundary = .ok (some (inner, final))) :
    ∃ path id, boundary = .enter path ∧ inner = .slot id "query" ∧
      query.place position (QueryNode.enter path) none = .ok (id, final) := by
  cases boundary with
  | exit target => cases opened
  | enter path =>
      obtain ⟨⟨id, grown⟩, placed, same⟩ := Result.bind_ok.mp opened
      cases same
      exact ⟨path, id, rfl, rfl, placed⟩

namespace Structured

theorem sound (structured : query.Structured Known) : query.Sound :=
  ⟨structured.toWhole, fun shape inside => holds_iff.mpr (structured.carried shape inside)⟩

/-! ### Changing a branch -/

theorem below (structured : query.Structured good) {branch : Branch QueryNode}
    (member : branch ∈ query.tree.live) : Ruled (Sits good) [branch.shape] := by
  intro shape inside
  refine structured.carried shape (mem_preorderAll_of_branch _ ?_ inside)
  rw [preorderAll_shapes]
  exact List.mem_map_of_mem member

theorem holds (structured : query.Structured good) {branch : Branch QueryNode}
    (member : branch ∈ query.tree.live) :
    Sits good branch.content (contents (shapes branch.children)) ∧
      Ruled (Sits good) (shapes branch.children) := by
  have below := structured.below member
  rw [← node_eta branch, shape_node, ruled_singleton] at below
  exact below

theorem exchanged (structured : query.Structured good) {old new : Branch QueryNode}
    {after : Tree QueryNode} (grew : Regrown query.tree old new after)
    (member : old ∈ query.tree.live)
    (alike : ∀ holder front back, Carries holder (front ++ old.content :: back) →
      Carries holder (front ++ new.content :: back))
    (carried : Ruled (Sits good) [new.shape]) : (query.withTree after).Structured good := by
  obtain ⟨kept, may⟩ := ruled_updateAt query.tree.branches structured.numbered.distinct member
    structured.carried (fun holder front back sits => ⟨sits.1, alike holder front back sits.2⟩)
    (by rwa [shapes_cons_eq, shapes_nil])
  rw [← grew.branches] at kept may
  have top := may (.slot queryPlace) [] ⟨structured.inert.slot _, structured.top⟩
  exact { structured.toWhole.regrown grew member with
    inert := structured.inert, carried := kept, top := top.2 }

theorem regrown (structured : query.Structured good) {old new : Branch QueryNode}
    {after : Tree QueryNode} (grew : Regrown query.tree old new after)
    (member : old ∈ query.tree.live) (label : new.label = old.label)
    (carries : Sits good new.content (contents (shapes new.children)))
    (carried : Ruled (Sits good) (shapes new.children)) : (query.withTree after).Structured good := by
  have same : new.content = old.content := congrArg (·.content) label
  refine structured.exchanged grew member (fun holder front back => by rw [same]; exact id) ?_
  rw [← node_eta new, shape_node, ruled_singleton]
  exact ⟨carries, carried⟩

theorem extended (structured : query.Structured good) {holder : Branch QueryNode}
    (member : holder ∈ query.tree.live) {key : Option String} {node : QueryNode} {id : Nat}
    {after : Tree QueryNode}
    (grew : Regrown query.tree holder (Tree.extended holder (bud key node id)) after)
    (admitted : good node)
    (carries : Carries holder.content (contents (shapes holder.children) ++ [node])) :
    (query.withTree after).Structured good := by
  have children : shapes (Tree.extended holder (bud key node id)).children =
      shapes holder.children ++ [.node ⟨key, node⟩ []] := by
    rw [Tree.extended, children_node, shapes_append]
    rfl
  refine structured.regrown grew member rfl ?_ ?_
  · rw [children, contents, List.map_append]
    exact ⟨(structured.holds member).1.1, carries⟩
  · rw [children, ruled_append]
    exact ⟨(structured.holds member).2, ruled_bud admitted key⟩

theorem landed (structured : query.Structured good) {holder : Branch QueryNode}
    (member : holder ∈ query.tree.live) {key : Option String} {node : QueryNode} {id : Nat}
    {after : Tree QueryNode} {route : List String} {effect : Shape QueryNode → List (Shape QueryNode)}
    (lands : Lands query.tree holder (bud key node id) after route effect)
    (carries : Carries holder.content (contents (effect (.node ⟨key, node⟩ []))))
    (carried : Ruled (Sits good) (effect (.node ⟨key, node⟩ []))) :
    (query.withTree after).Structured good := by
  obtain ⟨grown, grew, label, below⟩ :=
    lands.completes _ after (Regrown.refl lands.numbered (lands.live member)) rfl
  have same : grown.content = holder.content := congrArg (·.content) label
  refine structured.regrown grew member label ?_ (below ▸ carried)
  rw [same, below]
  exact ⟨(structured.holds member).1.1, carries⟩

theorem of_top (inert : Inert good) {after : Tree QueryNode} {key : Option String}
    {node : QueryNode} {id : Nat} {route : List String}
    {effect : Shape QueryNode → List (Shape QueryNode)}
    (lands : LandsTop (bud key node id) after route effect)
    (top : Carries (.slot queryPlace) (contents (effect (.node ⟨key, node⟩ []))))
    (carried : Ruled (Sits good) (effect (.node ⟨key, node⟩ []))) :
    (query.withTree after).Structured good := by
  have made := lands.completes _ after
    (Regrown.refl lands.numbered (mem_of_site lands.site)) rfl
  refine ⟨⟨lands.numbered, lands.settled⟩, inert, ?_, ?_⟩
  · rw [tree_withTree, made]
    exact carried
  · rw [tree_withTree, made]
    exact top

theorem bare_root (structured : query.Structured good) {root : Branch QueryNode}
    (rooted : query.tree.root = some root) :
    root ∈ query.tree.live ∧ root.content.slot? = none := by
  have only := branches_of_root structured.toWhole
  rw [rooted, Option.toList_some] at only
  have top := structured.top
  rw [only, shapes_cons_eq, shapes_nil] at top
  refine ⟨mem_preorderAll_of_mem (by simp [only]), ?_⟩
  simpa [content_shape] using top.1 root.content (by simp [content_shape])

/-! ### Slots and places -/

theorem ensureSlot (structured : query.Structured good) {compound slot : Nat} {name : String}
    (ensured : query.ensureSlot compound name = .ok (slot, final)) :
    final.Structured good ∧
      ∃ branch ∈ final.tree.live, branch.id = slot ∧ ∃ place, branch.content = .slot place := by
  cases found : query.findSlot? compound name with
  | some old =>
      rw [Query.ensureSlot, found] at ensured
      cases Result.pure_ok.mp ensured
      exact ⟨structured, slot_of_findSlot? found⟩
  | none =>
      have opened := ensured
      simp only [Query.ensureSlot, found, Result.bind_ok] at opened
      obtain ⟨node, got, opened⟩ := opened
      obtain ⟨holder, member, rfl, rfl⟩ := live_of_get got
      cases content : holder.content with
      | leaf clause =>
          rw [content] at opened
          cases opened
      | slot place =>
          rw [content] at opened
          cases opened
      | compound clause =>
          cases declares : clause.kind.slot? name with
          | none =>
              simp only [content, declares] at opened
              cases opened
          | some place =>
              obtain ⟨after, made, grew, _⟩ :=
                ensureSlot_missing structured.numbered member content declares found
              rw [made] at ensured
              cases ensured
              have named := CompoundKind.slot?_name declares
              rcases findSlot?_cases structured.numbered member name with
                ⟨_, absent⟩ | ⟨_, _, _, _, present⟩
              · have live := grew.live_new structured.numbered member
                have carries := (structured.holds member).1.2
                rw [content] at carries
                refine ⟨structured.extended member grew (structured.inert.slot place) ?_,
                  bud (some place.name) (.slot place) query.tree.next, ?_, rfl, place, rfl⟩
                · rw [content]
                  refine carries_slot carries (named.symm ▸ declares) fun child inside => ?_
                  obtain ⟨shape, below, rfl⟩ := List.mem_map.mp inside
                  obtain ⟨branch, child, rfl⟩ := mem_shapes.mp below
                  rw [named]
                  exact absent branch child
                · exact mem_preorderAll_trans _ live
                    (mem_preorderAll_of_mem (by simp [Tree.extended]))
              · rw [found] at present
                cases present

theorem insertNode (structured : query.Structured good) {node : QueryNode} {key : Option String}
    {slot id : Nat} (admitted : good node) (bare : node.slot? = none)
    (inserted : query.insertNode node key slot = .ok (id, final)) : final.Structured good := by
  obtain ⟨⟨number, after⟩, made, same⟩ := Result.bind_ok.mp inserted
  cases Result.pure_ok.mp same
  obtain ⟨holder, member, rfl, rfl, taken, grew⟩ := insert_ok structured.numbered made
  have length : (contents (shapes holder.children)).length = holder.children.length := by
    rw [contents, List.length_map, length_shapes]
  exact structured.extended member grew admitted
    (carries_taken (structured.holds member).1.2 bare (length ▸ taken))

theorem sole_occupant (structured : query.Structured good) {slot : Branch QueryNode} {place : Slot}
    (member : slot ∈ query.tree.live) (content : slot.content = .slot place) {occupant : Nat}
    (met : query.occupant? slot.id = some occupant) :
    ∃ branch, slot.children = [branch] ∧ branch.id = occupant ∧ branch.content.slot? = none := by
  obtain ⟨⟨_, carries⟩, _⟩ := structured.holds member
  rw [content] at carries
  rw [occupant?_live query structured.numbered member content] at met
  split at met
  · cases met
  · rename_i many
    have alone : slot.children.length ≤ 1 := by
      simpa [contents, length_shapes] using carries.2 (by simpa using many)
    obtain ⟨entry, children⟩ := slot
    match children, alone with
    | [branch], _ =>
        cases met
        rw [children_node, shapes_cons_eq, shapes_nil] at carries
        exact ⟨branch, rfl, rfl, content_shape branch ▸ carries.1 _ (by simp)⟩

theorem joinSlot (structured : query.Structured good) {slot : Branch QueryNode} {place : Slot}
    (member : slot ∈ query.tree.live) (content : slot.content = .slot place) {occupant id : Nat}
    (met : query.occupant? slot.id = some occupant) {node : QueryNode} {key : Option String}
    (admitted : good node) (bare : node.slot? = none)
    (joined : query.joinWith node key occupant = .ok (id, final)) : final.Structured good := by
  obtain ⟨branch, below, rfl, bareBranch⟩ := structured.sole_occupant member content met
  have carried := (structured.holds member).2
  obtain ⟨entry, children⟩ := slot
  cases below
  rw [children_node, shapes_cons_eq, shapes_nil] at carried
  obtain ⟨number, after, made, lands⟩ :=
    joinWith_slot structured.toWhole member content bareBranch bare key
  cases made.symm.trans joined
  refine structured.landed member lands ?_ ?_
  · rw [content_node] at content ⊢
    rw [content]
    exact carries_single place rfl
  · exact ruled_joined structured.inert key carried (by rwa [content_shape]) admitted bare

theorem placeIn (structured : query.Structured good) {compound id : Nat} {name : String}
    {node : QueryNode} {key : Option String} (admitted : good node) (bare : node.slot? = none)
    (placed : query.placeIn compound name node key = .ok (id, final)) : final.Structured good := by
  obtain ⟨⟨number, made⟩, ensured, placed⟩ := Result.bind_ok.mp placed
  obtain ⟨structuredMade, slot, member, rfl, place, content⟩ := structured.ensureSlot ensured
  simp only at placed
  split at placed
  · exact structuredMade.insertNode admitted bare placed
  · rename_i occupant met
    exact structuredMade.joinSlot member content met admitted bare placed

theorem placeTop (structured : query.Structured good) {id : Nat} {node : QueryNode}
    {key : Option String} (admitted : good node) (bare : node.slot? = none)
    (stays : query.effective .top = .top)
    (placed : query.place .top node key = .ok (id, final)) : final.Structured good := by
  cases rooted : query.tree.root with
  | none =>
      obtain ⟨number, after, made, lands⟩ := place_empty structured.toWhole rooted node key
      cases made.symm.trans placed
      exact of_top structured.inert lands (carries_single _ bare) (ruled_bud admitted key)
  | some root =>
      obtain ⟨member, bareRoot⟩ := structured.bare_root rooted
      have shape : root.shape.label.content = root.content := content_shape root
      rw [place, stays] at placed
      simp only [rootId?_root rooted] at placed
      obtain ⟨number, after, made, lands⟩ :=
        joinWith_root structured.toWhole rooted bareRoot bare key
      cases made.symm.trans placed
      exact of_top structured.inert lands (carries_single _ rfl)
        (ruled_joined structured.inert key (structured.below member) (shape ▸ bareRoot) admitted bare)

theorem place (structured : query.Structured good) {position : Position} {id : Nat} {node : QueryNode}
    {key : Option String} (admitted : good node) (bare : node.slot? = none)
    (placed : query.place position node key = .ok (id, final)) : final.Structured good := by
  cases effective : query.effective position with
  | top =>
      have top : query.effective .top = .top := by
        cases position with
        | top => exact effective
        | slot compound name =>
            simp only [Query.effective] at effective
            split at effective
            · split at effective <;> cases effective
            · cases effective
      rw [place_congr (effective.trans top.symm)] at placed
      exact structured.placeTop admitted bare top placed
  | slot compound name =>
      rw [place_of_effective effective] at placed
      exact structured.placeIn admitted bare placed

/-! ### Insertions -/

theorem opened (structured : query.Structured good) {position inner : Position} {boundary : Boundary}
    (opened : Crossable.opened? query position boundary = .ok (some (inner, final))) :
    final.Structured good := by
  obtain ⟨path, id, _, _, placed⟩ := opened?_ok opened
  exact structured.place (structured.inert.enter path) rfl placed

theorem cross (structured : query.Structured good) {refusal : Error} {boundaries : List Boundary}
    {position reached : Position}
    (crossed : ScopedClauses.cross refusal query position boundaries = .ok (reached, final)) :
    final.Structured good := by
  let Holds := fun (_ : List Boundary) (middle : Query) (_ : Position) => middle.Structured good
  have ends : Holds [] final reached :=
    cross_induction (fun stays _ => stays) (fun stays _ opened => Structured.opened stays opened)
      structured crossed
  exact ends

theorem settle (structured : query.Structured good) {position reached : Position} {node : QueryNode}
    (settled : query.settle position node = .ok (reached, final)) : final.Structured good := by
  rcases settle_cases query position node with ⟨error, _, failed⟩ | ⟨route, refusal, _, crossed⟩
  · rw [failed] at settled
    cases settled
  · rw [crossed] at settled
    exact structured.cross settled

end Structured

mutual

theorem structured_insertClause {good : QueryNode → Prop} {query final : Query}
    {position : Position} {id : Nat} (structured : query.Structured good) :
    ∀ shape, Ruled (Enters good) [shape] →
      shape.label.content.slot? = none → query.insertClause position shape = .ok (id, final) →
        final.Structured good
  | .node entry slots, takes, bare, inserted => by
      obtain ⟨spot, crossed, placed, settling, placing, filling⟩ := insertClause_ok inserted
      rw [ruled_singleton] at takes
      exact structured_insertSlots ((structured.settle settling).place takes.1.1 bare placing) slots
        takes.2 filling
  termination_by structural shape => shape

theorem structured_insertSlots {good : QueryNode → Prop} {query final : Query} {compound : Nat}
    (structured : query.Structured good) : ∀ slots, Ruled (Enters good) slots →
      query.insertSlots compound slots = .ok final → final.Structured good
  | [], _, inserted => by
      cases Result.pure_ok.mp inserted
      exact structured
  | .node entry clauses :: rest, takes, inserted => by
      rw [ruled_cons] at takes
      obtain ⟨here, below, beside⟩ := takes
      rcases insertSlots_ok inserted with
        ⟨place, slot, made, filled, isSlot, ensured, filling, others⟩ | ⟨_, others⟩
      · rw [isSlot] at here
        have bare : ∀ clause ∈ clauses, clause.label.content.slot? = none := fun clause inside =>
          bare_of_takes here.2 _ (List.mem_map_of_mem inside)
        exact structured_insertSlots (structured_insertClauses (structured.ensureSlot ensured).1
          clauses below bare filling) rest beside others
      · exact structured_insertSlots structured rest beside others
  termination_by structural slots => slots

theorem structured_insertClauses {good : QueryNode → Prop} {query final : Query} {position : Position}
    (structured : query.Structured good) : ∀ clauses, Ruled (Enters good) clauses →
      (∀ clause ∈ clauses, clause.label.content.slot? = none) →
        query.insertClauses position clauses = .ok final → final.Structured good
  | [], _, _, inserted => by
      cases Result.pure_ok.mp inserted
      exact structured
  | clause :: rest, takes, bare, inserted => by
      rw [ruled_cons_iff] at takes
      rw [List.forall_mem_cons] at bare
      obtain ⟨id, middle, first, others⟩ := insertClauses_ok inserted
      exact structured_insertClauses (structured_insertClause structured clause takes.1 bare.1 first)
        rest takes.2 bare.2 others
  termination_by structural clauses => clauses

end

namespace Structured

theorem insertShape (structured : query.Structured good) {position : Position}
    {incoming : Option (Shape QueryNode)}
    (takes : ∀ shape, incoming = some shape → Ruled (Enters good) [shape])
    (inserted : query.insertShape position incoming = .ok final) : final.Structured good := by
  cases incoming with
  | none =>
      cases Result.pure_ok.mp inserted
      exact structured
  | some shape =>
      have edges := takes shape rfl
      obtain ⟨⟨key, node⟩, children⟩ := shape
      cases node with
      | slot place =>
          rw [ruled_singleton] at edges
          refine structured_insertClauses structured children edges.2 (fun clause inside => ?_) inserted
          exact bare_of_takes edges.1.2 _ (List.mem_map_of_mem inside)
      | leaf clause =>
          obtain ⟨⟨id, made⟩, placed, rfl⟩ := Result.map_ok.mp inserted
          exact structured_insertClause structured _ edges rfl placed
      | compound clause =>
          obtain ⟨⟨id, made⟩, placed, rfl⟩ := Result.map_ok.mp inserted
          exact structured_insertClause structured _ edges rfl placed

theorem ensureBoolRoot (structured : query.Structured good) {id : Nat}
    (ensured : query.ensureBoolRoot = .ok (id, final)) : final.Structured good := by
  rcases ensureBoolRoot_cases ensured with ⟨_, placed⟩ | ⟨root, rooted, rfl | ⟨must, wrapped⟩⟩
  · exact structured.place structured.inert.emptyBool rfl placed
  · exact structured
  · obtain ⟨member, bare⟩ := structured.bare_root rooted
    obtain ⟨_, _, after, made, whole, _, _, shape⟩ :=
      wrapInBool_clause structured.toWhole rooted bare
    cases made.symm.trans wrapped
    refine { whole with inert := structured.inert, carried := ?_, top := ?_ }
    · rw [tree_withTree, shape]
      refine ruled_conjunction structured.inert (structured.below member) fun clause inside => ?_
      rwa [List.mem_singleton.mp inside, content_shape]
    · rw [tree_withTree, shape]
      exact carries_single _ rfl

/-! ### Merges -/

theorem removeAll (structured : query.Structured good) {branch : Branch QueryNode}
    (member : branch ∈ query.tree.live)
    (removed : query.removeAll (query.tree.children branch.id) = .ok final) :
    final.Structured good ∧ ∃ held ∈ final.tree.live, held.label = branch.label := by
  obtain ⟨after, rfl, grew⟩ := removeAll_ok structured.toWhole member removed
  exact ⟨structured.regrown grew member rfl
    ⟨(structured.holds member).1.1, carries_nil _⟩ ruled_nil, _,
    grew.live_new structured.numbered member, rfl⟩

theorem mergeBody (structured : query.Structured good) {target : Branch QueryNode}
    (member : target ∈ query.tree.live) {current added : CompoundClause}
    (content : target.content = .compound current) {mode : MergeMode}
    (merged : query.mergeBody target.id current added mode = .ok final) : final.Structured good := by
  obtain ⟨first, assigned, rest⟩ := Result.bind_ok.mp merged
  obtain ⟨after, keyed, made⟩ := Result.bind_ok.mp rest
  cases Result.pure_ok.mp made
  have grew := regrown_assigned structured.numbered member
    (Result.bind_ok.mpr ⟨first, assigned, keyed⟩)
  obtain ⟨⟨admitted, carries⟩, carried⟩ := structured.holds member
  rw [content] at admitted carries
  refine structured.exchanged grew member (fun holder front back => ?_) ?_
  · rw [content]
    exact carries_compound _ _
  · rw [shape_node, ruled_singleton]
    exact ⟨⟨structured.inert.body current _ admitted, carries⟩, carried⟩

theorem clear (structured : query.Structured good) {target : Nat} {mode : MergeMode} {name : String}
    (cleared : query.clear target mode name = .ok final) : final.Structured good := by
  unfold Query.clear at cleared
  split at cleared
  · rename_i slot found
    obtain ⟨branch, member, rfl, _⟩ := slot_of_findSlot? found
    exact (structured.removeAll member cleared).1
  · cases Result.pure_ok.mp cleared
    exact structured

theorem mergeSlots (structured : query.Structured good) {target : Nat} {mode : MergeMode}
    {slots : List (Shape QueryNode)} (takes : Ruled (Enters good) slots)
    (merged : query.mergeSlots target mode slots = .ok final) : final.Structured good := by
  induction slots generalizing query with
  | nil =>
      cases Result.pure_ok.mp merged
      exact structured
  | cons slot rest ih =>
      have parts := (ruled_cons_iff _ _).mp takes
      obtain ⟨⟨key, node⟩, clauses⟩ := slot
      cases node with
      | slot place =>
          rw [mergeSlots_cons] at merged
          simp only [Result.bind_ok] at merged
          obtain ⟨cleared, clearing, filled, filling, others⟩ := merged
          exact ih (structured_insertSlots (structured.clear clearing) _ parts.1 filling) parts.2
            others
      | leaf clause => exact ih structured parts.2 merged
      | compound clause => exact ih structured parts.2 merged

theorem mergeOnto (structured : query.Structured good) {onto : Address}
    {incoming : Option (Shape QueryNode)}
    (takes : ∀ shape, incoming = some shape → Ruled (Enters good) [shape])
    {mode : MergeMode} (merged : query.mergeOnto onto incoming mode = .ok final) :
    final.Structured good := by
  cases incoming with
  | none =>
      obtain ⟨_, _, kept⟩ := Result.bind_ok.mp merged
      cases Result.pure_ok.mp kept
      exact structured
  | some shape =>
      have edges := takes shape rfl
      obtain ⟨branch, member, _, current, added, content, _, _, merged⟩ :=
        (mergeOnto_ok structured.numbered).mp merged
      obtain ⟨entry, slots⟩ := shape
      simp only [Result.bind_ok] at merged
      obtain ⟨cleared, emptied, grown, body, merged⟩ := merged
      -- under `replaceAll` the slots go first
      have start : cleared.Structured good ∧
          ∃ held ∈ cleared.tree.live, held.label = branch.label := by
        cases mode with
        | replaceAll => exact structured.removeAll member emptied
        | add | replace =>
            cases Result.pure_ok.mp emptied
            exact ⟨structured, branch, member, rfl⟩
      obtain ⟨structuredCleared, held, liveHeld, label⟩ := start
      have number : held.id = branch.id := congrArg (·.id) label
      have heldContent : held.content = .compound current :=
        (congrArg (·.content) label).trans content
      rw [← number] at body merged
      exact (structuredCleared.mergeBody liveHeld heldContent body).mergeSlots
        ((ruled_singleton _ _).mp edges).2 merged

end Structured

/-! ### Runs -/

def Input.Admitted (good : QueryNode → Prop) (input : Input) : Prop :=
  ∀ shape, input.read = .ok (some shape) → Ruled (Enters good) [shape]

def Input.Accepted : Input → Prop
  | .tree (some shape) => Ruled Takes [shape]
  | _ => True

theorem Input.Accepted.takes {input : Input} (accepted : input.Accepted)
    {shape : Shape QueryNode} (read : input.read = .ok (some shape)) : Ruled Takes [shape] := by
  cases input with
  | document json =>
      obtain ⟨found, parsed, same⟩ := Result.map_ok.mp read
      cases same
      exact ruled_ofJson read_takes json parsed
  | typed tag body =>
      obtain ⟨found, parsed, same⟩ := Result.map_ok.mp read
      cases same
      exact ruled_ofMembers read_takes [(tag, body)] parsed
  | tree given =>
      cases Result.pure_ok.mp read
      exact accepted

theorem Input.Accepted.admitted {input : Input} (accepted : input.Accepted) :
    input.Admitted fun _ => True :=
  fun _ read shape inside => ⟨trivial, accepted.takes read shape inside⟩

theorem Input.Accepted.admitted_known {input : Input} (accepted : input.Accepted)
    (registered : input.Registered) : input.Admitted Known :=
  fun _ read shape inside =>
    ⟨registered.known read _ rfl shape inside, accepted.takes read shape inside⟩

/-- Without a clause to merge onto, what was read is inserted at a position. -/
theorem insert_position {input : Input} {options : Options} (apart : options.onto = none)
    (inserted : query.insert input options = .ok final) :
    ∃ incoming position, input.read = .ok incoming ∧
      query.insertShape position incoming = .ok final := by
  simp only [Query.insert, Result.bind_ok, apart] at inserted
  obtain ⟨incoming, read, inserted⟩ := inserted
  have placed : ∀ {address named}, (query.positionFor address named >>= fun position =>
      query.insertShape position incoming) = .ok final →
        ∃ position, query.insertShape position incoming = .ok final := by
    intro address named inserted
    obtain ⟨position, _, inserted⟩ := Result.bind_ok.mp inserted
    exact ⟨position, inserted⟩
  suffices found : ∃ position, query.insertShape position incoming = .ok final by
    obtain ⟨position, found⟩ := found
    exact ⟨incoming, position, read, found⟩
  cases below : options.below with
  | some address =>
      rw [below] at inserted
      exact placed inserted
  | none =>
      rw [below] at inserted
      simp only at inserted
      split at inserted
      · exact placed inserted
      · exact ⟨.top, inserted⟩

namespace Structured

theorem insert (structured : query.Structured good) {input : Input}
    (admitted : input.Admitted good) {options : Options}
    (inserted : query.insert input options = .ok final) : final.Structured good := by
  cases target : options.onto with
  | none =>
      obtain ⟨incoming, position, read, inserted⟩ := insert_position target inserted
      refine structured.insertShape ?_ inserted
      rintro shape rfl
      exact admitted shape read
  | some onto =>
      simp only [Query.insert, Result.bind_ok, target] at inserted
      obtain ⟨incoming, read, inserted⟩ := inserted
      cases below : options.below with
      | some address =>
          rw [below] at inserted
          cases inserted
      | none =>
          rw [below] at inserted
          refine structured.mergeOnto ?_ inserted
          rintro shape rfl
          exact admitted shape read

theorem insertInBool (structured : query.Structured good) {input : Input}
    (admitted : input.Admitted good) {name : String}
    (inserted : query.insertInBool name input = .ok final) : final.Structured good := by
  simp only [Query.insertInBool, Result.bind_ok] at inserted
  obtain ⟨incoming, read, ⟨id, rooted⟩, ensured, inserted⟩ := inserted
  refine (structured.ensureBoolRoot ensured).insertShape ?_ inserted
  rintro shape rfl
  exact admitted shape read

theorem apply (structured : query.Structured good) {edit : Edit} (admitted : edit.input.Admitted good)
    (applied : edit.apply query = .ok final) : final.Structured good := by
  cases edit with
  | insert input options => exact structured.insert admitted applied
  | must input => exact structured.insertInBool admitted applied
  | should input => exact structured.insertInBool admitted applied
  | filter input => exact structured.insertInBool admitted applied
  | mustNot input => exact structured.insertInBool admitted applied

end Structured

end Steps

inductive Step where
  | configure (mapping : Option Mapping) (autocorrect : Bool) (mode : MergeMode)
  | edit (change : Edit)

def Step.apply (query : Query) : Step → Result Query
  | .configure mapping autocorrect mode =>
      pure { query with mapping := mapping, autocorrect := autocorrect, mergeMode := mode }
  | .edit change => change.apply query

theorem structured_step {good : QueryNode → Prop} {query final : Query}
    (structured : query.Structured good) {step : Step}
    (admitted : ∀ edit, step = .edit edit → edit.input.Admitted good)
    (applied : step.apply query = .ok final) : final.Structured good := by
  cases step with
  | configure mapping autocorrect mode =>
      cases Result.pure_ok.mp applied
      exact ⟨⟨structured.numbered, structured.settled⟩, structured.inert, structured.carried,
        structured.top⟩
  | edit edit => exact structured.apply (admitted edit rfl) applied

theorem structured_run {good : QueryNode → Prop} {query final : Query}
    (structured : query.Structured good) (steps : List Step)
    (admitted : ∀ edit, Step.edit edit ∈ steps → edit.input.Admitted good)
    (ran : steps.foldlM Step.apply query = .ok final) : final.Structured good := by
  induction steps generalizing query with
  | nil =>
      cases Result.pure_ok.mp ran
      exact structured
  | cons step rest ih =>
      rw [List.foldlM_cons] at ran
      obtain ⟨middle, applied, ran⟩ := Result.bind_ok.mp ran
      refine ih ?_ (fun edit later => admitted edit (List.mem_cons_of_mem _ later)) ran
      refine structured_step structured (fun edit same => ?_) applied
      exact admitted edit (same ▸ List.mem_cons_self)

/-- Opening scopes by hand between the steps of a run leaves a query structured. -/
theorem structured_acts {good : QueryNode → Prop} {query final : Query}
    (structured : query.Structured good) (acts : List (Act Step Position))
    (admitted : ∀ edit, Act.own (.edit edit) ∈ acts → edit.input.Admitted good)
    (ran : acts.foldlM (Act.apply Step.apply) query = .ok final) : final.Structured good := by
  let Given := fun step : Step => ∀ edit, step = .edit edit → edit.input.Admitted good
  have steps : ∀ {query final : Query} {step : Step}, Given step → query.Structured good →
      step.apply query = .ok final → final.Structured good :=
    fun given stays applied => structured_step stays given applied
  refine kept_acts (fun stays opened => stays.opened opened) steps structured acts ?_ ran
  rintro step member edit rfl
  exact admitted edit member

/-- What any run makes of an empty query is sound, if its inputs are of registered kinds. -/
theorem sound_run (steps : List Step)
    (admitted : ∀ edit, Step.edit edit ∈ steps → edit.input.Accepted ∧ edit.input.Registered)
    {final : Query} (ran : steps.foldlM Step.apply {} = .ok final) :
    final.Sound ∧ Holds (.slot queryPlace) (contents (shapes final.tree.branches)) := by
  have structured := structured_run (structured_empty inert_known none true .add) steps
    (fun edit member => (admitted edit member).1.admitted_known (admitted edit member).2) ran
  exact ⟨structured.sound, structured.top⟩

/-- After any run from an empty query the root is a clause, every node that is there stands below
it, leaves have nothing below them, clauses hold slots of their kind, no name twice, and slots
hold clauses, one at most where they are for one. -/
theorem tree_structured (steps : List Step)
    (accepted : ∀ edit, Step.edit edit ∈ steps → edit.input.Accepted) {final : Query}
    (ran : steps.foldlM Step.apply {} = .ok final) :
    (∀ root, final.tree.root = some root → root.content.slot? = none) ∧
    (∀ id, final.tree.contains id = true → ∃ node ∈ final.tree.nodes, node.id = id) ∧
    ∀ node ∈ final.tree.nodes,
      (∀ clause, node.content = .leaf clause → node.children = []) ∧
      (∀ clause, node.content = .compound clause →
        (∀ child ∈ node.children, ∃ place, child.content = .slot place ∧
          clause.kind.slot? place.name = some place) ∧
        (node.children.map (·.content.tag)).Nodup) ∧
      ∀ place, node.content = .slot place →
        (∀ child ∈ node.children, child.content.slot? = none) ∧
        (place.multiple = false → node.children.length ≤ 1) := by
  have structured := structured_run (structured_empty inert_true none true .add) steps
    (fun edit member => (accepted edit member).admitted) ran
  have all := nodes_eq_live structured.settled
  refine ⟨fun root rooted => (structured.bare_root rooted).2, fun id present => ?_,
    fun node member => ?_⟩
  · obtain ⟨branch, found⟩ := Option.isSome_iff_exists.mp present
    rw [all]
    exact ⟨branch, live_of_find? found⟩
  · rw [all] at member
    have carries := (structured.holds member).1.2
    have below : contents (shapes node.children) = node.children.map (·.content) :=
      contents_shapes node.children
    rw [below] at carries
    refine ⟨fun clause content => ?_, fun clause content => ?_, fun place content => ?_⟩
    · rw [content] at carries
      exact List.map_eq_nil_iff.mp carries
    · rw [content] at carries
      refine ⟨fun child inside => carries.1 _ (List.mem_map_of_mem inside), ?_⟩
      have names := carries.2
      rwa [List.map_map] at names
    · rw [content] at carries
      refine ⟨fun child inside => carries.1 _ (List.mem_map_of_mem inside), fun single => ?_⟩
      simpa only [List.length_map] using carries.2 single

def matchAll : Shape QueryNode :=
  .node ⟨none, .leaf ⟨⟨"match_all", .fieldless, .any⟩, none, []⟩⟩ []

def repeatedMust : Shape QueryNode :=
  .node ⟨none, QueryNode.emptyBool⟩
    [QueryNode.slotShape mustPlace [matchAll], QueryNode.slotShape mustPlace [matchAll]]

def repeatedRun : List Step :=
  let clause := Json.object [("term", .object [("roles.gender", .string "F")])]
  [.configure (some rolesMapping) true .replace,
    .edit (.insert (.tree (some repeatedMust)) {}),
    .edit (.should (.document (.object [("nested", .object [("path", .string "roles")])]))),
    .edit (.insert (.tree (some (QueryNode.slotShape mustPlace [matchAll, matchAll])))
      { below := some (.id 5) }),
    .edit (.insert (.document (.object [("bool", .object [("should", clause)])]))
      { onto := some (.id 0) })]

theorem accepted_repeatedRun :
    ∀ edit, Step.edit edit ∈ repeatedRun → edit.input.Accepted := by
  have slot : ∀ count, Ruled Takes
      [QueryNode.slotShape mustPlace (List.replicate count matchAll)] := by
    intro count
    have leaf : Ruled Takes [matchAll] := (ruled_singleton _ _).mpr ⟨read_takes.leaf _, ruled_nil⟩
    refine (ruled_singleton _ _).mpr
      ⟨takes_slot _ fun child inside => ?_, fun shape inside => ?_⟩
    · obtain ⟨clause, member, rfl⟩ := List.mem_map.mp inside
      rw [List.eq_of_mem_replicate member]
      rfl
    · obtain ⟨top, member, within⟩ := exists_top inside
      rw [List.eq_of_mem_replicate member] at within
      exact leaf shape within
  intro edit member
  simp only [repeatedRun, List.mem_cons, reduceCtorEq, Step.edit.injEq, List.not_mem_nil, or_false,
    false_or] at member
  rcases member with rfl | rfl | rfl | rfl
  · refine (ruled_singleton _ _).mpr ⟨read_takes.compound _ _ (by decide +kernel) ?_, ?_⟩
    · intro child inside
      exact ⟨mustPlace, by simpa [QueryNode.slotShape] using inside, boolean_must⟩
    · exact (ruled_cons_iff _ _).mpr ⟨slot 1, slot 1⟩
  · trivial
  · exact slot 2
  · trivial

theorem tree_structured_repeatedRun :
    ∃ final, repeatedRun.foldlM Step.apply {} = .ok final ∧ final.tree.nodes.length = 8 ∧
      ∀ node ∈ final.tree.nodes, ∀ clause, node.content = .compound clause →
        (node.children.map (·.content.tag)).Nodup := by
  have made : (repeatedRun.foldlM Step.apply {}).toOption.any
      (fun final => final.tree.nodes.length = 8) = true := by decide +kernel
  obtain ⟨final, ran, count⟩ := Result.ok_of_any made
  obtain ⟨_, _, nodes⟩ := tree_structured repeatedRun accepted_repeatedRun ran
  exact ⟨final, ran, by simpa using count, fun node member clause content =>
    ((nodes node member).2.1 clause content).2⟩

end Query

end ScopedClauses
