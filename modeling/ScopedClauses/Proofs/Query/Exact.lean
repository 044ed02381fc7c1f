import ScopedClauses.Proofs.Query.Legible
import ScopedClauses.Proofs.Query.TopLevel
import ScopedClauses.Proofs.Tree.Appending

/-!
Without a mapping a document is inserted as it is. Every node becomes the last child of its
parent and takes the next number, so the tree is the one that the document is read as, with
the same numbers.
-/

namespace ScopedClauses

namespace Query

open Rose Tree Weaving QueryNode

theorem settle_free {query : Query} (free : query.mapping = none) (position : Position)
    (node : QueryNode) : query.settle position node = .ok (position, query) := by
  cases node <;> simp [settle, free, pure, Except.pure]

structure Tip (query : Query) (entry : Entry QueryNode) (front : List (Branch QueryNode))
    (slot : Branch QueryNode) (place : Slot) : Prop where
  live : .node entry (front ++ [slot]) ∈ query.tree.live
  content : slot.content = .slot place
  absent : ∀ child ∈ front, isNamed place.name child.shape = false
  room : place.multiple = false → slot.children = []

namespace Tip

variable {query : Query} {entry : Entry QueryNode} {front : List (Branch QueryNode)}
  {slot : Branch QueryNode} {place : Slot} (tip : query.Tip entry front slot place)
  (whole : query.Whole)

include tip whole

omit whole in
theorem slot_live : slot ∈ query.tree.live :=
  mem_preorderAll_trans _ tip.live (mem_preorderAll_of_mem (by simp))

theorem found : query.findSlot? entry.id place.name = some slot.id := by
  have named : isNamed place.name slot.shape = true :=
    isNamed_iff.mpr ⟨place, by rw [content_shape, tip.content], rfl⟩
  rcases findSlot?_cases whole.numbered tip.live place.name with
    ⟨_, missing⟩ | ⟨before, other, after, first, looked⟩
  · rw [missing slot (by simp)] at named
    cases named
  · have parts : front ++ [slot] = before ++ other :: after := first.parts
    rcases List.append_eq_append_iff.mp parts with ⟨extra, same, rest⟩ | ⟨extra, same, rest⟩
    · cases extra with
      | nil =>
          rw [List.nil_append, List.cons.injEq] at rest
          rw [rest.1]
          exact looked
      | cons passed others =>
          rw [List.cons_append, List.cons.injEq] at rest
          have skipped := first.absent slot (by rw [same, ← rest.1]; simp)
          rw [skipped] at named
          cases named
    · cases extra with
      | nil =>
          rw [List.nil_append, List.cons.injEq] at rest
          rw [← rest.1]
          exact looked
      | cons passed others =>
          rw [List.cons_append, List.cons.injEq] at rest
          have skipped := tip.absent other (by rw [same, rest.1]; simp)
          rw [first.named] at skipped
          cases skipped

theorem vacant : query.occupant? slot.id = none := by
  rw [occupant?_live query whole.numbered tip.slot_live tip.content]
  split
  · rfl
  · rename_i single
    rw [tip.room (by simpa using single)]
    rfl

theorem place_ok {node : QueryNode} (bare : node.slot? = none) (key : Option String) :
    ∃ after, query.place (.slot entry.id place.name) node key =
        .ok (query.tree.next, query.withTree after) ∧
      Appended query.tree slot [.node ⟨key, node⟩ []] after := by
  have effective : query.effective (.slot entry.id place.name) = .slot entry.id place.name := by
    simp [effective, tip.found whole, tip.vacant whole]
  have ensured : query.ensureSlot entry.id place.name = .ok (slot.id, query) := by
    rw [ensureSlot, tip.found whole]
    rfl
  have taken : NodeRules.checkChild slot.content node slot.children.length = .ok () := by
    rw [tip.content]
    exact slot_takes place bare fun single => by rw [tip.room single]; rfl
  obtain ⟨after, inserted, grew, next⟩ := insert_taken whole.numbered tip.slot_live key taken
  refine ⟨after, ?_, ⟨grew, next⟩⟩
  rw [place_of_effective effective, placeIn, ensured]
  simp only [Result.ok_bind, tip.vacant whole, insertNode, inserted]
  rfl

end Tip

theorem Whole.appended {query : Query} (whole : query.Whole) {holder : Branch QueryNode}
    {shapes : List (Shape QueryNode)} {after : Tree QueryNode}
    (appended : Appended query.tree holder shapes after) (member : holder ∈ query.tree.live) :
    (query.withTree after).Whole :=
  whole.regrown appended.grew member

mutual

theorem fill_exact {query : Query} (free : query.mapping = none) (whole : query.Whole)
    {slot : Branch QueryNode} (member : slot ∈ query.tree.live) {middle : Tree QueryNode} :
    ∀ shape, Sheer [shape] → shape.label.content.slot? = none →
      Appended query.tree slot [.node shape.label []] middle →
      ∃ after, (query.withTree middle).insertSlots query.tree.next shape.children =
          .ok (query.withTree after) ∧ Appended query.tree slot [shape] after
  | .node ⟨key, content⟩ below, sheer, bare, added => by
      obtain ⟨formed, legible⟩ := sheer
      rw [formed_cons] at formed
      rw [allLegible_singleton] at legible
      have live := added.live_bud whole.numbered member
      match content, formed, live, added with
      | .leaf clause, formed, live, added =>
          have empty : below = [] := List.map_eq_nil_iff.mp formed.1
          subst empty
          exact ⟨middle, rfl, added⟩
      | .compound clause, formed, live, added =>
          have freeMiddle : (query.withTree middle).mapping = none := free
          obtain ⟨after, inserted, inside⟩ := insertSlots_exact freeMiddle
            (whole.appended added member) live rfl below ⟨formed.2.1, formed.1⟩ legible.2
          exact ⟨after, inserted, added.nest whole.numbered member inside⟩
  termination_by structural shape => shape

theorem insertSlots_exact {query : Query} (free : query.mapping = none) (whole : query.Whole)
    {holder : Branch QueryNode} (member : holder ∈ query.tree.live) {clause : CompoundClause}
    (content : holder.content = .compound clause) : ∀ slots,
      FormedSlots (.compound clause) (shapes holder.children ++ slots) → AllLegible none slots →
      ∃ after, query.insertSlots holder.id slots = .ok (query.withTree after) ∧
        Appended query.tree holder slots after
  | [], _, _ => ⟨query.tree, rfl, Appended.nil whole.numbered member⟩
  | .node ⟨key, held⟩ clauses :: rest, formed, legible => by
      obtain ⟨here, below, beside⟩ := (allLegible_cons _ _ _).mp legible
      obtain ⟨place, slotted, declares⟩ := formed.2.2.1 held (by simp)
      subst slotted
      have keyed : key = some place.name := here.key
      subst keyed
      have slot := ((formed_append _ _).mp formed.1).2
      rw [formed_cons] at slot
      have absent : ∀ child ∈ holder.children, isNamed place.name child.shape = false :=
        fun child inside => absent_of_formed formed rfl _ (mem_shapes.mpr ⟨child, inside, rfl⟩)
      have missing : query.findSlot? holder.id place.name = none := by
        rcases findSlot?_cases whole.numbered member place.name with
          ⟨missing, _⟩ | ⟨_, other, _, first, _⟩
        · exact missing
        · have found := absent other (by rw [first.parts]; simp)
          rw [first.named] at found
          cases found
      obtain ⟨middle, ensured, grew, next⟩ :=
        ensureSlot_missing whole.numbered member content declares missing
      have added : Appended query.tree holder [.node ⟨some place.name, .slot place⟩ []] middle :=
        ⟨grew, next⟩
      have tip : (query.withTree middle).Tip holder.label holder.children
          (bud (some place.name) (.slot place) query.tree.next) place :=
        ⟨grew.live_new whole.numbered member, rfl, absent, fun _ => rfl⟩
      have freeMiddle : (query.withTree middle).mapping = none := free
      obtain ⟨last, inserted, inside⟩ := insertClauses_exact freeMiddle
        (whole.appended added member) clauses tip.slot_live (fun _ => tip) ⟨slot.2.1, below⟩
        slot.1.1 (by simpa using slot.1.2)
      have whole' := added.nest whole.numbered member inside
      have formed' : FormedSlots (.compound clause)
          (shapes (holder.children ++ numberAll query.tree.next
            [.node ⟨some place.name, .slot place⟩ clauses]) ++ rest) := by
        rw [shapes_append, shapes_numberAll, List.append_assoc]
        exact formed
      have freeLast : (query.withTree last).mapping = none := free
      obtain ⟨after, others, again⟩ := insertSlots_exact freeLast
        (whole.appended whole' member) (whole'.grew.live_new whole.numbered member) content rest
        formed' beside
      refine ⟨after, ?_, whole'.append whole.numbered member again⟩
      rw [insertSlots]
      simp only [QueryNode.slot?, ensured, Result.ok_bind]
      have inserted : (query.withTree middle).insertClauses (.slot holder.id place.name) clauses =
        .ok (query.withTree last) := inserted
      rw [inserted]
      exact others
  termination_by structural slots => slots

theorem insertClauses_exact {query : Query} (free : query.mapping = none) (whole : query.Whole)
    {entry : Entry QueryNode} {front : List (Branch QueryNode)} {slot : Branch QueryNode}
    {place : Slot} : ∀ clauses, slot ∈ query.tree.live →
      (clauses ≠ [] → query.Tip entry front slot place) → Sheer clauses →
      (∀ node ∈ contents clauses, node.slot? = none) →
      (place.multiple = false → clauses.length ≤ 1) →
      ∃ after, query.insertClauses (.slot entry.id place.name) clauses = .ok (query.withTree after) ∧
        Appended query.tree slot clauses after
  | [], member, _, _, _, _ => ⟨query.tree, rfl, Appended.nil whole.numbered member⟩
  | clause :: rest, member, tip, sheer, bare, few => by
      have tip := tip (by simp)
      rw [sheer_cons_iff] at sheer
      simp only [contents, List.map_cons, List.forall_mem_cons] at bare
      obtain ⟨placed, made, landed⟩ := tip.place_ok whole bare.1 clause.label.key
      obtain ⟨middle, filled, added⟩ := fill_exact free whole member clause sheer.1 bare.1 landed
      have inserted : (·.2) <$> query.insertClause (.slot entry.id place.name)
          (.node clause.label clause.children) = .ok (query.withTree middle) :=
        (insertClause_placed clause.children (settle_free free _ _) made).trans filled
      rw [node_eta] at inserted
      have live := added.grew.live_new whole.numbered member
      have tipNext : rest ≠ [] → (query.withTree middle).Tip entry front
          (.node slot.label (slot.children ++ numberAll query.tree.next [clause])) place := by
        intro more
        refine ⟨?_, tip.content, tip.absent, fun single => ?_⟩
        · exact (added.grew.child front [] whole.numbered tip.live).live_new whole.numbered tip.live
        · have length := few single
          cases rest with
          | nil => exact absurd rfl more
          | cons _ _ => simp at length
      have freeMiddle : (query.withTree middle).mapping = none := free
      obtain ⟨after, others, again⟩ := insertClauses_exact freeMiddle
        (whole.appended added member) rest live tipNext sheer.2 bare.2 (fun single => by
          have length := few single
          simp only [List.length_cons] at length
          omega)
      refine ⟨after, ?_, added.append whole.numbered member again⟩
      rw [insertClauses_cons, inserted]
      exact others
  termination_by structural clauses => clauses

end

theorem insertClause_filled {query : Query} (free : query.mapping = none)
    {made middle : Tree QueryNode} (whole : (query.withTree made).Whole) {slot : Branch QueryNode}
    (member : slot ∈ made.live) {shape : Shape QueryNode} (sheer : Sheer [shape])
    (bare : shape.label.content.slot? = none) {position : Position}
    (placed : query.place position shape.label.content shape.label.key =
      .ok (made.next, query.withTree middle))
    (added : Appended made slot [.node shape.label []] middle) :
    ∃ after, (·.2) <$> query.insertClause position shape = .ok (query.withTree after) ∧
      Appended made slot [shape] after := by
  have freeMade : (query.withTree made).mapping = none := free
  obtain ⟨after, filled, whole⟩ := fill_exact freeMade whole member shape sheer bare added
  obtain ⟨entry, below⟩ := shape
  exact ⟨after, (insertClause_placed below (settle_free free _ _) placed).trans filled, whole⟩

/-- Without a mapping, a document is inserted as the tree that it is read as. -/
theorem ofJson_exact {json : Json} (distinct : json.distinct = true) {tree : Tree QueryNode}
    (parsed : QueryNode.parse json = .ok tree) :
    ∃ query, Query.ofJson json none = .ok query ∧ query.tree = tree := by
  obtain ⟨shape, read, rfl⟩ := Result.map_ok.mp
    (show Tree.ofShape <$> QueryNode.ofJson json = .ok tree by
      rwa [QueryNode.parse, Result.bind_pure_map] at parsed)
  have bare := slot?_ofJson read
  obtain ⟨formed, legible⟩ := sheer_ofJson json distinct read
  obtain ⟨⟨key, content⟩, below⟩ := shape
  rw [formed_cons] at formed
  rw [allLegible_singleton] at legible
  -- the first node becomes the root
  let start : Query := { tree := ⟨some (bud key content 0), [], 1⟩ }
  have whole : start.Whole := by
    refine ⟨⟨?_, ?_⟩, rfl⟩
    · simp [start, branches, bud]
    · simp [start, branches, bud]
  have live : bud key content 0 ∈ start.tree.live :=
    mem_preorderAll_of_mem (by simp [start, branches])
  have placed : ({} : Query).place .top content key = .ok (0, start) := rfl
  have inside : ∃ after, start.insertSlots 0 below = .ok (start.withTree after) ∧
      Appended start.tree (bud key content 0) below after := by
    cases content with
    | leaf clause =>
        have empty : below = [] := List.map_eq_nil_iff.mp formed.1
        subst empty
        exact ⟨start.tree, rfl, Appended.nil whole.numbered live⟩
    | compound clause =>
        have free : start.mapping = none := rfl
        exact insertSlots_exact free whole live rfl below ⟨formed.2.1, formed.1⟩ legible.2
    | slot place => cases bare
  obtain ⟨after, inserted, appended⟩ := inside
  refine ⟨start.withTree after, ?_, ?_⟩
  · have grown : (·.2) <$> ({} : Query).insertClause .top (.node ⟨key, content⟩ below) =
        start.insertSlots 0 below := insertClause_placed below (settle_free rfl _ _) placed
    rw [ofJson_of_read read]
    exact grown.trans inserted
  · exact appended.eq_ofShape

end Query

end ScopedClauses
