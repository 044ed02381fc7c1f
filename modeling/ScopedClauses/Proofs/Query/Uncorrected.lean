import ScopedClauses.Proofs.Scope.Twins
import ScopedClauses.Proofs.Query.Rescoping

/-!
Queries without autocorrection. What an edit makes of one it makes of the same query with
autocorrection, and no clause that enters a nested scope is added to those that were there and
those that were inserted.
-/

namespace ScopedClauses

namespace Query

open Rose Tree Result

instance : Correctable Query QueryNode where
  treeOf := tree
  autocorrects := autocorrect
  corrected query := { query with autocorrect := true }

structure Overlooks {α : Type} (view : Keyed QueryNode → Option α) : Prop where
  slot : ∀ key place, view ⟨key, .slot place⟩ = none
  bool : view ⟨none, QueryNode.emptyBool⟩ = none

section Steps

variable {α : Type} {view : Keyed QueryNode → Option α} {start : Tree QueryNode} {new more : Multiset α}
  {query other : Query}

theorem twins_tree (twins : Twins view start new query other) {after : Tree QueryNode}
    (gains : Gains view query.tree more after) :
    Twins view start (new + more) { query with tree := after } { other with tree := after } := by
  obtain ⟨off, rfl, before⟩ := twins
  exact ⟨off, rfl, before.trans gains⟩

theorem twins_steady (twins : Twins view start new query other) {after : Tree QueryNode}
    (gains : Gains view query.tree 0 after) :
    Twins view start new { query with tree := after } { other with tree := after } := by
  simpa using twins_tree twins gains

theorem tree_of_twins (twins : Twins view start new query other) : other.tree = query.tree := by
  rw [twins.same]
  rfl

theorem findSlot?_of_twins (twins : Twins view start new query other) (compound : Nat) (name : String) :
    other.findSlot? compound name = query.findSlot? compound name := by
  rw [findSlot?, tree_of_twins twins, findSlot?]

theorem numbered_of_twins (twins : Twins view start new query other) : query.tree.Numbered :=
  twins.gains.numbered

theorem ensureSlot_twins (overlooks : Overlooks view) (twins : Twins view start new query other)
    (compound : Nat) (name : String) :
    Echoes (TwinsWith view start new) (query.ensureSlot compound name)
      (other.ensureSlot compound name) := by
  unfold ensureSlot
  rw [findSlot?_of_twins twins]
  cases query.findSlot? compound name with
  | some slot => exact .pure ⟨slot, twins⟩
  | none =>
      rw [tree_of_twins twins]
      refine .after fun node _ => ?_
      cases node with
      | compound clause =>
          simp only
          cases clause.kind.slot? name with
          | some place =>
              refine .after ?_
              rintro ⟨slot, tree⟩ inserted
              refine .pure ⟨slot, twins_steady twins ?_⟩
              have gains : Gains view _ _ _ := gains_insert (numbered_of_twins twins) inserted
              rwa [seen_none (overlooks.slot _ place)] at gains
          | none => exact .error
      | leaf clause | slot place => exact .error

theorem insertNode_twins (twins : Twins view start new query other) (node : QueryNode)
    (key : Option String) (slot : Nat) :
    Echoes (TwinsWith view start (new + seen view ⟨key, node⟩))
      (query.insertNode node key slot) (other.insertNode node key slot) := by
  unfold insertNode
  rw [tree_of_twins twins]
  exact .after fun ⟨number, tree⟩ inserted =>
    .pure ⟨number, twins_tree twins (gains_insert (numbered_of_twins twins) inserted)⟩

theorem attach_twins (overlooks : Overlooks view) (twins : Twins view start new query other)
    (occupant outer : Nat) :
    Echoes (fun plain corrected => corrected.1 = plain.1 ∧
        TwinsWith view start new plain.2 corrected.2)
      (do
        let (must, query) ← query.ensureSlot outer "must"
        let tree ← query.tree.attach occupant must
        pure (outer, must, { query with tree := tree }))
      (do
        let (must, query) ← other.ensureSlot outer "must"
        let tree ← query.tree.attach occupant must
        pure (outer, must, { query with tree := tree })) := by
  refine (ensureSlot_twins overlooks twins outer "must").bind ?_
  rintro _ _ ⟨must, slotted⟩
  simp only
  rw [tree_of_twins slotted]
  exact .after fun tree attached =>
    .pure ⟨rfl, must, twins_steady slotted (gains_attach (numbered_of_twins slotted) attached)⟩

theorem wrapInBool_twins (overlooks : Overlooks view) (twins : Twins view start new query other)
    (occupant : Nat) :
    Echoes (fun plain corrected => corrected.1 = plain.1 ∧
        TwinsWith view start new plain.2 corrected.2)
      (query.wrapInBool occupant) (other.wrapInBool occupant) := by
  have unseen := seen_none overlooks.bool
  unfold wrapInBool
  rw [tree_of_twins twins]
  refine .after fun cut detached => ?_
  have gone : Gains view query.tree 0 cut := gains_detach (numbered_of_twins twins) detached
  cases query.tree.parent? occupant with
  | some slot =>
      refine .after fun ⟨outer, tree⟩ made => ?_
      have gains : Gains view _ _ _ := gone.trans (unseen ▸ gains_insert gone.numbered made)
      exact attach_twins overlooks (twins_steady twins (by simpa using gains)) occupant outer
  | none =>
      refine .after fun ⟨outer, tree⟩ made => ?_
      have gains : Gains view _ _ _ := gone.trans (unseen ▸ gains_insertRoot gone.numbered made)
      exact attach_twins overlooks (twins_steady twins (by simpa using gains)) occupant outer

theorem joinWith_twins (overlooks : Overlooks view) (twins : Twins view start new query other)
    (node : QueryNode) (key : Option String) (occupant : Nat) :
    Echoes (TwinsWith view start (new + seen view ⟨key, node⟩))
      (query.joinWith node key occupant) (other.joinWith node key occupant) := by
  refine (wrapInBool_twins overlooks twins occupant).bind ?_
  rintro ⟨_, _⟩ ⟨_, _⟩ ⟨rfl, must, wrapped⟩
  exact insertNode_twins wrapped node key must

theorem effective_of_twins (twins : Twins view start new query other) (position : Position) :
    other.effective position = query.effective position := by
  rw [twins.same]
  rfl

theorem occupant?_of_twins (twins : Twins view start new query other) (slot : Nat) :
    other.occupant? slot = query.occupant? slot := by
  rw [twins.same]
  rfl

theorem place_twins (overlooks : Overlooks view) (twins : Twins view start new query other)
    (position : Position) (node : QueryNode) (key : Option String) :
    Echoes (TwinsWith view start (new + seen view ⟨key, node⟩))
      (query.place position node key) (other.place position node key) := by
  unfold place
  rw [effective_of_twins twins]
  cases query.effective position with
  | top =>
      simp only
      rw [tree_of_twins twins]
      cases query.tree.rootId? with
      | none =>
          exact .after fun ⟨number, tree⟩ inserted =>
            .pure ⟨number, twins_tree twins (gains_insertRoot (numbered_of_twins twins) inserted)⟩
      | some root => exact joinWith_twins overlooks twins node key root
  | slot compound name =>
      refine (ensureSlot_twins overlooks twins compound name).bind ?_
      rintro _ _ ⟨slot, slotted⟩
      simp only
      rw [occupant?_of_twins slotted]
      cases Query.occupant? _ slot with
      | none => exact insertNode_twins slotted node key slot
      | some occupant => exact joinWith_twins overlooks slotted node key occupant

theorem settle_twins (twins : Twins view start new query other) (position : Position)
    (node : QueryNode) :
    Echoes (TwinsWith view start new) (query.settle position node) (other.settle position node) := by
  have stays : Echoes (TwinsWith view start new) (pure (position, query) : Result (Position × Query))
      (pure (position, other)) := .pure ⟨position, twins⟩
  have mapped : other.mapping = query.mapping := by rw [twins.same]; rfl
  have off : query.autocorrect = false := twins.off
  have scope : other.positionScope position = query.positionScope position := by
    rw [twins.same]
    rfl
  unfold settle
  rw [mapped, off]
  split
  · split
    · exact .after fun type _ => reconcile_echoes scope ⟨position, twins⟩ _ _ _
    · exact stays
  · exact stays

mutual

theorem insertClause_twins (overlooks : Overlooks view) (position : Position) :
    ∀ (shape : Shape QueryNode) {new : Multiset α} {query other : Query},
      Twins view start new query other →
      Echoes (TwinsWith view start (new + shown view [shape])) (query.insertClause position shape)
        (other.insertClause position shape)
  | .node label slots, new, query, other, twins => by
      rw [insertClause, insertClause]
      refine (settle_twins twins position label.content).bind ?_
      rintro _ _ ⟨inner, settled⟩
      refine (place_twins overlooks settled inner label.content label.key).bind ?_
      rintro _ _ ⟨number, placed⟩
      refine (insertSlots_twins overlooks number slots placed).bind ?_
      intro _ _ filled
      rw [shown_node, ← add_assoc]
      exact .pure ⟨number, filled⟩

theorem insertSlots_twins (overlooks : Overlooks view) (compound : Nat) :
    ∀ (slots : List (Shape QueryNode)) {new : Multiset α} {query other : Query},
      Twins view start new query other →
      Echoes (Twins view start (new + shown view slots)) (query.insertSlots compound slots)
        (other.insertSlots compound slots)
  | [], new, query, other, twins => by
      rw [shown_nil, add_zero]
      exact .pure twins
  | .node label clauses :: rest, new, query, other, twins => by
      rw [insertSlots, insertSlots, shown_cons, shown_node]
      cases content : label.content.slot? with
      | some place =>
          have unseen : view label = none := by
            obtain ⟨key, node⟩ := label
            cases node <;> simp_all [QueryNode.slot?, overlooks.slot]
          rw [seen_none unseen, zero_add, ← add_assoc]
          refine (ensureSlot_twins overlooks twins compound place.name).bind ?_
          rintro _ _ ⟨slot, slotted⟩
          refine (insertClauses_twins overlooks (.slot compound place.name) clauses slotted).bind ?_
          intro _ _ filled
          exact insertSlots_twins overlooks compound rest filled
      | none =>
          have less : new + shown view rest ≤ new + (seen view label +
              shown view clauses + shown view rest) :=
            add_le_add le_rfl (Multiset.le_add_left _ _)
          exact (insertSlots_twins overlooks compound rest twins).mono
            fun _ _ filled => filled.mono less

theorem insertClauses_twins (overlooks : Overlooks view) (position : Position) :
    ∀ (clauses : List (Shape QueryNode)) {new : Multiset α} {query other : Query},
      Twins view start new query other →
      Echoes (Twins view start (new + shown view clauses)) (query.insertClauses position clauses)
        (other.insertClauses position clauses)
  | [], new, query, other, twins => by
      rw [shown_nil, add_zero]
      exact .pure twins
  | clause :: rest, new, query, other, twins => by
      rw [insertClauses, insertClauses, shown_cons, ← add_assoc]
      refine (insertClause_twins overlooks position clause twins).bind ?_
      rintro _ _ ⟨number, placed⟩
      exact insertClauses_twins overlooks position rest placed

end

theorem insertShape_twins (overlooks : Overlooks view) (twins : Twins view start new query other)
    (position : Position) (incoming : Option (Shape QueryNode)) :
    Echoes (Twins view start (new + shown view incoming.toList)) (query.insertShape position incoming)
      (other.insertShape position incoming) := by
  cases incoming with
  | none =>
      rw [Option.toList_none, shown_nil, add_zero]
      exact .pure twins
  | some shape =>
      unfold insertShape
      simp only [Option.toList_some]
      split
      · have less : new + shown view shape.children ≤ new + shown view [shape] := by
          rw [← node_eta shape, shown_node, children_node]
          exact add_le_add le_rfl (Multiset.le_add_left _ _)
        exact (insertClauses_twins overlooks position shape.children twins).mono
          fun _ _ filled => filled.mono less
      · refine (insertClause_twins overlooks position shape twins).map ?_
        rintro _ _ ⟨number, placed⟩
        exact placed

theorem positionFor_of_twins (twins : Twins view start new query other) (address : Address)
    (parameter : Option String) :
    other.positionFor address parameter = query.positionFor address parameter := by
  rw [twins.same]
  rfl

theorem ensureBoolRoot_twins (overlooks : Overlooks view) (twins : Twins view start new query other) :
    Echoes (TwinsWith view start new) query.ensureBoolRoot other.ensureBoolRoot := by
  unfold ensureBoolRoot
  rw [tree_of_twins twins]
  cases query.tree.rootId? with
  | none =>
      refine .after fun ⟨root, tree⟩ made => .pure ⟨root, twins_steady twins ?_⟩
      have gains : Gains view _ _ _ := gains_insertRoot (numbered_of_twins twins) made
      rwa [seen_none overlooks.bool] at gains
  | some root =>
      have bool : other.isBool root = query.isBool root := by
        rw [twins.same]
        rfl
      simp only [bool]
      split
      · exact .pure ⟨root, twins⟩
      · refine (wrapInBool_twins overlooks twins root).bind ?_
        rintro ⟨_, _⟩ ⟨_, _⟩ ⟨rfl, must, wrapped⟩
        exact .pure ⟨_, wrapped⟩

theorem insertInBool_twins (overlooks : Overlooks view) (twins : Twins view start new query other)
    (name : String) {input : Input} {incoming : Option (Shape QueryNode)}
    (read : input.read = .ok incoming) :
    Echoes (Twins view start (new + shown view incoming.toList)) (query.insertInBool name input)
      (other.insertInBool name input) := by
  unfold insertInBool
  rw [read, Result.ok_bind, Result.ok_bind]
  refine (ensureBoolRoot_twins overlooks twins).bind ?_
  rintro _ _ ⟨root, rooted⟩
  exact insertShape_twins overlooks rooted _ incoming

/-! ### Merging -/

theorem removeAll_twins (twins : Twins view start new query other) (ids : List Nat) :
    Echoes (fun plain corrected => Twins view start new plain corrected ∧
        entries plain.tree.branches ⊆ entries query.tree.branches)
      (query.removeAll ids) (other.removeAll ids) := by
  unfold removeAll
  rw [tree_of_twins twins]
  refine .after fun tree removed => .pure ?_
  obtain ⟨gains, kept⟩ : Gains view _ _ _ ∧ _ := gains_removals (numbered_of_twins twins) removed
  exact ⟨twins_steady twins gains, kept⟩

theorem mergeSlots_twins (overlooks : Overlooks view) (target : Nat) (mode : MergeMode)
    (slots : List (Shape QueryNode)) (twins : Twins view start new query other) :
    Echoes (Twins view start (new + shown view slots)) (query.mergeSlots target mode slots)
      (other.mergeSlots target mode slots) := by
  induction slots generalizing new query other with
  | nil =>
      rw [shown_nil, add_zero]
      exact .pure twins
  | cons shape rest ih =>
      have split : shown view (shape :: rest) = seen view shape.label +
          shown view shape.children + shown view rest := by
        rw [shown_cons, ← node_eta shape, shown_node]
        rfl
      rw [mergeSlots, mergeSlots, split, add_assoc]
      have more : shown view shape.children + shown view rest ≤
          seen view shape.label + (shown view shape.children + shown view rest) :=
        Multiset.le_add_left _ _
      cases shape.label.content.slot? with
      | none =>
          exact (ih twins).mono fun _ _ merged =>
            merged.mono (add_le_add le_rfl ((Multiset.le_add_left _ _).trans more))
      | some place =>
          have rest_twins : ∀ {query other : Query}, Twins view start new query other →
              Echoes (Twins view start (new + (seen view shape.label +
                  (shown view shape.children + shown view rest))))
                (do
                  let (_, query) ← query.ensureSlot target place.name
                  let query ← query.insertClauses (.slot target place.name) shape.children
                  query.mergeSlots target mode rest)
                (do
                  let (_, query) ← other.ensureSlot target place.name
                  let query ← query.insertClauses (.slot target place.name) shape.children
                  query.mergeSlots target mode rest) := by
            intro query other twins
            refine (ensureSlot_twins overlooks twins target place.name).bind ?_
            rintro _ _ ⟨slot, slotted⟩
            refine (insertClauses_twins overlooks _ shape.children slotted).bind fun _ _ filled => ?_
            refine (ih filled).mono fun _ _ merged => merged.mono ?_
            rw [add_assoc]
            exact add_le_add le_rfl more
          simp only [findSlot?_of_twins twins]
          split
          · rename_i slot found
            have below : other.tree.children slot = query.tree.children slot := by
              rw [tree_of_twins twins]
            rw [below]
            exact (removeAll_twins twins _).bind fun _ _ cleared => rest_twins cleared.1
          · exact rest_twins twins

def Blends (view : Keyed QueryNode → Option α) (added : CompoundClause) : Prop :=
  ∀ (current : CompoundClause) (mode : MergeMode) (before after key : Option String),
    current.kind.tag = added.kind.tag →
    seen view ⟨after, .compound (blend mode current added)⟩ ≤
      seen view ⟨before, .compound current⟩ + seen view ⟨key, .compound added⟩

theorem mergeBody_twins (twins : Twins view start new query other) {target : Nat}
    {current added : CompoundClause}
    (held : ∀ entry ∈ entries query.tree.branches, entry.id = target →
      entry.content = .compound current)
    (same : current.kind.tag = added.kind.tag) (blends : Blends view added) (key : Option String)
    (mode : MergeMode) :
    Echoes (Twins view start (new + seen view ⟨key, .compound added⟩))
      (query.mergeBody target current added mode) (other.mergeBody target current added mode) := by
  unfold mergeBody
  rw [tree_of_twins twins]
  refine .after fun assigned first => .after fun tree second => .pure (twins_tree twins ?_)
  have changed : (query.tree.assign target _ >>= fun tree => tree.setKey target _) = .ok tree :=
    Result.bind_ok.mpr ⟨assigned, first, second⟩
  obtain ⟨branch, found, _⟩ := Result.bind_ok.mp first
  obtain ⟨member, rfl⟩ := live_of_find? (find?_of_find found)
  have content := held branch.label (List.mem_map_of_mem member) rfl
  have numbered := numbered_of_twins twins
  refine .of_regrown (regrown_assigned numbered member changed) numbered member ?_
  obtain ⟨⟨⟨before, node⟩, number⟩, slots⟩ := branch
  cases content
  rw [shape_node, shape_node, shown_node, shown_node, add_right_comm]
  exact add_le_add (blends current mode _ _ _ same) le_rfl

/-- Merging a clause with what is below it, where the target holds what it is merged onto. -/
theorem mergeWhole_twins (overlooks : Overlooks view) (twins : Twins view start new query other)
    {target : Nat} {current added : CompoundClause} {shape : Shape QueryNode}
    (addition : shape.label.content = .compound added)
    (held : ∀ entry ∈ entries query.tree.branches, entry.id = target →
      entry.content = .compound current)
    (same : current.kind.tag = added.kind.tag) (blends : Blends view added) (mode : MergeMode) :
    Echoes (Twins view start (new + shown view [shape]))
      (query.mergeBody target current added mode >>= fun query =>
        query.mergeSlots target mode shape.children)
      (other.mergeBody target current added mode >>= fun query =>
        query.mergeSlots target mode shape.children) := by
  have whole : shown view [shape] =
      seen view ⟨shape.label.key, .compound added⟩ + shown view shape.children := by
    rw [← node_eta shape, shown_node, ← addition]
    rfl
  rw [whole, ← add_assoc]
  exact (mergeBody_twins twins held same blends _ mode).bind fun _ _ grown =>
    mergeSlots_twins overlooks target mode shape.children grown

theorem mergeOnto_twins (overlooks : Overlooks view) (twins : Twins view start new query other)
    (onto : Address) {incoming : Option (Shape QueryNode)}
    (blends : ∀ shape added, incoming = some shape → shape.label.content = .compound added →
      Blends view added) (mode : MergeMode) :
    Echoes (Twins view start (new + shown view incoming.toList)) (query.mergeOnto onto incoming mode)
      (other.mergeOnto onto incoming mode) := by
  have finds : other.find onto = query.find onto := by
    rw [twins.same]
    rfl
  unfold mergeOnto
  rw [finds]
  refine .after fun target _ => ?_
  cases incoming with
  | none =>
      rw [Option.toList_none, shown_nil, add_zero]
      exact .pure twins
  | some shape =>
      simp only [tree_of_twins twins]
      refine .after fun existing got => ?_
      obtain ⟨branch, member, rfl, rfl⟩ := live_of_get got
      split
      · rename_i current added content addition
        split
        · exact .error
        · rename_i tags
          have staged : ∀ {middle corrected : Query}, Twins view start new middle corrected →
              entries middle.tree.branches ⊆ entries query.tree.branches →
              Echoes (Twins view start (new + shown view [shape]))
                (middle.mergeBody branch.id current added mode >>= fun query =>
                  query.mergeSlots branch.id mode shape.children)
                (corrected.mergeBody branch.id current added mode >>= fun query =>
                  query.mergeSlots branch.id mode shape.children) := by
            intro middle corrected stripped kept
            refine mergeWhole_twins overlooks stripped addition (fun entry inside number => ?_)
              (not_not.mp tags) (blends shape added rfl addition) mode
            obtain ⟨held, live, rfl⟩ := List.mem_map.mp (kept inside)
            rw [← content, ← eq_of_id (numbered_of_twins twins).distinct live member number]
            rfl
          cases mode with
          | replaceAll =>
              exact (removeAll_twins twins _).bind fun _ _ cleared => staged cleared.1 cleared.2
          | add | replace => exact staged twins (List.Subset.refl _)
      · exact .error

/-! ### Edits -/

def Edit.merges : Edit → Bool
  | .insert _ options => options.onto.isSome
  | _ => false

theorem apply_twins (overlooks : Overlooks view) (twins : Twins view start new query other)
    (edit : Edit) {incoming : Option (Shape QueryNode)} (read : edit.input.read = .ok incoming)
    (blends : edit.merges = true → ∀ shape added, incoming = some shape →
      shape.label.content = .compound added → Blends view added) :
    Echoes (Twins view start (new + shown view incoming.toList)) (edit.apply query)
      (edit.apply other) := by
  cases edit with
  | must input | should input | filter input | mustNot input =>
      exact insertInBool_twins overlooks twins _ read
  | insert input options =>
      have placed : ∀ {address parameter}, Echoes
          (Twins view start (new + shown view incoming.toList))
          (query.positionFor address parameter >>= fun position => query.insertShape position incoming)
          (other.positionFor address parameter >>= fun position =>
            other.insertShape position incoming) := by
        intro address parameter
        rw [positionFor_of_twins twins]
        exact .after fun position _ => insertShape_twins overlooks twins position incoming
      have mode : other.mergeMode = query.mergeMode := by
        rw [twins.same]
        rfl
      have reads : input.read = .ok incoming := read
      simp only [Edit.apply, insert, reads, Result.ok_bind, mode, tree_of_twins twins]
      cases target : options.onto with
      | some onto =>
          cases options.below with
          | some below => exact .error
          | none =>
              have merges : (Edit.insert input options).merges = true := by
                rw [Edit.merges, target]
                rfl
              exact mergeOnto_twins overlooks twins onto (blends merges) _
      | none =>
          cases options.below with
          | some below => exact placed
          | none =>
              simp only
              split
              · exact placed
              · exact insertShape_twins overlooks twins .top incoming

end Steps

def entrance (label : Keyed QueryNode) : Option (Option String) :=
  match label.content with
  | .compound clause =>
      if clause.kind.tag = "nested" then some (QueryNode.stringAt "path" clause.body) else none
  | _ => none

def nestedClause (label : Keyed QueryNode) : Option (Keyed QueryNode) :=
  (entrance label).map fun _ => label

theorem overlooks_entrance : Overlooks entrance := ⟨fun _ _ => rfl, rfl⟩

theorem overlooks_nestedClause : Overlooks nestedClause := ⟨fun _ _ => rfl, rfl⟩

/-- A merged clause enters the scope that its target or the clause merged onto it enters. -/
theorem blends_entrance {added : CompoundClause} (once : added.body.keys.Nodup) :
    Blends entrance added := by
  intro current mode before after key same
  have merged : seen entrance ⟨after, .compound { current with
        body := Members.merge current.body added.body }⟩ ≤
      seen entrance ⟨before, .compound current⟩ + seen entrance ⟨key, .compound added⟩ := by
    simp only [seen, entrance, ← same, QueryNode.stringAt, Members.lookup_merge once]
    cases added.body.lookup "path" with
    | none => exact Multiset.le_add_right _ _
    | some path => exact Multiset.le_add_left _ _
  cases mode with
  | replaceAll =>
      simp only [seen, entrance, blend, same]
      exact Multiset.le_add_left _ _
  | add | replace => exact merged

theorem read_of_apply {edit : Edit} {query final : Query} (applied : edit.apply query = .ok final) :
    ∃ incoming, edit.input.read = .ok incoming := by
  cases edit with
  | insert input options =>
      obtain ⟨incoming, read, _⟩ := Result.bind_ok.mp applied
      exact ⟨incoming, read⟩
  | must input | should input | filter input | mustNot input =>
      obtain ⟨incoming, read, _⟩ := Result.bind_ok.mp applied
      exact ⟨incoming, read⟩

end Query

end ScopedClauses
