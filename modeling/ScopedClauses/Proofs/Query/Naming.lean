import ScopedClauses.Proofs.Query.Rescoping
import ScopedClauses.Proofs.Tree.Gaining

/-!
Names as addresses. Every node has the key that it would be read with: a slot its own name, and a
clause the name that its body declares. What is copied, joined, wrapped or merged keeps it so, and
a name leads to the first clause that declares it.
-/

namespace ScopedClauses

namespace QueryNode

open Rose

inductive Declares (name : String) : QueryNode → Prop where
  | compound {clause : CompoundClause} (own : clause.body.lookup "_name" = some (.string name)) :
      Declares name (.compound clause)
  | leaf {clause : LeafClause} (own : clause.body.lookup "_name" = some (.string name)) :
      Declares name (.leaf clause)
  | field {clause : LeafClause} {field : String} {members : Members}
      (unnamed : ∀ other, clause.body.lookup "_name" ≠ some (.string other))
      (on : clause.field = some field) (held : clause.body.lookup field = some (.object members))
      (own : members.lookup "_name" = some (.string name)) : Declares name (.leaf clause)

theorem stringAt_eq_some {key name : String} {members : Members} :
    stringAt key members = some name ↔ members.lookup key = some (.string name) := by
  have text : ∀ json : Json, json.string? = some name ↔ json = .string name := by
    intro json
    cases json <;> simp [Json.string?]
  simp only [stringAt, Option.bind_eq_some_iff, text, exists_eq_right]

theorem stringAt_eq_none {key : String} {members : Members} :
    stringAt key members = none ↔ ∀ name, members.lookup key ≠ some (.string name) := by
  rw [Option.eq_none_iff_forall_ne_some]
  exact forall_congr' fun name => not_congr stringAt_eq_some

theorem name?_leaf (clause : LeafClause) (name : String) :
    name? (.leaf clause) = some name ↔ stringAt "_name" clause.body = some name ∨
      stringAt "_name" clause.body = none ∧ ∃ field members, clause.field = some field ∧
        clause.body.lookup field = some (.object members) ∧ stringAt "_name" members = some name := by
  have inside : ∀ json : Json, (∃ inner, json.get? "_name" = some inner ∧ inner.string? = some name) ↔
      ∃ members, json = .object members ∧ stringAt "_name" members = some name := by
    intro json
    cases json <;> simp [Json.get?, stringAt, Option.bind_eq_some_iff]
  cases own : stringAt "_name" clause.body with
  | some found => simp [name?, own]
  | none =>
      simp only [name?, own, reduceCtorEq, false_or, true_and, bind, Option.bind_eq_some_iff, inside]
      constructor
      · rintro ⟨field, on, json, held, members, rfl, named⟩
        exact ⟨field, members, on, held, named⟩
      · rintro ⟨field, members, on, held, named⟩
        exact ⟨field, on, _, held, members, rfl, named⟩

theorem declares_iff {name : String} {node : QueryNode} :
    Declares name node ↔ node.name? = some name := by
  constructor
  · rintro (own | own | ⟨unnamed, on, held, own⟩)
    · exact stringAt_eq_some.mpr own
    · exact (name?_leaf _ _).mpr (Or.inl (stringAt_eq_some.mpr own))
    · exact (name?_leaf _ _).mpr
        (Or.inr ⟨stringAt_eq_none.mpr unnamed, _, _, on, held, stringAt_eq_some.mpr own⟩)
  · intro named
    cases node with
    | slot place => cases named
    | compound clause => exact .compound (stringAt_eq_some.mp named)
    | leaf clause =>
        rcases (name?_leaf _ _).mp named with own | ⟨unnamed, field, members, on, held, own⟩
        · exact .leaf (stringAt_eq_some.mp own)
        · exact .field (stringAt_eq_none.mp unnamed) on held (stringAt_eq_some.mp own)

theorem properKey_bare {node : QueryNode} (bare : node.slot? = none) : properKey node = node.name? := by
  cases node with
  | slot place => cases bare
  | leaf clause | compound clause => rfl

def stray? : Keyed QueryNode → Option (Keyed QueryNode) :=
  Option.guard fun node => node.key ≠ properKey node.content

theorem stray?_eq_none {label : Keyed QueryNode} :
    stray? label = none ↔ label.key = properKey label.content := by
  simp [stray?]

theorem seen_proper {key : Option String} {node : QueryNode} (proper : key = properKey node) :
    seen stray? ⟨key, node⟩ = 0 :=
  seen_none (stray?_eq_none.mpr proper)

theorem shown_stray {forest : List (Shape QueryNode)} :
    shown stray? forest = 0 ↔
      ∀ shape ∈ preorderAll forest, shape.label.key = properKey shape.label.content := by
  simp only [shown, Multiset.filterMap_coe, Multiset.coe_eq_zero, List.filterMap_eq_nil_iff,
    List.forall_mem_map, stray?_eq_none]

theorem shown_of_legible {mapping : Option Mapping} {forest : List (Shape QueryNode)}
    (legible : AllLegible mapping forest) : shown stray? forest = 0 :=
  shown_stray.mpr fun shape inside => (legible shape inside).key

theorem shown_stray_node {label : Keyed QueryNode} {children : List (Shape QueryNode)} :
    shown stray? [.node label children] = 0 ↔
      label.key = properKey label.content ∧ shown stray? children = 0 := by
  simp only [shown_stray, preorderAll_cons, preorderAll_nil, List.append_nil, List.forall_mem_cons,
    label_node]

theorem shown_stray_cons {shape : Shape QueryNode} {rest : List (Shape QueryNode)} :
    shown stray? (shape :: rest) = 0 ↔ shown stray? [shape] = 0 ∧ shown stray? rest = 0 := by
  simp only [shown_stray, ← List.forall_mem_append, ← preorderAll_append, List.singleton_append]

end QueryNode

namespace Query

open Rose Tree Weaving QueryNode

variable {query middle final : Query}

structure Addressed (query : Query) : Prop where
  numbered : query.tree.Numbered
  proper : shown stray? (shapes query.tree.branches) = 0

theorem addressed_empty (mapping : Option Mapping) (autocorrect : Bool) (mode : MergeMode) :
    Addressed { mapping := mapping, autocorrect := autocorrect, mergeMode := mode : Query } :=
  ⟨numbered_empty, rfl⟩

namespace Addressed

theorem gains (addressed : query.Addressed) {new : Multiset (Keyed QueryNode)}
    (gains : Gains stray? query.tree new final.tree) (none : new = 0) : final.Addressed := by
  refine ⟨gains.numbered, Multiset.le_zero.mp ?_⟩
  simpa only [addressed.proper, none, add_zero] using gains.le

theorem insert (addressed : query.Addressed) {node : QueryNode} {key : Option String}
    {parent id : Nat} {tree : Tree QueryNode} (proper : key = properKey node)
    (inserted : query.tree.insert node parent key = .ok (id, tree)) :
    (query.withTree tree).Addressed :=
  addressed.gains (gains_insert addressed.numbered inserted) (seen_proper proper)

theorem insertRoot (addressed : query.Addressed) {node : QueryNode} {key : Option String} {id : Nat}
    {tree : Tree QueryNode} (proper : key = properKey node)
    (inserted : query.tree.insertRoot node key = .ok (id, tree)) :
    (query.withTree tree).Addressed :=
  addressed.gains (gains_insertRoot addressed.numbered inserted) (seen_proper proper)

theorem keyed (addressed : query.Addressed) {node : Branch QueryNode}
    (member : node ∈ query.tree.live) : node.key = properKey node.content := by
  have keys := shown_stray.mp addressed.proper node.shape (by
    rw [preorderAll_shapes]
    exact List.mem_map_of_mem member)
  rwa [label_shape] at keys

/-! ### Placing -/

theorem ensureSlot (addressed : query.Addressed) {compound slot : Nat} {name : String}
    (ensured : query.ensureSlot compound name = .ok (slot, final)) : final.Addressed := by
  cases found : query.findSlot? compound name with
  | some old =>
      rw [Query.ensureSlot, found] at ensured
      cases Result.pure_ok.mp ensured
      exact addressed
  | none =>
      simp only [Query.ensureSlot, found, Result.bind_ok] at ensured
      obtain ⟨node, _, opened⟩ := ensured
      split at opened
      · split at opened
        · obtain ⟨⟨made, tree⟩, inserted, same⟩ := Result.bind_ok.mp opened
          cases Result.pure_ok.mp same
          exact addressed.insert rfl inserted
        · cases opened
      · cases opened

theorem insertNode (addressed : query.Addressed) {node : QueryNode} {key : Option String}
    {slot id : Nat} (proper : key = properKey node)
    (inserted : query.insertNode node key slot = .ok (id, final)) : final.Addressed := by
  obtain ⟨⟨number, tree⟩, made, same⟩ := Result.bind_ok.mp inserted
  cases Result.pure_ok.mp same
  exact addressed.insert proper made

theorem wrapInBool (addressed : query.Addressed) {occupant outer must : Nat}
    (wrapped : query.wrapInBool occupant = .ok (outer, must, final)) : final.Addressed := by
  obtain ⟨cut, detached, wrapped⟩ := Result.bind_ok.mp wrapped
  have apart : (query.withTree cut).Addressed :=
    addressed.gains (gains_detach addressed.numbered detached) rfl
  have joins : ∀ {bool : Nat} {tree : Tree QueryNode}, (query.withTree tree).Addressed →
      ((query.withTree tree).ensureSlot bool "must" >>= fun made =>
        made.2.tree.attach occupant made.1 >>= fun tree =>
          pure (bool, made.1, made.2.withTree tree)) = .ok (outer, must, final) →
      final.Addressed := by
    intro bool tree placed joined
    obtain ⟨⟨slot, made⟩, ensured, joined⟩ := Result.bind_ok.mp joined
    obtain ⟨after, attached, same⟩ := Result.bind_ok.mp joined
    cases Result.pure_ok.mp same
    have addressedMade := placed.ensureSlot ensured
    exact addressedMade.gains (gains_attach addressedMade.numbered attached) rfl
  simp only at wrapped
  split at wrapped
  · obtain ⟨⟨bool, tree⟩, placed, wrapped⟩ := Result.bind_ok.mp wrapped
    exact joins (apart.insert rfl placed) wrapped
  · obtain ⟨⟨bool, tree⟩, placed, wrapped⟩ := Result.bind_ok.mp wrapped
    exact joins (apart.insertRoot rfl placed) wrapped

theorem joinWith (addressed : query.Addressed) {node : QueryNode} {key : Option String}
    {occupant id : Nat} (proper : key = properKey node)
    (joined : query.joinWith node key occupant = .ok (id, final)) : final.Addressed := by
  obtain ⟨⟨outer, must, wrapped⟩, wrapping, inserted⟩ := Result.bind_ok.mp joined
  exact (addressed.wrapInBool wrapping).insertNode proper inserted

theorem place (addressed : query.Addressed) {position : Position} {node : QueryNode}
    {key : Option String} {id : Nat} (proper : key = properKey node)
    (placed : query.place position node key = .ok (id, final)) : final.Addressed := by
  unfold Query.place at placed
  split at placed
  · split at placed
    · obtain ⟨⟨number, tree⟩, inserted, same⟩ := Result.bind_ok.mp placed
      cases Result.pure_ok.mp same
      exact addressed.insertRoot proper inserted
    · exact addressed.joinWith proper placed
  · obtain ⟨⟨slot, made⟩, ensured, placed⟩ := Result.bind_ok.mp placed
    simp only at placed
    split at placed
    · exact (addressed.ensureSlot ensured).insertNode proper placed
    · exact (addressed.ensureSlot ensured).joinWith proper placed

theorem opened (addressed : query.Addressed) {position inner : Position} {boundary : Boundary}
    (opened : Crossable.opened? query position boundary = .ok (some (inner, final))) :
    final.Addressed := by
  obtain ⟨path, id, _, _, placed⟩ := opened?_ok opened
  exact addressed.place rfl placed

theorem settle (addressed : query.Addressed) {position reached : Position} {node : QueryNode}
    (settled : query.settle position node = .ok (reached, final)) : final.Addressed := by
  unfold Query.settle at settled
  split at settled
  · split at settled
    · obtain ⟨_, _, reconciled⟩ := Result.bind_ok.mp settled
      exact kept_reconcile (fun stays made => opened stays made) addressed reconciled
    · cases Result.pure_ok.mp settled
      exact addressed
  · cases Result.pure_ok.mp settled
    exact addressed

end Addressed

/-! ### Insertions -/

mutual

theorem addressed_insertClause {query final : Query} {position : Position} {id : Nat}
    (addressed : query.Addressed) : ∀ shape, shown stray? [shape] = 0 →
      query.insertClause position shape = .ok (id, final) → final.Addressed
  | .node entry slots, keys, inserted => by
      obtain ⟨spot, crossed, placed, settling, placing, filling⟩ := insertClause_ok inserted
      obtain ⟨proper, below⟩ := shown_stray_node.mp keys
      exact addressed_insertSlots ((addressed.settle settling).place proper placing) slots below
        filling
  termination_by structural shape => shape

theorem addressed_insertSlots {query final : Query} {compound : Nat} (addressed : query.Addressed) :
    ∀ slots, shown stray? slots = 0 → query.insertSlots compound slots = .ok final →
      final.Addressed
  | [], _, inserted => by
      cases Result.pure_ok.mp inserted
      exact addressed
  | .node entry clauses :: rest, keys, inserted => by
      obtain ⟨here, beside⟩ := shown_stray_cons.mp keys
      rcases insertSlots_ok inserted with
        ⟨place, slot, made, filled, _, ensured, filling, others⟩ | ⟨_, others⟩
      · exact addressed_insertSlots (addressed_insertClauses (addressed.ensureSlot ensured) clauses
          (shown_stray_node.mp here).2 filling) rest beside others
      · exact addressed_insertSlots addressed rest beside others
  termination_by structural slots => slots

theorem addressed_insertClauses {query final : Query} {position : Position}
    (addressed : query.Addressed) : ∀ clauses, shown stray? clauses = 0 →
      query.insertClauses position clauses = .ok final → final.Addressed
  | [], _, inserted => by
      cases Result.pure_ok.mp inserted
      exact addressed
  | clause :: rest, keys, inserted => by
      obtain ⟨here, beside⟩ := shown_stray_cons.mp keys
      obtain ⟨id, middle, first, others⟩ := insertClauses_ok inserted
      exact addressed_insertClauses (addressed_insertClause addressed clause here first) rest beside
        others
  termination_by structural clauses => clauses

end

namespace Addressed

theorem insertShape (addressed : query.Addressed) {position : Position}
    {incoming : Option (Shape QueryNode)} (keys : shown stray? incoming.toList = 0)
    (inserted : query.insertShape position incoming = .ok final) : final.Addressed := by
  cases incoming with
  | none =>
      cases Result.pure_ok.mp inserted
      exact addressed
  | some shape =>
      obtain ⟨label, children⟩ := shape
      rw [Query.insertShape] at inserted
      split at inserted
      · exact addressed_insertClauses addressed children (shown_stray_node.mp keys).2 inserted
      · obtain ⟨⟨id, made⟩, placed, rfl⟩ := Result.map_ok.mp inserted
        exact addressed_insertClause addressed _ keys placed

theorem ensureBoolRoot (addressed : query.Addressed) {id : Nat}
    (ensured : query.ensureBoolRoot = .ok (id, final)) : final.Addressed := by
  rcases ensureBoolRoot_cases ensured with ⟨_, placed⟩ | ⟨root, _, rfl | ⟨must, wrapped⟩⟩
  · exact addressed.place rfl placed
  · exact addressed
  · exact addressed.wrapInBool wrapped

/-! ### Merges -/

theorem removeAll (addressed : query.Addressed) {ids : List Nat}
    (removed : query.removeAll ids = .ok final) : final.Addressed := by
  obtain ⟨after, done, made⟩ := Result.bind_ok.mp removed
  cases Result.pure_ok.mp made
  exact addressed.gains (gains_removals addressed.numbered done).1 rfl

/-- A merge gives its target the key that goes with the new body. -/
theorem mergeBody (addressed : query.Addressed) {target : Nat} {current added : CompoundClause}
    {mode : MergeMode} (merged : query.mergeBody target current added mode = .ok final) :
    final.Addressed := by
  obtain ⟨first, assigned, rest⟩ := Result.bind_ok.mp merged
  obtain ⟨after, keyed, made⟩ := Result.bind_ok.mp rest
  cases Result.pure_ok.mp made
  obtain ⟨branch, found, _⟩ := Result.bind_ok.mp assigned
  obtain ⟨member, rfl⟩ := live_of_find? (find?_of_find found)
  have grew := regrown_assigned addressed.numbered member
    (Result.bind_ok.mpr ⟨first, assigned, keyed⟩)
  have proper : seen stray? ⟨QueryNode.name? (.compound (blend mode current added)),
      .compound (blend mode current added)⟩ = 0 := seen_proper rfl
  refine addressed.gains (.of_regrown grew addressed.numbered member ?_) rfl
  rw [← node_eta branch, shape_node, shape_node, shown_node, shown_node, add_zero]
  exact add_le_add (proper.le.trans (Multiset.zero_le _)) le_rfl

theorem clear (addressed : query.Addressed) {target : Nat} {mode : MergeMode} {name : String}
    (cleared : query.clear target mode name = .ok final) : final.Addressed := by
  unfold Query.clear at cleared
  split at cleared
  · exact addressed.removeAll cleared
  · cases Result.pure_ok.mp cleared
    exact addressed

theorem mergeSlots (addressed : query.Addressed) {target : Nat} {mode : MergeMode}
    {slots : List (Shape QueryNode)} (keys : shown stray? slots = 0)
    (merged : query.mergeSlots target mode slots = .ok final) : final.Addressed := by
  induction slots generalizing query with
  | nil =>
      cases Result.pure_ok.mp merged
      exact addressed
  | cons slot rest ih =>
      obtain ⟨here, beside⟩ := shown_stray_cons.mp keys
      obtain ⟨⟨key, node⟩, clauses⟩ := slot
      cases node with
      | leaf clause | compound clause => exact ih addressed beside merged
      | slot place =>
          rw [mergeSlots_cons] at merged
          obtain ⟨emptied, cleared, merged⟩ := Result.bind_ok.mp merged
          obtain ⟨filled, inserted, merged⟩ := Result.bind_ok.mp merged
          exact ih (addressed_insertSlots (addressed.clear cleared) _ here inserted) beside merged

theorem mergeOnto (addressed : query.Addressed) {onto : Address}
    {incoming : Option (Shape QueryNode)} (keys : shown stray? incoming.toList = 0) {mode : MergeMode}
    (merged : query.mergeOnto onto incoming mode = .ok final) : final.Addressed := by
  cases incoming with
  | none =>
      obtain ⟨_, _, kept⟩ := Result.bind_ok.mp merged
      cases Result.pure_ok.mp kept
      exact addressed
  | some shape =>
      obtain ⟨target, _, _, current, added, _, _, _, merged⟩ :=
        (mergeOnto_ok addressed.numbered).mp merged
      obtain ⟨entry, slots⟩ := shape
      simp only [Result.bind_ok] at merged
      obtain ⟨cleared, emptied, grown, body, merged⟩ := merged
      have start : cleared.Addressed := by
        cases mode with
        | replaceAll => exact addressed.removeAll emptied
        | add | replace =>
            cases Result.pure_ok.mp emptied
            exact addressed
      exact (start.mergeBody body).mergeSlots (shown_stray_node.mp keys).2 merged

end Addressed

/-! ### Runs -/

theorem shown_of_read {input : Input} (distinct : input.distinct = true)
    {incoming : Option (Shape QueryNode)} (read : input.read = .ok incoming) :
    shown stray? incoming.toList = 0 := by
  obtain ⟨shape, rfl, plain⟩ := plain_of_read distinct read
  exact shown_of_legible plain.sheer.2

namespace Addressed

theorem insertInput (addressed : query.Addressed) {input : Input} (distinct : input.distinct = true)
    {options : Options} (inserted : query.insert input options = .ok final) : final.Addressed := by
  cases target : options.onto with
  | none =>
      obtain ⟨incoming, position, read, inserted⟩ := insert_position target inserted
      exact addressed.insertShape (shown_of_read distinct read) inserted
  | some onto =>
      simp only [Query.insert, Result.bind_ok, target] at inserted
      obtain ⟨incoming, read, inserted⟩ := inserted
      cases below : options.below with
      | some address =>
          rw [below] at inserted
          cases inserted
      | none =>
          rw [below] at inserted
          exact addressed.mergeOnto (shown_of_read distinct read) inserted

theorem insertInBool (addressed : query.Addressed) {input : Input} (distinct : input.distinct = true)
    {name : String} (inserted : query.insertInBool name input = .ok final) : final.Addressed := by
  simp only [Query.insertInBool, Result.bind_ok] at inserted
  obtain ⟨incoming, read, ⟨id, rooted⟩, ensured, inserted⟩ := inserted
  exact (addressed.ensureBoolRoot ensured).insertShape (shown_of_read distinct read) inserted

theorem step (addressed : query.Addressed) {step : Step}
    (distinct : ∀ edit, step = .edit edit → edit.input.distinct = true)
    (applied : step.apply query = .ok final) : final.Addressed := by
  cases step with
  | configure mapping autocorrect mode =>
      cases Result.pure_ok.mp applied
      exact ⟨addressed.numbered, addressed.proper⟩
  | edit edit =>
      have distinct := distinct edit rfl
      cases edit with
      | insert input options => exact addressed.insertInput distinct applied
      | must input => exact addressed.insertInBool distinct applied
      | should input => exact addressed.insertInBool distinct applied
      | filter input => exact addressed.insertInBool distinct applied
      | mustNot input => exact addressed.insertInBool distinct applied

theorem run (addressed : query.Addressed) (steps : List Step)
    (distinct : ∀ edit, Step.edit edit ∈ steps → edit.input.distinct = true)
    (ran : steps.foldlM Step.apply query = .ok final) : final.Addressed := by
  induction steps generalizing query with
  | nil =>
      cases Result.pure_ok.mp ran
      exact addressed
  | cons step rest ih =>
      rw [List.foldlM_cons] at ran
      obtain ⟨middle, applied, ran⟩ := Result.bind_ok.mp ran
      refine ih ?_ (fun edit later => distinct edit (List.mem_cons_of_mem _ later)) ran
      exact addressed.step (fun edit same => distinct edit (same ▸ List.mem_cons_self)) applied

/-! ### Finding by name -/

theorem live_of_nodes {node : Branch QueryNode} (member : node ∈ query.tree.nodes) :
    node ∈ query.tree.live := by
  rw [live, branches, preorderAll_append]
  exact List.mem_append_left _ member

theorem answers (addressed : query.Addressed) {node : Branch QueryNode}
    (member : node ∈ query.tree.nodes) (name : String) :
    (node.key = some name && !node.content.isSlot) = true ↔ Declares name node.content := by
  rw [declares_iff, addressed.keyed (live_of_nodes member)]
  cases content : node.content with
  | slot place => simp [isSlot, QueryNode.slot?, QueryNode.name?]
  | leaf clause | compound clause =>
      rw [show isSlot _ = false from rfl, Bool.not_false, Bool.and_true]
      exact decide_eq_true_iff

theorem find_ok (addressed : query.Addressed) (name : String) (id : Nat) :
    query.find (.name name) = .ok id ↔ ∃ front node back,
      query.tree.nodes = front ++ node :: back ∧ node.id = id ∧ Declares name node.content ∧
        ∀ other ∈ front, ¬ Declares name other.content := by
  rw [Query.find]
  constructor
  · intro found
    split at found
    · rename_i node first
      obtain ⟨wanted, front, back, parts, others⟩ := List.find?_eq_some_iff_append.mp first
      refine ⟨front, node, back, parts, Result.pure_ok.mp found, ?_, fun other before named => ?_⟩
      · exact (addressed.answers (parts ▸ by simp) name).mp wanted
      · have passed := others other before
        rw [(addressed.answers (parts ▸ List.mem_append_left _ before) name).mpr named] at passed
        cases passed
    · cases found
  · rintro ⟨front, node, back, parts, rfl, named, others⟩
    have first : query.tree.nodes.find? (fun node => node.key = some name && !node.content.isSlot) =
        some node := by
      refine List.find?_eq_some_iff_append.mpr ⟨(addressed.answers (parts ▸ by simp) name).mpr named,
        front, back, parts, fun other before => ?_⟩
      rw [Bool.not_eq_true', ← Bool.not_eq_true]
      exact fun wanted => others other before
        ((addressed.answers (parts ▸ List.mem_append_left _ before) name).mp wanted)
    rw [first]
    rfl

theorem find_error (addressed : query.Addressed) (name : String) :
    query.find (.name name) = .error (.nodeNotFound (.name name)) ↔
      ∀ node ∈ query.tree.nodes, ¬ Declares name node.content := by
  rw [Query.find]
  constructor
  · intro failed node member named
    split at failed
    · cases failed
    · rename_i missing
      exact List.find?_eq_none.mp missing node member ((addressed.answers member name).mpr named)
  · intro absent
    have missing : query.tree.nodes.find?
        (fun node => node.key = some name && !node.content.isSlot) = none :=
      List.find?_eq_none.mpr fun node member wanted =>
        absent node member ((addressed.answers member name).mp wanted)
    rw [missing]
    rfl

end Addressed

/-- After any run from an empty query every slot has its own name as key, and every clause the name
that its body declares. A name leads to the first clause in pre-order that declares it, never to a
slot, and to nothing exactly when no clause does. -/
theorem names_lead_to_clauses (steps : List Step)
    (distinct : ∀ edit, Step.edit edit ∈ steps → edit.input.distinct = true) {final : Query}
    (ran : steps.foldlM Step.apply {} = .ok final) :
    (∀ node ∈ final.tree.nodes,
      (∀ place, node.content = .slot place → node.key = some place.name) ∧
      (node.content.slot? = none → ∀ name, node.key = some name ↔ Declares name node.content)) ∧
    ∀ name,
      (∀ id, final.find (.name name) = .ok id ↔ ∃ front node back,
        final.tree.nodes = front ++ node :: back ∧ node.id = id ∧
          node.content.slot? = none ∧ Declares name node.content ∧
          ∀ other ∈ front, ¬ Declares name other.content) ∧
      (final.find (.name name) = .error (.nodeNotFound (.name name)) ↔
        ∀ node ∈ final.tree.nodes, ¬ Declares name node.content) := by
  have addressed := (addressed_empty none true .add).run steps distinct ran
  refine ⟨fun node member => ?_, fun name => ⟨fun id => ?_, addressed.find_error name⟩⟩
  · have keyed := addressed.keyed (Addressed.live_of_nodes member)
    refine ⟨fun place content => ?_, fun bare name => ?_⟩
    · rw [keyed, content]
      rfl
    · rw [keyed, properKey_bare bare, declares_iff]
  · rw [addressed.find_ok]
    have bare : ∀ {node : QueryNode}, Declares name node → node.slot? = none := by
      rintro _ (_ | _ | _) <;> rfl
    constructor
    · rintro ⟨front, node, back, parts, number, named, others⟩
      exact ⟨front, node, back, parts, number, bare named, named, others⟩
    · rintro ⟨front, node, back, parts, number, _, named, others⟩
      exact ⟨front, node, back, parts, number, named, others⟩

def renamingSteps : List Step :=
  let named := fun tag name => Json.object [(tag, .object [("_name", .string name)])]
  let term := Json.object [("term", .object [("roles.gender",
    .object [("value", .string "F"), ("_name", .string "must")])])]
  [.configure (some rolesMapping) true .add, .edit (.must (.document term)),
    .edit (.insert (.document (named "bool" "first")) { onto := some (.id 0) }),
    .edit (.insert (.document (named "bool" "second")) { onto := some (.name "first") }),
    .edit (.should (.document (named "match_all" "first")))]

theorem names_lead_to_clauses_renaming :
    ∃ final, renamingSteps.foldlM Step.apply {} = .ok final ∧
      ["must", "first", "second", "query"].map (fun name => (final.find (.name name)).toOption) =
        [some 4, some 6, some 0, none] ∧
      ∀ name id, final.find (.name name) = .ok id ↔ ∃ front node back,
        final.tree.nodes = front ++ node :: back ∧ node.id = id ∧
          node.content.slot? = none ∧ Declares name node.content ∧
          ∀ other ∈ front, ¬ Declares name other.content := by
  have made : (renamingSteps.foldlM Step.apply {}).toOption.any (fun final =>
      ["must", "first", "second", "query"].map (fun name => (final.find (.name name)).toOption) =
        [some 4, some 6, some 0, none]) = true := by decide +kernel
  obtain ⟨final, ran, found⟩ := Result.ok_of_any made
  have leads := names_lead_to_clauses renamingSteps (by
    intro edit member
    simp only [renamingSteps, List.mem_cons, reduceCtorEq, Step.edit.injEq, List.not_mem_nil,
      or_false, false_or] at member
    rcases member with rfl | rfl | rfl | rfl <;> decide +kernel) ran
  exact ⟨final, ran, by simpa using found, fun name => (leads.2 name).1⟩

end Query

end ScopedClauses
