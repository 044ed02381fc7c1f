import ScopedClauses.Proofs.Query.Exact
import ScopedClauses.Proofs.Query.Merging
import ScopedClauses.Proofs.Query.Run
import ScopedClauses.Proofs.Query.Written

/-!
Documents and queries, back and forth. A document that is read and written again is itself up
to the order of keys and to lists of one clause, and what any run of insertions and merges has
made of an empty query can be written and read again.
-/

namespace ScopedClauses

namespace Query

open Rose Tree Weaving QueryNode

def Input.distinct : Input → Bool
  | .document json => json.distinct
  | .typed _ body => body.distinct
  | .tree _ => false

theorem nodup_attributes {kind : CompoundKind} {body : Members} (distinct : body.keys.Nodup) :
    (attributes kind body).keys.Nodup :=
  distinct.sublist (List.filter_sublist.map Prod.fst)

theorem plain_ofMembers {members : Members} (distinct : Json.distinctMembers members = true)
    {shape : Shape QueryNode} (read : ofMembers members = .ok shape) : Plain shape := by
  refine ⟨sheer_ofMembers members distinct read, slot?_ofMembers read, fun clause content => ?_⟩
  unfold ofMembers at read
  split at read
  · rename_i tag body
    obtain ⟨kind, _, read⟩ := Result.bind_ok.mp read
    cases kind with
    | leaf kind =>
        simp only [Result.bind_ok, Result.pure_ok] at read
        obtain ⟨_, _, rfl⟩ := read
        cases content
    | compound kind =>
        simp only [Result.bind_ok, Result.pure_ok] at read
        obtain ⟨_, made, slots, _, rfl⟩ := read
        cases content
        cases ofBody_ok made
        have unique := Json.distinct_object.mp (Json.distinctMembers_cons.mp distinct).1
        exact nodup_attributes unique.1
  · cases read
  · cases read

theorem plain_of_read {input : Input} (distinct : input.distinct = true)
    {incoming : Option (Shape QueryNode)} (read : input.read = .ok incoming) :
    ∃ shape, incoming = some shape ∧ Plain shape := by
  cases input with
  | document json =>
      obtain ⟨shape, parsed, rfl⟩ := Result.map_ok.mp read
      refine ⟨shape, rfl, ?_⟩
      cases json with
      | object members =>
          rw [QueryNode.ofJson] at parsed
          exact plain_ofMembers (Json.distinct_object.mp distinct).2 parsed
      | _ => cases parsed
  | typed tag body =>
      obtain ⟨shape, parsed, rfl⟩ := Result.map_ok.mp read
      exact ⟨shape, rfl, plain_ofMembers (Json.distinctMembers_cons.mpr ⟨distinct, rfl⟩) parsed⟩
  | tree given => cases distinct

/-! ### Runs -/

inductive Edit where
  | insert (input : Input) (options : Options)
  | must (input : Input)
  | should (input : Input)
  | filter (input : Input)
  | mustNot (input : Input)

namespace Edit

def input : Edit → Input
  | insert input _ | must input | should input | filter input | mustNot input => input

def apply (query : Query) : Edit → Result Query
  | .insert input options => query.insert input options
  | must input => query.must input
  | should input => query.should input
  | filter input => query.filter input
  | mustNot input => query.mustNot input

end Edit

section Runs

variable {mapping : Option Mapping} {query final : Query}

theorem intact_insert (intact : query.Intact mapping) {input : Input} (distinct : input.distinct = true)
    {options : Options} (inserted : query.insert input options = .ok final) :
    final.Intact mapping := by
  simp only [insert, Result.bind_ok] at inserted
  obtain ⟨incoming, read, inserted⟩ := inserted
  obtain ⟨shape, rfl, plain⟩ := plain_of_read distinct read
  have placed : ∀ {address named}, (query.positionFor address named >>= fun position =>
      query.insertShape position (some shape)) = .ok final → final.Intact mapping := by
    intro address named inserted
    obtain ⟨position, found, inserted⟩ := Result.bind_ok.mp inserted
    exact intact_insertShape intact (stands_positionFor intact.toSound found) plain.sheer plain.bare
      inserted
  cases target : options.onto with
  | some onto =>
      cases below : options.below with
      | some address =>
          rw [target, below] at inserted
          cases inserted
      | none =>
          rw [target, below] at inserted
          exact mergeOnto_intact intact plain inserted
  | none =>
      cases below : options.below with
      | some address =>
          rw [target, below] at inserted
          exact placed inserted
      | none =>
          rw [target, below] at inserted
          simp only at inserted
          split at inserted
          · exact placed inserted
          · have stands : query.Stands .top := trivial
            exact intact_insertShape intact stands plain.sheer plain.bare inserted

theorem intact_insertInBool (intact : query.Intact mapping) {input : Input}
    (distinct : input.distinct = true) {name : String}
    (declares : ∃ place, QueryKind.boolean.slot? name = some place)
    (inserted : query.insertInBool name input = .ok final) : final.Intact mapping := by
  simp only [insertInBool, Result.bind_ok] at inserted
  obtain ⟨incoming, read, ⟨id, rooted⟩, ensured, inserted⟩ := inserted
  obtain ⟨shape, rfl, plain⟩ := plain_of_read distinct read
  obtain ⟨after, rfl, bool, top⟩ := ensureBoolRoot_ok intact.toSound ensured
  obtain ⟨root, clause, rootIs, number, content, kind⟩ := bool.stands
  obtain ⟨place, declares⟩ := declares
  have legible : AllLegible mapping (shapes after.branches) := by
    have whole := intact.legible
    rw [top]
    cases roots : shapes query.tree.branches with
    | nil => exact (allLegible_singleton _ _).mpr ⟨legible_emptyBool [], allLegible_nil⟩
    | cons first rest =>
        rw [roots, allLegible_cons_iff] at whole
        rw [boolTop]
        split
        · exact whole.1
        · exact allLegible_conjunction whole.1
  have only : after.branches = [root] := only_root bool.toSound rootIs
  have standing : (query.withTree after).Intact mapping :=
    { bool.toSound with
      bound := intact.bound
      top := by
        rw [tree_withTree, only]
        simp [shapes_cons_eq, content_shape, content, Holds, QueryNode.slot?]
      legible := legible }
  have stands : (query.withTree after).Stands (.slot id name) :=
    ⟨root, live_root bool.toSound rootIs, number, clause, place, content, by rw [kind, declares]⟩
  exact intact_insertShape standing stands plain.sheer plain.bare inserted

theorem intact_apply (intact : query.Intact mapping) {edit : Edit} (distinct : edit.input.distinct = true)
    (applied : edit.apply query = .ok final) : final.Intact mapping := by
  cases edit with
  | insert input options => exact intact_insert intact distinct applied
  | must input => exact intact_insertInBool intact distinct ⟨_, boolean_must⟩ applied
  | should input =>
      exact intact_insertInBool intact distinct ⟨⟨"should", true⟩, by decide +kernel⟩ applied
  | filter input =>
      exact intact_insertInBool intact distinct ⟨⟨"filter", true⟩, by decide +kernel⟩ applied
  | mustNot input =>
      exact intact_insertInBool intact distinct ⟨⟨"must_not", true⟩, by decide +kernel⟩ applied

theorem intact_run (intact : query.Intact mapping) (edits : List Edit)
    (distinct : ∀ edit ∈ edits, edit.input.distinct = true)
    (ran : edits.foldlM Edit.apply query = .ok final) : final.Intact mapping := by
  induction edits generalizing query with
  | nil =>
      cases Result.pure_ok.mp ran
      exact intact
  | cons edit rest ih =>
      rw [List.forall_mem_cons] at distinct
      rw [List.foldlM_cons] at ran
      obtain ⟨middle, applied, ran⟩ := Result.bind_ok.mp ran
      exact ih (intact_apply intact distinct.1 applied) distinct.2 ran

theorem Intact.reads (intact : query.Intact mapping) (filled : query.isEmpty = false) :
    ∃ shape json, query.tree.shape? = some shape ∧ query.toJson? = some json ∧
      QueryNode.ofJson json = .ok shape := by
  cases rooted : query.tree.root with
  | none => simp [isEmpty, Tree.isEmpty, rooted] at filled
  | some root =>
      have only : shapes query.tree.branches = [root.shape] := by
        rw [only_root intact.toSound rooted, shapes_cons_eq, shapes_nil]
      have formed := intact.formed
      have legible := intact.legible
      have top := intact.top
      rw [only] at formed legible top
      obtain ⟨json, written, read⟩ := parse_documentOf formed legible (top.1 _ (by simp))
      have shape : query.tree.shape? = some root.shape := by rw [Tree.shape?, rooted]; rfl
      refine ⟨root.shape, json, shape, ?_, read⟩
      rw [toJson?, documentOf, shape]
      exact written

end Runs

/-- Reading and writing are inverse to each other. What was read is written as it was, clauses
that stood alone in lists, and inserted without a mapping as it was read. What a run has made of
an empty query is written as a document that is read as the same clauses, slots and keys, in the
same order and shape. -/
theorem reads_and_writes :
    (∀ json tree, json.distinct = true → QueryNode.parse json = .ok tree →
      (∃ written, QueryNode.documentOf tree = some written ∧ written.Alike (listed json)) ∧
        ∃ query, Query.ofJson json none = .ok query ∧ query.tree = tree) ∧
    ∀ mapping autocorrect mode (edits : List Edit) final,
      (∀ edit ∈ edits, edit.input.distinct = true) →
      edits.foldlM Edit.apply
        { mapping := mapping, autocorrect := autocorrect, mergeMode := mode } = .ok final →
      final.isEmpty = false →
      ∃ json tree, final.toJson? = some json ∧ QueryNode.parse json = .ok tree ∧
        tree.shape? = final.tree.shape? := by
  constructor
  · intro json tree distinct parsed
    refine ⟨?_, ofJson_exact distinct parsed⟩
    rw [QueryNode.parse, Result.bind_pure_map] at parsed
    obtain ⟨shape, read, rfl⟩ := Result.map_ok.mp parsed
    obtain ⟨written, wrote, alike⟩ := toJson_ofJson json distinct read
    exact ⟨written, by rw [documentOf, shape?_ofShape]; exact wrote, alike⟩
  · intro mapping autocorrect mode edits final distinct ran filled
    have intact := intact_run (intact_empty mapping autocorrect mode) edits distinct ran
    obtain ⟨shape, json, same, written, read⟩ := intact.reads filled
    refine ⟨json, Tree.ofShape shape, written, ?_, by rw [shape?_ofShape, same]⟩
    rw [QueryNode.parse, read]
    rfl

def namedFilter : Json :=
  .object [("bool", .object [("filter", .object [("exists", .object [("field", .string "roles.gender")])]),
    ("_name", .string "known"), ("must", .array [])])]

def mergedRun : List Edit :=
  [.must (.document (.object [("term", .object [("roles.gender", .string "F")])])),
    .insert (.document namedFilter) { onto := some (.id 0), mode := some .replace }]

theorem reads_and_writes_merged :
    (∃ tree written, QueryNode.parse namedFilter = .ok tree ∧
      QueryNode.documentOf tree = some written ∧ written.Alike (listed namedFilter)) ∧
    ∃ final json tree, mergedRun.foldlM Edit.apply { mapping := some rolesMapping : Query } = .ok final ∧
      final.tree.nodes.length = 6 ∧ final.toJson? = some json ∧ QueryNode.parse json = .ok tree ∧
      tree.shape? = final.tree.shape? := by
  constructor
  · have parses : (QueryNode.parse namedFilter).toOption.any (fun _ => true) = true := by
      decide +kernel
    obtain ⟨tree, parsed, _⟩ := Result.ok_of_any parses
    obtain ⟨⟨written, wrote, alike⟩, _⟩ :=
      reads_and_writes.1 namedFilter tree (by decide +kernel) parsed
    exact ⟨tree, written, parsed, wrote, alike⟩
  · have made : (mergedRun.foldlM Edit.apply { mapping := some rolesMapping : Query }).toOption.any
        (fun final => final.tree.nodes.length = 6 && !final.isEmpty) = true := by decide +kernel
    obtain ⟨final, ran, facts⟩ := Result.ok_of_any made
    simp only [Bool.and_eq_true, decide_eq_true_eq, Bool.not_eq_true'] at facts
    obtain ⟨json, tree, written, parsed, same⟩ := reads_and_writes.2 (some rolesMapping) true .add
      mergedRun final (by decide +kernel) ran facts.2
    exact ⟨final, json, tree, ran, facts.1, written, parsed, same⟩

end Query

end ScopedClauses
