import ScopedClauses.Proofs.Query.InScope

/-!
Runs of operations on a query. Each operation keeps every leaf in the scope of its field, so a
run that starts with an empty query ends with one whose leaves are all in their scopes.
-/

namespace ScopedClauses

namespace Query

open Rose Tree Weaving

/-! ### The `bool` at the root -/

def boolTop : List (Shape QueryNode) → List (Shape QueryNode)
  | [] => [.node ⟨none, QueryNode.emptyBool⟩ []]
  | root :: _ => if Weaving.isBool root then [root] else [conjunction [root]]

structure BoolRoot (query : Query) (id : Nat) : Prop extends query.Sound where
  stands : ∃ root clause, query.tree.root = some root ∧ root.id = id ∧
    root.content = .compound clause ∧ clause.kind = QueryKind.boolean

theorem ensureBoolRoot_empty {query final : Query} (sound : query.Sound) {id : Nat}
    (bare : query.tree.root = none) (ensured : query.ensureBoolRoot = .ok (id, final)) :
    ∃ after, final = query.withTree after ∧ (query.withTree after).BoolRoot id ∧
      shapes after.branches = boolTop (shapes query.tree.branches) := by
  have noRoot : query.tree.rootId? = none := by rw [rootId?, bare]; rfl
  have empty : query.tree.branches = [] := by
    rw [branches_of_root sound.toWhole, bare]
    rfl
  simp only [ensureBoolRoot, noRoot, insertRoot, bare, Result.pure_bind] at ensured
  cases Result.pure_ok.mp ensured
  have known : QueryNode.Known QueryNode.emptyBool := by
    change .compound QueryKind.boolean ∈ QueryKind.all
    decide +kernel
  refine ⟨⟨some (bud none QueryNode.emptyBool query.tree.next), query.tree.detached,
    query.tree.next + 1⟩, rfl, ⟨⟨⟨⟨?_, ?_⟩, sound.settled⟩, ?_⟩, _, _, rfl, rfl, rfl, rfl⟩, ?_⟩
  · simp [branches, sound.settled, bud]
  · simp [branches, sound.settled, bud]
  · simpa [branches, sound.settled, bud, shapes_cons] using formed_bud none known
  · rw [empty]
    simp [branches, sound.settled, bud, shapes_cons, boolTop]

theorem ensureBoolRoot_ok {query final : Query} (sound : query.Sound) {id : Nat}
    (ensured : query.ensureBoolRoot = .ok (id, final)) :
    ∃ after, final = query.withTree after ∧ (query.withTree after).BoolRoot id ∧
      shapes after.branches = boolTop (shapes query.tree.branches) := by
  cases rooted : query.tree.root with
  | none => exact ensureBoolRoot_empty sound rooted ensured
  | some root =>
      have only := only_root sound rooted
      have live := live_root sound rooted
      simp only [ensureBoolRoot, rootId?_root rooted, isBool_live sound.numbered live] at ensured
      cases bool : root.content.isBool with
      | true =>
          rw [bool, if_pos rfl] at ensured
          cases Result.pure_ok.mp ensured
          obtain ⟨clause, content, kind⟩ :=
            QueryNode.kind_of_isBool (formed_of_live sound live).2 bool
          refine ⟨query.tree, rfl, { sound with
            stands := ⟨root, clause, rooted, rfl, content, kind⟩ }, ?_⟩
          rw [only, shapes_cons_eq, shapes_nil, boolTop, isBool_shape, bool, if_pos rfl]
      | false =>
          rw [bool, if_neg (by simp)] at ensured
          cases slotted : root.content.slot? with
          | some own =>
              have isSlot := QueryNode.slot?_eq_some.mp slotted
              obtain ⟨outer, must, after, made, _⟩ := wrapInBool_root sound.toWhole rooted
              rw [made, isSlot] at ensured
              cases ensured
          | none =>
              obtain ⟨outer, must, after, made, whole, rootIs, outerContent, shape⟩ :=
                wrapInBool_clause sound.toWhole rooted slotted
              rw [made] at ensured
              cases ensured
              refine ⟨after, rfl, ⟨⟨whole, ?_⟩, outer, _, rootIs, rfl, outerContent, rfl⟩, ?_⟩
              · rw [tree_withTree, shape]
                refine formed_conjunction ?_ (by simpa [content_shape] using slotted)
                have formed := sound.formed
                rwa [only, shapes_cons_eq, shapes_nil] at formed
              · rw [shape, only, shapes_cons_eq, shapes_nil, boolTop, isBool_shape, bool,
                  if_neg (by simp)]

/-! ### Operations -/

def Input.Registered : Input → Prop
  | .tree (some shape) => AllKnown [shape]
  | _ => True

theorem Input.Registered.known {input : Input} (registered : input.Registered)
    {incoming : Option (Shape QueryNode)} (read : input.read = .ok incoming) :
    ∀ shape, incoming = some shape → AllKnown [shape] := by
  rintro shape rfl
  cases input with
  | document json =>
      obtain ⟨found, parsed, same⟩ := Result.map_ok.mp read
      cases same
      exact QueryNode.allKnown_ofJson parsed
  | typed tag body =>
      obtain ⟨found, parsed, same⟩ := Result.map_ok.mp read
      cases same
      exact QueryNode.allKnown_ofMembers parsed
  | tree given =>
      cases Result.pure_ok.mp read
      exact registered

inductive Operation where
  | query (input : Input)
  | must (input : Input)
  | should (input : Input)
  | filter (input : Input)
  | mustNot (input : Input)
  | insert (input : Input) (below : Option Address) (mode : Option MergeMode)
      (parameter : Option String)

namespace Operation

def input : Operation → Input
  | query input | must input | should input | filter input | mustNot input => input
  | insert input _ _ _ => input

def apply (query : Query) : Operation → Result Query
  | .query input => query.query input
  | must input => query.must input
  | should input => query.should input
  | filter input => query.filter input
  | mustNot input => query.mustNot input
  | insert input below mode parameter =>
      query.insert input { below := below, mode := mode, parameter := parameter }

end Operation

section Operations

variable {mapping : Mapping} {query final : Query}

theorem inScope_insert (inScope : query.InScope mapping) {input : Input}
    (registered : input.Registered) {below : Option Address} {mode : Option MergeMode}
    {parameter : Option String}
    (inserted : query.insert input { below := below, mode := mode, parameter := parameter } =
      .ok final) : final.InScope mapping := by
  simp only [insert, Result.bind_ok] at inserted
  obtain ⟨incoming, read, inserted⟩ := inserted
  have known := registered.known read
  have placed : ∀ {address named}, (query.positionFor address named >>= fun position =>
      query.insertShape position incoming) = .ok final → final.InScope mapping := by
    intro address named inserted
    obtain ⟨position, found, inserted⟩ := Result.bind_ok.mp inserted
    exact inScope_insertShape inScope (stands_positionFor inScope.toSound found) known inserted
  cases below with
  | some address => exact placed inserted
  | none =>
      simp only at inserted
      split at inserted
      · exact placed inserted
      · have stands : query.Stands .top := trivial
        exact inScope_insertShape inScope stands known inserted

theorem inScope_insertInBool (inScope : query.InScope mapping) {input : Input}
    (registered : input.Registered) {name : String}
    (declares : ∃ place, QueryKind.boolean.slot? name = some place)
    (inserted : query.insertInBool name input = .ok final) : final.InScope mapping := by
  simp only [insertInBool, Result.bind_ok] at inserted
  obtain ⟨incoming, read, ⟨id, rooted⟩, ensured, inserted⟩ := inserted
  obtain ⟨after, rfl, bool, shape⟩ := ensureBoolRoot_ok inScope.toSound ensured
  obtain ⟨root, clause, rootIs, number, content, kind⟩ := bool.stands
  obtain ⟨place, declares⟩ := declares
  have fits : Everywhere (Fits mapping) none (shapes after.branches) := by
    have holds := inScope.fits
    rw [shape]
    cases top : shapes query.tree.branches with
    | nil => exact (everywhere_cons _ _ _ _).mpr ⟨fits_emptyBool, trivial, trivial⟩
    | cons first rest =>
        rw [top, everywhere_cons_iff] at holds
        rw [boolTop]
        split
        · exact holds.1
        · exact (everywhere_conjunction _).mpr holds.1
  have standing : (query.withTree after).InScope mapping :=
    { bool.toSound with bound := inScope.bound, fits := fits }
  have stands : (query.withTree after).Stands (.slot id name) :=
    ⟨root, live_root bool.toSound rootIs, number, clause, place, content, by rw [kind, declares]⟩
  exact inScope_insertShape standing stands (registered.known read) inserted

theorem inScope_apply (inScope : query.InScope mapping) {operation : Operation}
    (registered : operation.input.Registered) (applied : operation.apply query = .ok final) :
    final.InScope mapping := by
  cases operation with
  | query input =>
      have inserted : query.insert input { below := none, mode := none, parameter := none } =
        .ok final := applied
      exact inScope_insert inScope registered inserted
  | must input => exact inScope_insertInBool inScope registered ⟨_, boolean_must⟩ applied
  | should input =>
      exact inScope_insertInBool inScope registered ⟨⟨"should", true⟩, by decide +kernel⟩ applied
  | filter input =>
      exact inScope_insertInBool inScope registered ⟨⟨"filter", true⟩, by decide +kernel⟩ applied
  | mustNot input =>
      exact inScope_insertInBool inScope registered ⟨⟨"must_not", true⟩, by decide +kernel⟩ applied
  | insert input below mode parameter => exact inScope_insert inScope registered applied

end Operations

theorem inScope_empty (mapping : Mapping) (autocorrect : Bool) (mode : MergeMode) :
    InScope mapping
      { mapping := some mapping, autocorrect := autocorrect, mergeMode := mode : Query } :=
  ⟨⟨⟨numbered_empty, rfl⟩, formed_nil⟩, rfl, trivial⟩

theorem inScope_run {mapping : Mapping} {query final : Query} (inScope : query.InScope mapping)
    (operations : List Operation)
    (registered : ∀ operation ∈ operations, operation.input.Registered)
    (ran : operations.foldlM Operation.apply query = .ok final) : final.InScope mapping := by
  induction operations generalizing query with
  | nil =>
      cases Result.pure_ok.mp ran
      exact inScope
  | cons operation rest ih =>
      rw [List.forall_mem_cons] at registered
      rw [List.foldlM_cons] at ran
      obtain ⟨middle, applied, ran⟩ := Result.bind_ok.mp ran
      exact ih (inScope_apply inScope registered.1 applied) registered.2 ran

/-- After any run from an empty query, every leaf on a field is in the scope of its field. -/
theorem leaves_inScope (mapping : Mapping) (autocorrect : Bool) (mode : MergeMode)
    (operations : List Operation)
    (registered : ∀ operation ∈ operations, operation.input.Registered) {final : Query}
    (ran : operations.foldlM Operation.apply
      { mapping := some mapping, autocorrect := autocorrect, mergeMode := mode } = .ok final) :
    ∀ node ∈ final.tree.nodes, ∀ clause field, node.content = .leaf clause →
      clause.field = some field →
      mapping.nestedAt field = .ok (final.tree.currentScope node.id) := by
  have inScope := inScope_run (inScope_empty mapping autocorrect mode) operations registered ran
  intro node member clause field content named
  have fits := (everywhere_iff inScope.numbered inScope.settled).mp inScope.fits node member
  exact fits.inScope field (by rw [content]; exact named)

def rolesMapping : Mapping :=
  ⟨Tree.ofShape (.node ⟨none, .root []⟩
    [.node ⟨some "roles", .field ⟨"roles", "roles", .nested, [], []⟩⟩
      [.node ⟨some "roles.gender", .field ⟨"gender", "roles.gender", .keyword, [], []⟩⟩ []]])⟩

def genderRun : List Operation :=
  let clause := Input.document (.object [("term", .object [("roles.gender", .string "F")])])
  [.query clause, .should clause, .insert clause (some (.id 1)) none none]

theorem leaves_inScope_genderRun :
    ∃ final, genderRun.foldlM Operation.apply { mapping := some rolesMapping : Query } =
        .ok final ∧
      final.tree.nodes.length = 12 ∧
      ∀ node ∈ final.tree.nodes, ∀ clause field, node.content = .leaf clause →
        clause.field = some field →
        rolesMapping.nestedAt field = .ok (final.tree.currentScope node.id) := by
  have made : (genderRun.foldlM Operation.apply { mapping := some rolesMapping : Query }).toOption.map
      (·.tree.nodes.length) = some 12 := by decide +kernel
  cases ran : genderRun.foldlM Operation.apply { mapping := some rolesMapping : Query } with
  | error error => simp [ran, Except.toOption] at made
  | ok final =>
      refine ⟨final, rfl, by simpa [ran, Except.toOption] using made, ?_⟩
      exact leaves_inScope rolesMapping true .add genderRun
        (by simp [genderRun, Operation.input, Input.Registered]) ran

end Query

end ScopedClauses
