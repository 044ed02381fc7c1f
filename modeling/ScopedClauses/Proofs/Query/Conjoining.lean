import ScopedClauses.Proofs.Query.Meaning
import ScopedClauses.Proofs.Query.Structured
import ScopedClauses.Response.Selection

/-!
Clauses inserted at the top of a query without a mapping, or into the `must` or the `filter` of
its root. The result asks for what the query demanded and for the clause. Only a `bool` of mere
alternatives demands less than before.
-/

namespace ScopedClauses

namespace Weaving

open Rose QueryNode

/-! ### Correction without a mapping -/

section Correction

variable (autocorrect : Bool)

theorem routeFor_free (scope : Option String) (node : QueryNode) :
    routeFor none autocorrect scope node = .ok [] := by
  cases node <;> rfl

theorem clausesIn_of_clausesNamed {name : String} {slots : List (Shape QueryNode)}
    (empty : clausesNamed name slots = []) : clausesIn name slots = [] := by
  obtain ⟨others, before, _⟩ := clausesNamed_changeSlot ⟨name, true⟩ slots
  rw [before, List.append_eq_nil_iff] at empty
  exact empty.1

mutual

/-- Without a mapping every clause is corrected, and keeps its meaning. -/
theorem correct_free (scope : Option String) : ∀ shape, Formed [shape] →
    shape.label.content.slot? = none →
    ∃ done, correct none autocorrect scope shape = .ok done ∧
      faithful none autocorrect scope shape = true
  | .node ⟨key, content⟩ slots, formed, bare => by
      rw [formed_cons] at formed
      rw [correct, faithful]
      match content, formed with
      | .leaf clause, formed =>
          have empty : slots = [] := List.map_eq_nil_iff.mp formed.1
          subst empty
          exact ⟨_, rfl, rfl⟩
      | .compound clause, formed =>
          obtain ⟨done, corrected, kept⟩ := correctSlots_free
            (within scope (QueryNode.compound clause)) slots [] ⟨formed.2.1, formed.1⟩
            fun _ _ _ _ => rfl
          refine ⟨.node ⟨key, .compound clause⟩ done, ?_, kept⟩
          simp only [corrected, Result.ok_bind]
          rfl
  termination_by structural shape => shape

theorem correctSlots_free (scope : Option String) {clause : CompoundClause} :
    ∀ slots done, FormedSlots (.compound clause) slots →
      (∀ slot ∈ slots, ∀ place, slot.label.content = .slot place →
        clausesNamed place.name done = []) →
      ∃ final, correctSlots none autocorrect scope (.compound clause) slots done = .ok final ∧
        faithfulSlots none autocorrect scope (.compound clause) slots done = true
  | [], done, _, _ => ⟨done, rfl, rfl⟩
  | .node ⟨key, content⟩ clauses :: rest, done, formed, empty => by
      obtain ⟨formedSlot, ⟨place, content, declares⟩, apart, formedRest⟩ :=
        formedSlots_cons.mp formed
      cases content
      rw [formed_cons] at formedSlot
      rw [List.forall_mem_cons] at empty
      have asked : declared (.compound clause) place.name = .ok place :=
        declared_ok.mpr ⟨clause, rfl, declares⟩
      have started : clausesNamed place.name (changeSlot place (fun old => old) done) = [] := by
        rw [clausesNamed_same, empty.1 place rfl]
      obtain ⟨between, first, kept, others⟩ := correctClauses_free scope clauses
        (changeSlot place (fun old => old) done) formedSlot.2.1 formedSlot.1.1
        (fun single => by simpa using formedSlot.1.2 single) fun _ _ => started
      have next : ∀ slot ∈ rest, ∀ own, slot.label.content = .slot own →
          clausesNamed own.name between = [] := by
        intro slot inside own content
        have other : own.name ≠ place.name := by
          intro same
          refine apart (List.mem_map.mpr ⟨_, List.mem_map_of_mem inside, ?_⟩)
          rw [content]
          exact same
        rw [others own.name other, clausesNamed_same]
        exact empty.2 slot inside own content
      obtain ⟨final, second, keptRest⟩ := correctSlots_free scope rest between formedRest next
      refine ⟨final, ?_, ?_⟩
      · simp only [correctSlots, QueryNode.slot?, asked, Result.ok_bind, first, second]
      · simp only [faithfulSlots, QueryNode.slot?, asked, kept, first, keptRest, Bool.and_true]
  termination_by structural slots => slots

theorem correctClauses_free (scope : Option String) {place : Slot} :
    ∀ clauses done, Formed clauses → (∀ node ∈ contents clauses, node.slot? = none) →
      (place.multiple = false → clauses.length ≤ 1) →
      (place.multiple = false → clauses ≠ [] → clausesNamed place.name done = []) →
      ∃ final, correctClauses none autocorrect scope place clauses done = .ok final ∧
        faithfulClauses none autocorrect scope place clauses done = true ∧
        ∀ name, name ≠ place.name → clausesNamed name final = clausesNamed name done
  | [], done, _, _, _, _ => ⟨done, rfl, rfl, fun _ _ => rfl⟩
  | clause :: rest, done, formed, bare, few, empty => by
      rw [formed_cons_iff] at formed
      simp only [contents, List.map_cons, List.forall_mem_cons] at bare
      obtain ⟨incoming, corrected, kept⟩ := correct_free scope clause formed.1 bare.1
      have refused : refuseSlot clause.label.content = .ok () := refuseSlot_ok.mpr bare.1
      have woven : weaveClause none autocorrect scope place clause done =
          .ok (changeSlot place (weave [] place.multiple incoming) done) := by
        simp only [weaveClause, routeFor_free, Result.ok_bind, refused, arrive, corrected]
        rfl
      have room : roomy place.multiple (clausesIn place.name done) = true := by
        cases many : place.multiple with
        | true => rfl
        | false => rw [clausesIn_of_clausesNamed (empty many (List.cons_ne_nil _ _))]; rfl
      -- a slot for one clause has had its clause
      have last : place.multiple = false → rest = [] := by
        intro single
        have length := few single
        rw [List.length_cons] at length
        exact List.length_eq_zero_iff.mp (by omega)
      obtain ⟨final, again, keptRest, others⟩ := correctClauses_free scope rest
        (changeSlot place (weave [] place.multiple incoming) done) formed.2 bare.2
        (fun single => by simp [last single]) (fun single some => absurd (last single) some)
      refine ⟨final, ?_, ?_, fun name other => ?_⟩
      · rw [correctClauses_cons, woven, Result.ok_bind, again]
      · simp only [faithfulClauses, routeFor_free, arrive, kept, keeps, room, woven, keptRest,
          Bool.and_true]
      · rw [others name other, clausesNamed_changeSlot_other other]
  termination_by structural clauses => clauses

end

theorem weaveClause_free (scope : Option String) (place : Slot) {clause : Shape QueryNode}
    (formed : Formed [clause]) (bare : clause.label.content.slot? = none)
    (done : List (Shape QueryNode)) :
    ∃ incoming, weaveClause none autocorrect scope place clause done =
        .ok (changeSlot place (add place.multiple incoming) done) ∧
      ∀ leaves, value leaves incoming = value leaves clause := by
  obtain ⟨incoming, corrected, kept⟩ := correct_free autocorrect scope clause formed bare
  have refused : refuseSlot clause.label.content = .ok () := refuseSlot_ok.mpr bare
  refine ⟨incoming, ?_, fun leaves =>
    value_correct leaves clause (allKnown_of_formed formed) corrected kept⟩
  simp only [weaveClause, routeFor_free, Result.ok_bind, refused, arrive, corrected]
  rfl

theorem weaveTop_free {clause : Shape QueryNode} (formed : Formed [clause])
    (bare : clause.label.content.slot? = none) {roots : List (Shape QueryNode)}
    (clauses : ∀ node ∈ contents roots, node.slot? = none) :
    ∃ incoming, weaveTop none autocorrect clause roots = .ok (add false incoming roots) ∧
      ∀ leaves, value leaves incoming = value leaves clause := by
  obtain ⟨incoming, corrected, kept⟩ := correct_free autocorrect none clause formed bare
  have refused : refuseJoin roots clause.label.content = .ok () :=
    refuseJoin_bare (fun _ inside => clauses _ (List.mem_map_of_mem inside)) bare
  refine ⟨incoming, ?_, fun leaves =>
    value_correct leaves clause (allKnown_of_formed formed) corrected kept⟩
  simp only [weaveTop, routeFor_free, Result.ok_bind, refused, arrive, corrected]
  rfl

end Correction

/-! ### Values at the top -/

section Values

variable (leaves : Json → Bool)

def unexcluded (clause : Shape QueryNode) : Bool :=
  !(clausesNamed "must_not" clause.children).any (value leaves)

theorem demanded_eq (clause : Shape QueryNode) : demanded leaves clause =
    if alternatives clause then unexcluded leaves clause else value leaves clause := by
  split
  · rename_i optional
    simp only [alternatives, Bool.and_eq_true, List.isEmpty_iff] at optional
    obtain ⟨⟨⟨bool, _⟩, noMust⟩, noFilter⟩ := optional
    rw [demanded, if_pos bool, demands, noMust, noFilter, unexcluded]
    simp
  · rename_i joined
    exact demanded_eq_value leaves (by simpa using joined)

theorem value_appended (incoming : Shape QueryNode) {place : Slot}
    (required : place.name = "must" ∨ place.name = "filter") {clause : Shape QueryNode}
    (bool : isBool clause = true) : value leaves (inSlot place (· ++ [incoming]) clause) =
      (demanded leaves clause && value leaves incoming) := by
  refine value_inRequired leaves required bool ?_
  rw [List.map_append]
  exact Agree.refl _ _

theorem value_addTop (incoming : Shape QueryNode) {roots : List (Shape QueryNode)}
    (few : roots.length ≤ 1) :
    (add false incoming roots).all (value leaves) =
      (roots.all (demanded leaves) && value leaves incoming) := by
  match roots, few with
  | [], _ => simp [add_nil]
  | [root], _ =>
      rw [add_single]
      split
      · rename_i bool
        have required : mustPlace.name = "must" ∨ mustPlace.name = "filter" := Or.inl rfl
        simp [value_appended leaves incoming required bool]
      · rename_i other
        simp [value_conjunction, demanded, other]

theorem demanded_conjunction (clauses : List (Shape QueryNode)) :
    demanded leaves (conjunction clauses) = clauses.all (value leaves) := by
  simp [demanded, conjunction, isBool, QueryNode.isBool, emptyBool, QueryKind.boolean, demands,
    clausesNamed, isNamed, slotShape, slot?, mustPlace, List.all_map]

theorem demanded_boolTop {roots : List (Shape QueryNode)} (few : roots.length ≤ 1) :
    (Query.boolTop roots).all (demanded leaves) = roots.all (demanded leaves) := by
  match roots, few with
  | [], _ =>
      simp [Query.boolTop, demanded, isBool, QueryNode.isBool, emptyBool, QueryKind.boolean, demands,
        clausesNamed]
  | [root], _ =>
      rw [Query.boolTop]
      split
      · rfl
      · rename_i other
        have own : demanded leaves root = value leaves root := by rw [demanded, if_neg other]
        simp [demanded_conjunction, own]

end Values

end Weaving

namespace Query

open Rose Tree Weaving QueryNode

/-- The value of a query where leaves have the values of their documents. An empty query selects
everything. -/
def value (leaves : Json → Bool) (query : Query) : Bool :=
  query.tree.shape?.all (Weaving.value leaves)

/-- What a query demands of a document that a further clause, required beside it, selects. -/
def demanded (leaves : Json → Bool) (query : Query) : Bool :=
  query.tree.shape?.all (Weaving.demanded leaves)

def alternatives (query : Query) : Bool := query.tree.shape?.any Weaving.alternatives

def unexcluded (leaves : Json → Bool) (query : Query) : Bool :=
  query.tree.shape?.all (Weaving.unexcluded leaves)

theorem demanded_eq (leaves : Json → Bool) (query : Query) : query.demanded leaves =
    if query.alternatives then query.unexcluded leaves else query.value leaves := by
  rw [demanded, alternatives, unexcluded, value]
  cases query.tree.shape? with
  | none => simp
  | some root => exact Weaving.demanded_eq leaves root

theorem all_shape? {query : Query} (whole : query.Whole) (test : Shape QueryNode → Bool) :
    query.tree.shape?.all test = (shapes query.tree.branches).all test := by
  rw [branches_of_root whole, shapes_root]
  cases query.tree.shape? <;> simp

section Insertions

variable {query : Query} {clause : Shape QueryNode} (sound : query.Sound)
  (top : Holds (.slot queryPlace) (contents (shapes query.tree.branches)))
  (free : query.mapping = none) (formed : Formed [clause])
  (bare : clause.label.content.slot? = none)

include sound top free formed bare

theorem insertShape_top : ∃ result, query.insertShape .top (some clause) = .ok result ∧
    ∀ leaves, result.value leaves = (query.demanded leaves && Weaving.value leaves clause) := by
  have few : (shapes query.tree.branches).length ≤ 1 := by simpa using top.2 rfl
  have follows := insertClause_top sound clause (allKnown_of_formed formed)
  obtain ⟨incoming, woven, same⟩ := weaveTop_free query.autocorrect formed bare top.1
  rw [free, woven] at follows
  obtain ⟨after, made, soundAfter, shape⟩ := follows
  refine ⟨query.withTree after, ?_, fun leaves => ?_⟩
  · rw [insertShape, QueryNode.isSlot, bare]
    exact made
  · rw [value, demanded, all_shape? soundAfter.toWhole, all_shape? sound.toWhole, tree_withTree,
      shape, value_addTop leaves incoming few, same]

omit formed bare free in
theorem ensureBoolRoot_bare : ∃ id middle, query.ensureBoolRoot = .ok (id, middle) := by
  cases rooted : query.tree.root with
  | none => exact ⟨_, _, by simp only [ensureBoolRoot, rootId?, rooted, insertRoot]; rfl⟩
  | some root =>
      have only := only_root sound rooted
      rw [only, shapes_cons_eq, shapes_nil] at top
      have bare : root.content.slot? = none := by
        rw [← content_shape]
        exact top.1 _ List.mem_cons_self
      simp only [ensureBoolRoot, rootId?_root rooted]
      split
      · exact ⟨_, _, rfl⟩
      · obtain ⟨outer, must, after, made, _⟩ := wrapInBool_clause sound.toWhole rooted bare
        rw [made]
        exact ⟨_, _, rfl⟩

omit sound top free formed bare in
theorem value_grown {leaves : Json → Bool} {root grown : Branch QueryNode}
    {incoming : Shape QueryNode} {place : Slot}
    (required : place.name = "must" ∨ place.name = "filter") (many : place.multiple = true)
    (bool : Weaving.isBool root.shape = true) (label : grown.label = root.label)
    (below : shapes grown.children =
      changeSlot place (add place.multiple incoming) (shapes root.children)) :
    Weaving.value leaves grown.shape =
      (Weaving.demanded leaves root.shape && Weaving.value leaves incoming) := by
  have grownShape : grown.shape = inSlot place (· ++ [incoming]) root.shape := by
    rw [← node_eta grown, shape_node, below, label, inSlot, children_shape, label_shape, many]
    rfl
  rw [grownShape, value_appended leaves incoming required bool]

theorem insertShape_required {place : Slot} (required : place.name = "must" ∨ place.name = "filter")
    (many : place.multiple = true) (declares : QueryKind.boolean.slot? place.name = some place) :
    ∃ id middle result, query.ensureBoolRoot = .ok (id, middle) ∧
      middle.insertShape (.slot id place.name) (some clause) = .ok result ∧
      ∀ leaves, result.value leaves = (query.demanded leaves && Weaving.value leaves clause) := by
  have few : (shapes query.tree.branches).length ≤ 1 := by simpa using top.2 rfl
  obtain ⟨id, middle, ensured⟩ := ensureBoolRoot_bare sound top
  obtain ⟨after, rfl, soundRoot, shape⟩ := ensureBoolRoot_ok sound ensured
  obtain ⟨root, compound, rooted, rfl, content, kind⟩ := soundRoot.stands
  have only := only_root soundRoot.toSound rooted
  have site : (root, none) ∈ sites none (query.withTree after).tree.branches :=
    top_site (only ▸ List.mem_singleton_self root)
  -- the clause is woven into the slots of the root
  have follows := insertClause_follows soundRoot.toSound site content (kind ▸ declares) clause
    (allKnown_of_formed formed)
  have unbound : (query.withTree after).mapping = none := free
  obtain ⟨incoming, woven, same⟩ := weaveClause_free (query.withTree after).autocorrect
    (within none root.content) place formed bare (shapes root.children)
  rw [unbound, woven] at follows
  obtain ⟨grown, final, made, grew, label, below⟩ := follows
  have replaced : updateAt root.id (fun _ => grown) [root] = [grown] := by
    obtain ⟨entry, children⟩ := root
    simp [updateAt_cons]
  have whole := soundRoot.toWhole.regrown grew (mem_of_site site)
  refine ⟨root.id, _, (query.withTree after).withTree final, ensured, ?_, fun leaves => ?_⟩
  · rw [insertShape, QueryNode.isSlot, bare]
    exact made
  · have bool : Weaving.isBool root.shape = true := by
      rw [isBool_shape, content, QueryNode.isBool, kind]
      rfl
    have demand : query.demanded leaves = Weaving.demanded leaves root.shape := by
      rw [demanded, all_shape? sound.toWhole, ← demanded_boolTop leaves few, ← shape]
      have standing : after.branches = [root] := only
      simp [standing, shapes_cons_eq]
    have result : final.branches = [grown] := by rw [grew.branches, only, replaced]
    rw [value, all_shape? whole, withTree_withTree, tree_withTree, result, shapes_cons_eq,
      shapes_nil, List.all_cons, List.all_nil, Bool.and_true, demand, ← same,
      value_grown required many bool label below]

theorem insertInBool_required (place : Slot) (required : place.name = "must" ∨ place.name = "filter")
    (many : place.multiple = true) (declares : QueryKind.boolean.slot? place.name = some place)
    {input : Input} (read : input.read = .ok (some clause)) :
    ∃ result, query.insertInBool place.name input = .ok result ∧
      ∀ leaves, result.value leaves = (query.demanded leaves && Weaving.value leaves clause) := by
  obtain ⟨id, middle, result, ensured, inserted, value⟩ :=
    insertShape_required sound top free formed bare required many declares
  refine ⟨result, ?_, value⟩
  simp only [insertInBool, read, Result.ok_bind, ensured, inserted]

theorem filter_required {input : Input} (read : input.read = .ok (some clause)) :
    ∃ result, query.filter input = .ok result ∧
      ∀ leaves, result.value leaves = (query.demanded leaves && Weaving.value leaves clause) :=
  insertInBool_required sound top free formed bare ⟨"filter", true⟩ (Or.inr rfl) rfl
    (by decide +kernel) read

theorem insertion_required {input : Input} (read : input.read = .ok (some clause)) :
    ∀ insertion ∈ [Query.query, Query.must, Query.filter],
      ∃ result, insertion query input = .ok result ∧
        ∀ leaves, result.value leaves = (query.demanded leaves && Weaving.value leaves clause) := by
  intro insertion among
  simp only [List.mem_cons, List.not_mem_nil, or_false] at among
  rcases among with rfl | rfl | rfl
  · obtain ⟨result, inserted, value⟩ := insertShape_top sound top free formed bare
    refine ⟨result, ?_, value⟩
    simp only [Query.query, Query.insert, read, Result.ok_bind, inserted]
  · exact insertInBool_required sound top free formed bare mustPlace (Or.inl rfl) rfl boolean_must
      read
  · exact filter_required sound top free formed bare read

end Insertions

theorem clause_of_ofJson {json : Json} {mapping : Option Mapping} {query : Query}
    (made : Query.ofJson json mapping = .ok query) :
    ∃ clause, query.tree.shape? = some clause ∧ Formed [clause] ∧
      clause.label.content.slot? = none := by
  obtain ⟨incoming, read, _⟩ := Result.bind_ok.mp made
  obtain ⟨clause, parsed, rfl⟩ := Result.map_ok.mp read
  have known := allKnown_ofJson parsed
  have follows : FollowsTop _ (weaveTop mapping true clause []) _ :=
    insertClause_top (sound_empty mapping) clause known
  rw [← ofJson_of_read parsed, made] at follows
  obtain ⟨after, rfl, sound, woven⟩ := follows.ok
  simp only [weaveTop, Result.bind_ok, Result.pure_ok, weave_nil] at woven
  obtain ⟨route, _, _, _, incoming, corrected, shape⟩ := woven
  obtain ⟨formed, label⟩ := formed_correct clause known corrected
  have whole := formed_chain route formed (by rw [label]; exact slot?_ofJson parsed)
  exact ⟨_, shape?_of_branches sound.toWhole shape.symm, whole⟩

/-- Whatever run has made a query without a mapping, a clause that is inserted at its top, or into
the `must` or the `filter` of its root, is conjoined with it, and so is the selection of a bucket
with the query that the request was made with. Only where the root is a `bool` with alternatives,
and with nothing in its `must` and `filter`, does an inserted clause make the alternatives
optional. -/
theorem insertion_conjoins (steps : List Step)
    (admitted : ∀ edit, Step.edit edit ∈ steps → edit.input.Accepted ∧ edit.input.Registered)
    {query : Query} (ran : steps.foldlM Step.apply {} = .ok query) (free : query.mapping = none) :
    (∀ input clause, input.distinct = true → input.read = .ok (some clause) →
      ∀ insertion ∈ [Query.query, Query.must, Query.filter],
        ∃ result, insertion query input = .ok result ∧ ∀ leaves,
          result.value leaves =
            ((if query.alternatives then query.unexcluded leaves else query.value leaves) &&
              Weaving.value leaves clause)) ∧
    ∀ response : Response, ∀ id selection, response.base = some query →
      query.alternatives = false → response.selection id = .ok selection →
        ∃ result, response.bucketFilter id = .ok result ∧ ∀ leaves,
          result.value leaves = (query.value leaves && selection.value leaves) := by
  obtain ⟨sound, top⟩ := sound_run steps admitted ran
  refine ⟨fun input clause distinct read => ?_, fun response id selection base joined selected => ?_⟩
  · obtain ⟨shape, same, plain⟩ := plain_of_read distinct read
    cases same
    have required := insertion_required sound top free plain.sheer.1 plain.bare read
    simpa only [demanded_eq] using required
  · have made := selected
    simp only [Response.selection, Result.bind_ok] at made
    obtain ⟨fragments, _, made⟩ := made
    obtain ⟨clause, shape, formed, bare⟩ := clause_of_ofJson made
    have selects : ∀ leaves, selection.value leaves = Weaving.value leaves clause := by
      intro leaves
      rw [value, shape]
      rfl
    simp only [Response.bucketFilter, selected, base, Result.ok_bind]
    split
    · rename_i empty
      refine ⟨selection, rfl, fun leaves => ?_⟩
      have nothing : query.tree.shape? = none := by
        rw [Tree.shape?, Option.isNone_iff_eq_none.mp empty]
        rfl
      rw [value, value, nothing]
      simp
    · have held : (Input.tree selection.tree.shape?).read = .ok (some clause) := by
        rw [shape]
        rfl
      obtain ⟨result, filtered, value⟩ := filter_required sound top free formed bare held
      refine ⟨result, filtered, fun leaves => ?_⟩
      rw [value, demanded_eq, joined, if_neg Bool.false_ne_true, selects]

def termOf (field : String) : Json :=
  .object [("term", .object [(field, .string "x")])]

def boolOf (slots : List (String × String)) : List Step :=
  let body := slots.map fun (name, field) => (name, Json.array [termOf field])
  [.edit (.insert (.document (.object [("bool", .object body)])) {})]

theorem admitted_boolOf (slots : List (String × String)) :
    ∀ edit, Step.edit edit ∈ boolOf slots → edit.input.Accepted ∧ edit.input.Registered := by
  intro edit member
  simp only [boolOf, List.mem_singleton, Step.edit.injEq] at member
  subst member
  exact ⟨trivial, trivial⟩

def taggedBucket (query : Query) : Result Response := do
  let request := Json.object [("tags", .object [("terms", .object [("field", .string "tag")])])]
  let aggs ← Aggregations.ofJson request none
  let response ← Response.ofJson aggs
    (.object [("tags", .object [("buckets", .array [.object [("key", .string "x")]])])])
  pure { response with base := some query }

theorem insertion_conjoins_must :
    ∃ query clause response selection,
      (boolOf [("must", "a"), ("should", "b")]).foldlM Step.apply {} = .ok query ∧
      query.mapping = none ∧ query.alternatives = false ∧
      QueryNode.ofJson (termOf "c") = .ok clause ∧
      taggedBucket query = .ok response ∧ response.selection 1 = .ok selection ∧
      (∀ insertion ∈ [Query.query, Query.must, Query.filter],
        ∃ result, insertion query (.document (termOf "c")) = .ok result ∧ ∀ leaves,
          result.value leaves = (query.value leaves && Weaving.value leaves clause)) ∧
      ∃ result, response.bucketFilter 1 = .ok result ∧ ∀ leaves,
        result.value leaves = (query.value leaves && selection.value leaves) := by
  obtain ⟨query, ran, checked⟩ := Result.ok_of_any
    (show ((boolOf [("must", "a"), ("should", "b")]).foldlM Step.apply {}).toOption.any (fun query =>
      query.mapping.isNone && !query.alternatives && (taggedBucket query).toOption.any fun response =>
        (response.selection 1).toOption.isSome) = true by decide +kernel)
  simp only [Bool.and_eq_true, Bool.not_eq_true', Option.isNone_iff_eq_none] at checked
  obtain ⟨⟨free, joined⟩, checked⟩ := checked
  obtain ⟨response, made, checked⟩ := Result.ok_of_any checked
  cases selected : response.selection 1 with
  | error error =>
      rw [selected] at checked
      cases checked
  | ok selection =>
      obtain ⟨clause, read, _⟩ := Result.ok_of_any
        (show (QueryNode.ofJson (termOf "c")).toOption.any (fun _ => true) = true by decide +kernel)
      obtain ⟨inserts, filters⟩ :=
        insertion_conjoins (boolOf [("must", "a"), ("should", "b")]) (admitted_boolOf _) ran free
      simp only [joined, Bool.false_eq_true, if_false] at inserts
      refine ⟨query, clause, response, selection, ran, free, joined, read, made, selected,
        inserts (.document (termOf "c")) clause (by decide +kernel) ?_, filters response 1 selection ?_
          joined selected⟩
      · rw [Input.read, read]
        rfl
      · simp only [taggedBucket, Result.bind_ok, Result.pure_ok] at made
        obtain ⟨_, _, _, _, rfl⟩ := made
        rfl

def onlySecond : Json → Bool
  | .object [("term", .object [("b", _)])] => true
  | _ => false

/-- An alternative that does not hold is not asked for any more once a clause stands beside it. -/
theorem insertion_outweighs_alternatives :
    ∃ query clause, (boolOf [("should", "a")]).foldlM Step.apply {} = .ok query ∧
      query.mapping = none ∧ QueryNode.ofJson (termOf "b") = .ok clause ∧
      query.value onlySecond = false ∧ Weaving.value onlySecond clause = true ∧
      ∀ insertion ∈ [Query.query, Query.must, Query.filter],
        ∃ result, insertion query (.document (termOf "b")) = .ok result ∧
          result.value onlySecond = true := by
  obtain ⟨query, ran, checked⟩ := Result.ok_of_any
    (show ((boolOf [("should", "a")]).foldlM Step.apply {}).toOption.any (fun query =>
      query.mapping.isNone && !query.value onlySecond &&
        [Query.query, Query.must, Query.filter].all fun insertion =>
          (insertion query (.document (termOf "b"))).toOption.any (·.value onlySecond)) = true by
            decide +kernel)
  obtain ⟨clause, read, holds⟩ := Result.ok_of_any
    (show (QueryNode.ofJson (termOf "b")).toOption.any (Weaving.value onlySecond) = true by
      decide +kernel)
  simp only [Bool.and_eq_true, Bool.not_eq_true', Option.isNone_iff_eq_none, List.all_eq_true]
    at checked
  obtain ⟨⟨free, failed⟩, inserted⟩ := checked
  exact ⟨query, clause, ran, free, read, failed, holds,
    fun insertion among => Result.ok_of_any (inserted insertion among)⟩

end Query

end ScopedClauses
