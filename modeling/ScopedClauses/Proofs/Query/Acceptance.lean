import ScopedClauses.Proofs.Query.Structured

/-!
Which documents a mapping accepts. A document is taken apart leaf by leaf: each has to be on a
field of a type that its kind is for, and inside no nested clause but those around its field.
Nothing else is ever refused, and the error is that of the first leaf that fails.
-/

namespace ScopedClauses

namespace Rose

variable {N : Type} [Scoped N]

mutual

def situatedIn (outer : Option String) : Shape N → List (N × Option String)
  | .node label children =>
      (label.content, within outer label.content) :: situated (within outer label.content) children

def situated (outer : Option String) : List (Shape N) → List (N × Option String)
  | [] => []
  | shape :: rest => situatedIn outer shape ++ situated outer rest

end

theorem situated_cons (outer : Option String) (label : Keyed N) (children rest : List (Shape N)) :
    situated outer (.node label children :: rest) =
      (label.content, within outer label.content) ::
        (situated (within outer label.content) children ++ situated outer rest) := rfl

theorem situated_shapes (outer : Option String) (forest : List (Branch N)) :
    situated outer (shapes forest) =
      (sites outer forest).map fun site => (site.1.content, within site.2 site.1.content) := by
  induction forest using forestInduction generalizing outer with
  | nil => rfl
  | cons label children rest ihBelow ihBeside =>
      rw [shapes_cons, situated_cons, ihBelow, ihBeside, sites_cons, List.map_cons, List.map_append]
      rfl

end Rose

namespace Tree

open Rose

theorem situated_branches {N : Type} [Scoped N] {tree : Tree N} (numbered : tree.Numbered)
    (settled : tree.detached = []) :
    situated none (shapes tree.branches) =
      tree.nodes.map fun node => (node.content, tree.currentScope node.id) := by
  rw [situated_shapes, nodes_eq_live settled, live, ← map_fst_sites none tree.branches, List.map_map]
  refine List.map_congr_left fun site member => ?_
  simp only [Function.comp_apply, currentScope_of_site numbered member]

end Tree

/-! ### Leaves -/

/-- Whether a mapping takes a node in a scope. A leaf has to be on a field of a type that its kind
is for, and the scope that it stands in has to be one around the field. -/
def Admits (mapping : Mapping) (node : QueryNode) (scope : Option String) : Prop :=
  ∀ clause field, node = .leaf clause → clause.field = some field →
    ∃ type scopes, mapping.typeOf field = .ok type ∧ clause.kind.rule.accepts type = true ∧
      mapping.nestedScopes field = .ok scopes ∧ ∀ path, scope = some path → path ∈ scopes

inductive Refuses (mapping : Mapping) : QueryNode → Option String → Error → Prop where
  | unknown {clause : LeafClause} {field : String} {scope : Option String}
      (on : clause.field = some field) (missing : ∀ type, mapping.typeOf field ≠ .ok type) :
      Refuses mapping (.leaf clause) scope (.unknownField field)
  | type {clause : LeafClause} {field : String} {scope : Option String} {type : FieldType}
      (on : clause.field = some field) (found : mapping.typeOf field = .ok type)
      (rejected : clause.kind.rule.accepts type = false) :
      Refuses mapping (.leaf clause) scope (.invalidFieldType clause.kind.tag field type.name)
  | nesting {clause : LeafClause} {field path : String} {type : FieldType} {scopes : List String}
      (on : clause.field = some field) (found : mapping.typeOf field = .ok type)
      (accepted : clause.kind.rule.accepts type = true)
      (listed : mapping.nestedScopes field = .ok scopes) (outside : path ∉ scopes) :
      Refuses mapping (.leaf clause) (some path) (.invalidNesting field (some path) scopes.head?)

namespace Weaving

open Rose QueryNode

section Routes

variable {mapping : Mapping} {field : String} {scope : Option String} {scopes : List String}

/-- The nested scopes of a field can all be entered from outside and from one another. -/
theorem routeTo_ok (listed : mapping.nestedScopes field = .ok scopes)
    (around : ∀ path, scope = some path → path ∈ scopes) :
    ∃ route, routeTo mapping true scope field = .ok route := by
  simp only [routeTo, listed, Result.ok_bind, Crossing.plan]
  split_ifs with here
  · exact ⟨[], rfl⟩
  · cases scope with
    | none => exact ⟨_, rfl⟩
    | some path =>
        simp only [List.contains_iff_mem.mpr (around path rfl), if_true]
        exact ⟨_, rfl⟩

/-- No clause leaves a nested scope. -/
theorem routeTo_error {path : String} (listed : mapping.nestedScopes field = .ok scopes)
    (outside : path ∉ scopes) :
    routeTo mapping true (some path) field =
      .error (.invalidNesting field (some path) scopes.head?) := by
  have apart : some path ≠ scopes.head? := fun same => outside (List.mem_of_head? same.symm)
  have absent : ¬ scopes.contains path = true := by simpa using outside
  simp only [routeTo, listed, Result.ok_bind, Crossing.plan, if_neg apart, if_neg absent]
  split <;> rename_i planned <;> split at planned <;> cases planned <;> rfl

end Routes

def allow (mapping : Mapping) (site : QueryNode × Option String) : Result Unit :=
  (routeFor (some mapping) true site.2 site.1).verdict

section Admit

variable {mapping : Mapping} {node : QueryNode} {scope : Option String}

theorem allow_within : allow mapping (node, within scope node) =
    (routeFor (some mapping) true scope node).verdict := by
  cases node <;> rfl

theorem typeOf_ok {field : String} {type : FieldType} (found : mapping.typeOf field = .ok type) :
    ∃ scopes, mapping.nestedScopes field = .ok scopes := by
  obtain ⟨⟨id, _⟩, resolved, _⟩ := Result.map_ok.mp found
  exact ⟨_, by rw [Mapping.nestedScopes, resolved]; rfl⟩

theorem typeOf_error {field : String} {error : Error} (failed : mapping.typeOf field = .error error) :
    error = .unknownField field := by
  unfold Mapping.typeOf Mapping.resolve at failed
  split at failed
  · cases failed
  · split at failed
    · cases failed
    · exact (Except.error.inj failed).symm

theorem allow_ok (admits : Admits mapping node scope) : allow mapping (node, scope) = .ok () := by
  cases node with
  | slot place | compound clause => rfl
  | leaf clause =>
      cases on : clause.field with
      | none =>
          simp only [allow, routeFor, on]
          rfl
      | some field =>
          obtain ⟨type, scopes, found, accepted, listed, around⟩ := admits clause field rfl on
          obtain ⟨route, routed⟩ := routeTo_ok listed around
          simp only [allow, routeFor, on, Mapping.checkField, found, Result.ok_bind, accepted, if_true,
            Result.pure_bind, routed, Result.verdict_ok]

theorem allow_refuses {error : Error} (refuses : Refuses mapping node scope error) :
    allow mapping (node, scope) = .error error := by
  cases refuses with
  | unknown on missing =>
      cases failed : mapping.typeOf _ with
      | ok type => exact absurd failed (missing type)
      | error error =>
          simp only [allow, routeFor, on, Mapping.checkField, failed, Result.error_bind,
            Result.verdict_error, typeOf_error failed]
  | type on found rejected =>
      simp only [allow, routeFor, on, Mapping.checkField, found, Result.ok_bind, rejected,
        Bool.false_eq_true, if_false, Result.throw_bind, Result.verdict_error]
  | nesting on found accepted listed outside =>
      simp only [allow, routeFor, on, Mapping.checkField, found, Result.ok_bind, accepted, if_true,
        Result.pure_bind, routeTo_error listed outside, Result.verdict_error]

theorem admits_or_refuses (mapping : Mapping) (node : QueryNode) (scope : Option String) :
    Admits mapping node scope ∨ ∃ error, Refuses mapping node scope error := by
  cases node with
  | slot place | compound clause => exact Or.inl fun _ _ leaf => by cases leaf
  | leaf clause =>
      cases on : clause.field with
      | none => exact Or.inl fun other field same named => by cases same; rw [on] at named; cases named
      | some field =>
          cases found : mapping.typeOf field with
          | error error => exact Or.inr ⟨_, .unknown on fun type => by rw [found]; simp⟩
          | ok type =>
              obtain ⟨scopes, listed⟩ := typeOf_ok found
              cases accepted : clause.kind.rule.accepts type with
              | false => exact Or.inr ⟨_, .type on found accepted⟩
              | true =>
                  by_cases around : ∀ path, scope = some path → path ∈ scopes
                  · refine Or.inl fun other own same named => ?_
                    cases same
                    cases on.symm.trans named
                    exact ⟨type, scopes, found, accepted, listed, around⟩
                  · push Not at around
                    obtain ⟨path, rfl, outside⟩ := around
                    exact Or.inr ⟨_, .nesting on found accepted listed outside⟩

theorem allow_iff : allow mapping (node, scope) = .ok () ↔ Admits mapping node scope := by
  refine ⟨fun passed => ?_, allow_ok⟩
  rcases admits_or_refuses mapping node scope with admits | ⟨error, refuses⟩
  · exact admits
  · rw [allow_refuses refuses] at passed
    cases passed

theorem allow_error_iff {error : Error} :
    allow mapping (node, scope) = .error error ↔ Refuses mapping node scope error := by
  refine ⟨fun failed => ?_, allow_refuses⟩
  rcases admits_or_refuses mapping node scope with admits | ⟨other, refuses⟩
  · rw [allow_ok admits] at failed
    cases failed
  · rw [allow_refuses refuses] at failed
    cases failed
    exact refuses

end Admit

/-! ### Documents -/

theorem situated_arrive {mapping : Mapping} {scope : Option String} {route : List String}
    {entry : Keyed QueryNode} {children : List (Shape QueryNode)}
    (takes : Takes entry.content (contents children))
    (routed : routeFor (some mapping) true scope entry.content = .ok route) :
    situated (within (arrive scope route) entry.content) children =
      situated (within scope entry.content) children := by
  cases content : entry.content with
  | slot place | compound clause =>
      rw [content] at routed
      cases Result.pure_ok.mp routed
      rfl
  | leaf clause =>
      rw [content] at takes
      cases children with
      | nil => rfl
      | cons child rest =>
          obtain ⟨_, taken⟩ := takes child.label.content (by simp)
          cases taken

theorem declared_of_taken {holder content : QueryNode} {siblings : Nat} (bare : holder.slot? = none)
    (taken : NodeRules.checkChild holder content siblings = .ok ()) :
    ∃ place, content = .slot place ∧ ∃ own, declared holder place.name = .ok own := by
  cases holder with
  | leaf clause => cases taken
  | slot place => cases bare
  | compound clause =>
      cases content with
      | leaf _ | compound _ => cases taken
      | slot place =>
          simp only [NodeRules.checkChild, checkChild] at taken
          split at taken
          · rename_i asked
            obtain ⟨own, declares⟩ := Option.isSome_iff_exists.mp asked
            exact ⟨place, rfl, own, by rw [declared, declares]; rfl⟩
          · cases taken

mutual

theorem verdict_correct {mapping : Mapping} (scope : Option String) :
    ∀ shape, Ruled Takes [shape] → shape.label.content.slot? = none →
      (correct (some mapping) true scope shape).verdict =
        forM (situated (within scope shape.label.content) shape.children) (allow mapping)
  | .node entry slots, ruled, bare => by
      obtain ⟨takes, below⟩ := (ruled_singleton _ _).mp ruled
      simp only [correct, Result.bind_pure_map, Result.verdict_map, label_node, children_node]
      exact verdict_correctSlots _ [] slots takes bare below
  termination_by structural shape => shape

theorem verdict_correctSlots {mapping : Mapping} (scope : Option String) {holder : QueryNode}
    (done : List (Shape QueryNode)) :
    ∀ slots, Takes holder (contents slots) → holder.slot? = none → Ruled Takes slots →
      (correctSlots (some mapping) true scope holder slots done).verdict =
        forM (situated scope slots) (allow mapping)
  | [], _, _, _ => rfl
  | .node ⟨key, content⟩ clauses :: rest, takes, bare, ruled => by
      obtain ⟨here, below, beside⟩ := (ruled_cons _ _ _).mp ruled
      obtain ⟨siblings, taken⟩ := takes content (by simp)
      obtain ⟨place, rfl, own, asked⟩ := declared_of_taken bare taken
      simp only [correctSlots, QueryNode.slot?, asked, Result.ok_bind]
      rw [situated_cons, List.forM_cons, List.forM_append]
      rw [Result.verdict_bind fun done _ => verdict_correctSlots scope done rest
        (fun child inside => takes child (List.mem_cons_of_mem _ inside)) bare beside]
      exact congrArg (· >>= _) (verdict_correctClauses scope own _ clauses (bare_of_takes here) below)
  termination_by structural slots => slots

theorem verdict_correctClauses {mapping : Mapping} (scope : Option String) (place : Slot)
    (done : List (Shape QueryNode)) :
    ∀ clauses, (∀ clause ∈ contents clauses, clause.slot? = none) → Ruled Takes clauses →
      (correctClauses (some mapping) true scope place clauses done).verdict =
        forM (situated scope clauses) (allow mapping)
  | [], _, _ => rfl
  | .node entry slots :: rest, bare, ruled => by
      obtain ⟨bareHere, bareBeside⟩ := List.forall_mem_cons.mp bare
      obtain ⟨takes, below, beside⟩ := (ruled_cons _ _ _).mp ruled
      have allowed : refuseSlot entry.content = .ok () := refuseSlot_ok.mpr bareHere
      rw [situated_cons, List.forM_cons, List.forM_append, allow_within]
      refine Result.verdict_bind fun route routed => ?_
      simp only [label_node, allowed, Result.ok_bind]
      rw [Result.verdict_bind fun incoming _ =>
        verdict_correctClauses scope place _ rest bareBeside beside]
      rw [← situated_arrive takes routed]
      exact congrArg (· >>= _) (verdict_correct (arrive scope route) (.node entry slots)
        ((ruled_singleton _ _).mpr ⟨takes, below⟩) bareHere)
  termination_by structural clauses => clauses

end

end Weaving

namespace Query

open Rose Tree Weaving QueryNode

/-- Reading a document with a mapping is admitting its nodes one by one. -/
theorem verdict_ofJson (mapping : Mapping) {json : Json} {shape : Shape QueryNode}
    (read : QueryNode.ofJson json = .ok shape) :
    (Query.ofJson json (some mapping)).verdict = forM (situated none [shape]) (allow mapping) := by
  obtain ⟨entry, slots⟩ := shape
  have ruled := ruled_ofJson read_takes json read
  have bare : entry.content.slot? = none := slot?_ofJson read
  have woven : (weaveTop (some mapping) true (.node entry slots) []).verdict =
      forM (situated none [.node entry slots]) (allow mapping) := by
    rw [situated_cons, List.forM_cons, allow_within]
    refine Result.verdict_bind fun route routed => ?_
    rw [refuseJoin, Result.pure_bind, Result.bind_pure_map, Result.verdict_map,
      verdict_correct (arrive none route) _ ruled bare, children_node, label_node,
      situated_arrive ((ruled_singleton _ _).mp ruled).1 routed, situated, List.append_nil]
  have follows : FollowsTop _ (weaveTop (some mapping) true (.node entry slots) []) _ :=
    insertClause_top (sound_empty (some mapping)) _ (allKnown_ofJson read)
  rw [← ofJson_of_read read] at follows
  rw [← woven]
  cases wove : weaveTop (some mapping) true (.node entry slots) [] with
  | error error =>
      rw [wove] at follows
      exact congrArg Result.verdict follows
  | ok roots =>
      rw [wove] at follows
      obtain ⟨after, made, _⟩ := follows
      rw [made]
      rfl

/-- A document that can be read is accepted with a mapping exactly when every leaf on a field is
admitted where it stands. It is refused with the error of the first leaf that is not: its field is
unknown, has another type, or lies outside the nested clause nearest around the leaf. -/
theorem ofJson_admits (mapping : Mapping) {json : Json} {tree : Tree QueryNode}
    (parsed : QueryNode.parse json = .ok tree) :
    ((∃ query, Query.ofJson json (some mapping) = .ok query) ↔
      ∀ node ∈ tree.nodes, Admits mapping node.content (tree.currentScope node.id)) ∧
    ∀ error, Query.ofJson json (some mapping) = .error error ↔
      ∃ front node back, tree.nodes = front ++ node :: back ∧
        (∀ other ∈ front, Admits mapping other.content (tree.currentScope other.id)) ∧
        Refuses mapping node.content (tree.currentScope node.id) error := by
  obtain ⟨shape, read, same⟩ := Result.bind_ok.mp parsed
  cases Result.pure_ok.mp same
  have verdict := verdict_ofJson mapping read
  have parts : shapes (ofShape shape).branches = [shape] := by
    simp [branches, ofShape, shapes_cons_eq, shape_number]
  rw [← parts, situated_branches (numbered_ofShape shape) rfl] at verdict
  refine ⟨?_, fun error => ?_⟩
  · rw [← Result.verdict_eq_ok, verdict, Result.forM_ok, List.forall_mem_map]
    exact forall₂_congr fun node _ => allow_iff
  · rw [← Result.verdict_eq_error, verdict, Result.forM_error]
    constructor
    · rintro ⟨front, site, back, nodes, passed, failed⟩
      obtain ⟨first, middle, parts, rfl, cut⟩ := List.map_eq_append_iff.mp nodes
      obtain ⟨node, last, rfl, rfl, rfl⟩ := List.map_eq_cons_iff.mp cut
      exact ⟨first, node, last, parts,
        fun other before => allow_iff.mp (passed _ (List.mem_map_of_mem before)),
        allow_error_iff.mp failed⟩
    · rintro ⟨front, node, back, nodes, passed, refused⟩
      rw [nodes]
      refine ⟨_, _, _, List.map_append.trans (congrArg _ (List.map_cons ..)), ?_,
        allow_error_iff.mpr refused⟩
      exact List.forall_mem_map.mpr fun other before => allow_iff.mpr (passed other before)

def strayingDocument : Json :=
  let term := Json.object [("term", .object [("roles.gender", .string "F")])]
  let nested := Json.object [("nested", .object [("path", .string "authors"), ("query", term)])]
  .object [("bool", .object [("must", term), ("filter", .array [term, nested])])]

theorem ofJson_admits_straying : ∃ tree, QueryNode.parse strayingDocument = .ok tree ∧
    tree.len = 8 ∧ ∃ front node back, tree.nodes = front ++ node :: back ∧
      (∀ other ∈ front, Admits rolesMapping other.content (tree.currentScope other.id)) ∧
      Refuses rolesMapping node.content (tree.currentScope node.id)
        (.invalidNesting "roles.gender" (some "authors") (some "roles")) := by
  have read : (QueryNode.parse strayingDocument).toOption.any (·.len = 8) = true := by
    decide +kernel
  have failed : (match Query.ofJson strayingDocument (some rolesMapping) with
      | .error (.invalidNesting field current required) => some (field, current, required)
      | _ => none) = some ("roles.gender", some "authors", some "roles") := by decide +kernel
  obtain ⟨tree, parsed, size⟩ := Result.ok_of_any read
  refine ⟨tree, parsed, by simpa using size, ?_⟩
  split at failed
  · rename_i made
    cases failed
    exact ((ofJson_admits rolesMapping parsed).2 _).mp made
  · cases failed

end Query

end ScopedClauses
