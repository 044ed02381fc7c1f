import ScopedClauses.Proofs.Aggregation.Accepted
import ScopedClauses.Proofs.Aggregation.Hosted

/-!
What additions leave in a request. Every clause could be read, its field passed the check of its
kind, and it stands in the scope of its field; every marker names a scope of the mapping.
-/

namespace ScopedClauses

namespace Mapping

def Opens (mapping : Mapping) (path : String) : Prop :=
  mapping.isNested path = true ∨
    ∃ field scopes, mapping.nestedScopes field = .ok scopes ∧ path ∈ scopes

end Mapping

namespace AggClause

structure Readable (clause : AggClause) : Prop where
  registered : clause.kind ∈ AggKind.all
  path : clause.kind.tag = "nested" → clause.path?.isSome = true

theorem field?_ofBoundary (boundary : Boundary) : (ofBoundary boundary).field? = none := by
  cases boundary with
  | enter path => rfl
  | exit target => cases target <;> rfl

theorem readable_ofBoundary (boundary : Boundary) : (ofBoundary boundary).Readable := by
  cases boundary with
  | enter path => exact ⟨show AggKind.nested ∈ AggKind.all by decide +kernel, fun _ => rfl⟩
  | exit target =>
      have other : (AggKind.reverseNested.tag = "nested") = False := by decide +kernel
      exact ⟨show AggKind.reverseNested ∈ AggKind.all by decide +kernel,
        fun tagged => absurd tagged (by simp [ofBoundary, leave, other])⟩

theorem readable_ofBody {kind : AggKind} (registered : kind ∈ AggKind.all) {body : Members}
    {clause : AggClause} (made : ofBody kind body = .ok clause) : clause.Readable := by
  obtain ⟨path, rfl⟩ := ofBody_ok.mp made
  exact ⟨registered, fun tagged => isSome_stringAt.mpr (path tagged)⟩

end AggClause

namespace AggNode

open Rose Aggregations

/-! ### What is read -/

def AllReadable (forest : List (Shape AggNode)) : Prop :=
  ∀ node ∈ nodesOf forest, ∀ clause ∈ node.content.clause?, clause.Readable

theorem allReadable_nil : AllReadable [] := fun _ absent => by cases absent

theorem allReadable_cons {label : Keyed AggNode} {children rest : List (Shape AggNode)} :
    AllReadable (.node label children :: rest) ↔
      (∀ clause ∈ label.content.clause?, clause.Readable) ∧ AllReadable children ∧
        AllReadable rest := by
  simp only [AllReadable, nodesOf_cons, List.forall_mem_cons, List.forall_mem_append]

theorem allReadable_cons_iff {shape : Shape AggNode} {rest : List (Shape AggNode)} :
    AllReadable (shape :: rest) ↔ AllReadable [shape] ∧ AllReadable rest := by
  obtain ⟨label, children⟩ := shape
  simp only [allReadable_cons, allReadable_nil, and_true, and_assoc]

theorem readable_readClause {name : String} {members : Members} {clause : AggClause}
    (read : readClause name members = .ok clause) : clause.Readable := by
  obtain ⟨parts, _, read⟩ := Result.bind_ok.mp read
  split at read
  · cases read
  · rename_i tag body typed
    obtain ⟨kind, found, read⟩ := Result.bind_ok.mp read
    have registered := (AggKind.ofTag_ok.mp found).1
    split at read
    · obtain ⟨plain, made, read⟩ := Result.bind_ok.mp read
      cases Result.pure_ok.mp read
      have readable := AggClause.readable_ofBody registered made
      exact ⟨readable.registered, readable.path⟩
    · cases read

mutual

theorem readable_readLevel {parent : AggNode} {used after : List String}
    {shapes : List (Shape AggNode)} : ∀ json : Json,
    readLevel parent used json = .ok (shapes, after) → AllReadable shapes
  | .object members, read => readable_readMembers members read
  | .null, read => by cases read
  | .bool _, read => by cases read
  | .number _, read => by cases read
  | .string _, read => by cases read
  | .array _, read => by cases read
  termination_by structural json => json

theorem readable_readMembers {parent : AggNode} {used after : List String}
    {shapes : List (Shape AggNode)} : ∀ members : List (String × Json),
    readMembers parent used members = .ok (shapes, after) → AllReadable shapes
  | [], read => by
      cases Result.pure_ok.mp read
      exact allReadable_nil
  | (name, json) :: rest, read => by
      rw [readMembers] at read
      split at read
      · cases read
      · obtain ⟨⟨shape, middle⟩, first, read⟩ := Result.bind_ok.mp read
        obtain ⟨⟨others, last⟩, second, read⟩ := Result.bind_ok.mp read
        cases Result.pure_ok.mp read
        exact allReadable_cons_iff.mpr
          ⟨readable_readNamed json first, readable_readMembers rest second⟩
  termination_by structural members => members

theorem readable_readNamed {parent : AggNode} {used after : List String} {name : String}
    {shape : Shape AggNode} : ∀ json : Json,
    readNamed parent used name json = .ok (shape, after) → AllReadable [shape]
  | .object members, read => by
      obtain ⟨clause, first, read⟩ := Result.bind_ok.mp read
      obtain ⟨_, _, read⟩ := Result.bind_ok.mp read
      obtain ⟨⟨children, last⟩, below, read⟩ := Result.bind_ok.mp read
      cases Result.pure_ok.mp read
      refine allReadable_cons.mpr ⟨?_, readable_readChildren members below, allReadable_nil⟩
      rintro _ ⟨⟩
      exact readable_readClause first
  | .null, read => by cases read
  | .bool _, read => by cases read
  | .number _, read => by cases read
  | .string _, read => by cases read
  | .array _, read => by cases read
  termination_by structural json => json

theorem readable_readChildren {node : AggNode} {used after : List String}
    {shapes : List (Shape AggNode)} : ∀ members : List (String × Json),
    readChildren node used members = .ok (shapes, after) → AllReadable shapes
  | [], read => by
      cases Result.pure_ok.mp read
      exact allReadable_nil
  | (key, json) :: rest, read => by
      rw [readChildren] at read
      split at read
      · exact readable_readLevel json read
      · exact readable_readChildren rest read
  termination_by structural members => members

end

theorem readable_ofJson {json : Json} {shape : Shape AggNode} (read : ofJson json = .ok shape) :
    AllReadable shape.children := by
  obtain ⟨⟨children, used⟩, level, made⟩ := Result.bind_ok.mp read
  cases Result.pure_ok.mp made
  exact readable_readLevel json level

end AggNode

namespace Aggregations

open Rose Tree AggNode

def Input.Readable : Input → Prop
  | .tree (some shape) => AllReadable shape.children
  | _ => True

theorem readable_read {input : Input} (readable : input.Readable)
    {request : Option (Shape AggNode)} (read : input.read = .ok request) :
    AllReadable (clausesOf request) := by
  cases input with
  | declaration json | named name tag body =>
      obtain ⟨shape, parsed, rfl⟩ := Result.map_ok.mp read
      exact readable_ofJson parsed
  | tree given =>
      cases given with
      | none =>
          cases Result.pure_ok.mp read
          exact allReadable_nil
      | some shape =>
          simp only [Input.read] at read
          split at read
          · cases Result.pure_ok.mp read
            exact readable
          · cases read

/-! ### Where clauses stand -/

/-- A clause as it stands in a scope: its field passed the check of its kind and lies in the
scope, and a marker leads to a scope of the mapping. -/
structure Stands (mapping : Mapping) (clause : AggClause) (scope : Option String) : Prop where
  readable : clause.Readable
  leads : ∀ path, clause.boundary?.bind Boundary.inside = some path → mapping.Opens path
  checked : ∀ field, clause.field? = some field →
    (∃ type, mapping.checkField clause.kind.tag clause.kind.rule field = .ok type) ∧
      mapping.nestedAt field = .ok scope

def Upright (mapping : Mapping) : List (Entry AggNode) → Prop
  | [] => True
  | [entry] => entry.toKeyed = ⟨none, .root⟩
  | entry :: holder :: outer => holder.content.hosts = true ∧ ∃ name clause,
      entry.toKeyed = ⟨some name, .clause clause⟩ ∧
        Stands mapping clause (scopeOn (holder :: outer))

structure Standing (mapping : Mapping) (aggs : Aggregations) : Prop where
  whole : Whole aggs.tree
  rooted : aggs.tree.root.isSome = true
  bound : aggs.mapping = some mapping
  upright : ∀ number, Upright mapping (lineage number aggs.tree.branches)

theorem Standing.allReadable {mapping : Mapping} {aggs : Aggregations}
    (standing : Standing mapping aggs) : AllReadable (shapes aggs.tree.branches) := by
  intro node listed clause held
  rw [nodesOf, preorderAll_shapes, List.map_map] at listed
  obtain ⟨branch, member, rfl⟩ := List.mem_map.mp listed
  rw [Function.comp_apply, label_shape] at held
  obtain ⟨outward, way, _⟩ := lineage_of_mem standing.whole.numbered.distinct member
  have upright := standing.upright branch.id
  rw [way] at upright
  cases outward with
  | nil =>
      rw [show branch.label.toKeyed = ⟨none, .root⟩ from upright] at held
      cases held
  | cons holder outer =>
      obtain ⟨_, name, own, same, stands⟩ := upright
      rw [same] at held
      cases held
      exact stands.readable

theorem Standing.readable_tree {mapping : Mapping} {aggs : Aggregations}
    (standing : Standing mapping aggs) : (Input.tree aggs.tree.shape?).Readable := by
  have readable := standing.allReadable
  rw [branches_of_settled standing.whole.settled, shapes_root] at readable
  cases shown : aggs.tree.shape? with
  | none => trivial
  | some shape =>
      obtain ⟨label, children⟩ := shape
      rw [shown] at readable
      exact (allReadable_cons.mp readable).2.1

section Steps

variable {mapping : Mapping} {aggs final : Aggregations} {parent id : Nat} {content : AggClause}
  {name : String}

theorem stands_ofBoundary {boundary : Boundary} {scope : Option String}
    (known : ∀ path, boundary.inside = some path → mapping.Opens path) :
    Stands mapping (AggClause.ofBoundary boundary) scope := by
  refine ⟨AggClause.readable_ofBoundary boundary, fun path leads => known path ?_,
    fun field named => ?_⟩
  · rwa [boundary?_ofBoundary] at leads
  · rw [AggClause.field?_ofBoundary] at named
    cases named

theorem Standing.insertNode (standing : Standing mapping aggs)
    (placed : aggs.insertNode content parent name = .ok (id, final))
    (stands : Stands mapping content (scopeOn (lineage parent aggs.tree.branches))) :
    Standing mapping final ∧ lineage id final.tree.branches =
      ⟨⟨some name, .clause content⟩, id⟩ :: lineage parent aggs.tree.branches := by
  have numbered := standing.whole.numbered
  simp only [Aggregations.insertNode, Result.bind_ok, Result.pure_ok, Prod.mk.injEq] at placed
  obtain ⟨⟨number, after⟩, inserted, rfl, rfl⟩ := placed
  obtain ⟨holder, member, rfl, new, taken, regrown⟩ := insert_ok numbered inserted
  have ways := regrown.lineage_bud numbered member new
  have here := ways number
  rw [if_pos rfl] at here
  refine ⟨⟨standing.whole.regrown regrown member, regrown.rooted.trans standing.rooted,
    standing.bound, fun other => ?_⟩, here⟩
  dsimp only
  rw [ways]
  split
  · obtain ⟨outward, way, _⟩ := lineage_of_mem numbered.distinct member
    rw [way] at stands ⊢
    exact ⟨hosts_of_checkChild taken, name, content, rfl, stands⟩
  · exact standing.upright other

/-- Crossing to the scope of a field leads there, past markers of scopes around the field. -/
theorem Standing.reconcile (standing : Standing mapping aggs) {field : String}
    {autocorrect : Bool}
    (made : reconcile aggs parent field mapping autocorrect = .ok (id, final)) :
    Standing mapping final ∧
      mapping.nestedAt field = .ok (scopeOn (lineage id final.tree.branches)) := by
  let Holds := fun (scope : Option String) (reached : Aggregations) (position : Nat) =>
    Standing mapping reached ∧ scopeOn (lineage position reached.tree.branches) = scope
  have ends : ∃ scope, Holds scope final id ∧ mapping.nestedAt field = .ok scope := by
    refine reconcile_along ?_ ?_ ?_ made
    · rintro scope boundary reached position next ⟨standing, _⟩ found
      obtain ⟨marker, way, inside⟩ := existingMarker?_way standing.whole.numbered found
      exact ⟨standing, inside⟩
    · rintro scope boundary reached position next grown ⟨standing, _⟩ known placed
      have marks : (AggNode.clause (AggClause.ofBoundary boundary)).boundary? = some boundary :=
        boundary?_ofBoundary boundary
      obtain ⟨further, way⟩ := standing.insertNode placed
        (stands_ofBoundary fun path leads => Or.inr ⟨field, known path leads⟩)
      exact ⟨further, by rw [way, scopeOn_cons, within_boundary marks]⟩
    · exact ⟨standing, (currentScope_eq_scopeOn aggs.tree parent).symm⟩
  obtain ⟨scope, ⟨standing, rfl⟩, nested⟩ := ends
  exact ⟨standing, nested⟩

theorem settle_ok (bound : aggs.mapping = some mapping)
    (settled : aggs.settle parent content = .ok (id, final)) :
    checkMarker mapping content = .ok () ∧
      ((content.field? = none ∧ id = parent ∧ final = aggs) ∨
        ∃ field, content.field? = some field ∧
          (∃ type, mapping.checkField content.kind.tag content.kind.rule field = .ok type) ∧
          ScopedClauses.reconcile aggs parent field mapping aggs.autocorrect = .ok (id, final)) := by
  rw [settle, bound] at settled
  obtain ⟨_, marked, settled⟩ := Result.bind_ok.mp settled
  refine ⟨marked, ?_⟩
  split at settled
  · rename_i field named
    obtain ⟨type, checked, made⟩ := Result.bind_ok.mp settled
    exact Or.inr ⟨field, named, ⟨type, checked⟩, made⟩
  · rename_i unnamed
    cases Result.pure_ok.mp settled
    exact Or.inl ⟨unnamed, rfl, rfl⟩

theorem Standing.settle (standing : Standing mapping aggs) (readable : content.Readable)
    (settled : aggs.settle parent content = .ok (id, final)) :
    Standing mapping final ∧
      Stands mapping content (scopeOn (lineage id final.tree.branches)) := by
  obtain ⟨marked, found⟩ := settle_ok standing.bound settled
  have leads : ∀ path, content.boundary?.bind Boundary.inside = some path → mapping.Opens path :=
    fun path leads => Or.inl (checkMarker_ok.mp marked path leads)
  rcases found with ⟨unnamed, rfl, rfl⟩ | ⟨field, named, checked, made⟩
  · refine ⟨standing, readable, leads, fun field named => ?_⟩
    rw [unnamed] at named
    cases named
  · obtain ⟨reached, nested⟩ := standing.reconcile made
    refine ⟨reached, readable, leads, fun other known => ?_⟩
    cases named.symm.trans known
    exact ⟨checked, nested⟩

end Steps

mutual

theorem Standing.insertShape {mapping : Mapping} {aggs final : Aggregations} {parent id : Nat} :
    ∀ shape, Standing mapping aggs → AllReadable [shape] →
      aggs.insertShape parent shape = .ok (id, final) → Standing mapping final
  | .node entry below, standing, readable, made => by
      obtain ⟨name, content, inner, settled, grown, _, holds, _, settles, placed, rest⟩ :=
        insertShape_ok made
      obtain ⟨own, readableBelow, _⟩ := allReadable_cons.mp readable
      obtain ⟨reached, stands⟩ := standing.settle (own content (by rw [holds]; rfl)) settles
      exact (reached.insertNode placed stands).1.insertShapes below readableBelow rest

theorem Standing.insertShapes {mapping : Mapping} {aggs final : Aggregations} {parent : Nat} :
    ∀ shapes, Standing mapping aggs → AllReadable shapes →
      aggs.insertShapes parent shapes = .ok final → Standing mapping final
  | [], standing, _, made => by
      cases Result.pure_ok.mp made
      exact standing
  | shape :: rest, standing, readable, made => by
      obtain ⟨id, grown, first, later⟩ := insertShapes_ok made
      obtain ⟨here, beside⟩ := allReadable_cons_iff.mp readable
      exact (Standing.insertShape shape standing here first).insertShapes rest beside later

end

/-! ### Runs of additions -/

section Runs

variable {mapping : Mapping} {aggs start final : Aggregations}

theorem standing_empty (mapping : Mapping) (autocorrect : Bool) :
    Standing mapping { mapping := some mapping, autocorrect := autocorrect } := by
  refine ⟨(sound_empty (some mapping) autocorrect).1.toWhole, rfl, rfl, fun number => ?_⟩
  rw [branches_empty, lineage_cons]
  split
  · rfl
  · simp [Upright]

theorem Begun.standing (begun : Begun mapping start) : Standing mapping start := by
  cases begun with
  | empty autocorrect => exact standing_empty mapping autocorrect
  | read made =>
      obtain ⟨request, read, inserted⟩ := ofJson_ok made
      exact (standing_empty mapping true).insertShapes request.children (readable_ofJson read)
        inserted

theorem Standing.apply (standing : Standing mapping aggs) {addition : Addition}
    (readable : addition.input.Readable) (applied : addition.apply aggs = .ok final) :
    Standing mapping final := by
  obtain ⟨request, target, read, _, inserted⟩ := Addition.apply_ok applied
  have switched : Standing mapping { aggs with autocorrect := addition.autocorrect } :=
    ⟨standing.whole, standing.rooted, standing.bound, standing.upright⟩
  exact switched.insertShapes (clausesOf request) (readable_read readable read) inserted

theorem Standing.run (standing : Standing mapping aggs) (additions : List Addition)
    (readable : ∀ addition ∈ additions, addition.input.Readable)
    (ran : additions.foldlM Addition.apply aggs = .ok final) : Standing mapping final := by
  induction additions generalizing aggs with
  | nil =>
      cases Result.pure_ok.mp ran
      exact standing
  | cons addition rest ih =>
      rw [List.forall_mem_cons] at readable
      rw [List.foldlM_cons] at ran
      obtain ⟨middle, applied, later⟩ := Result.bind_ok.mp ran
      exact ih (standing.apply readable.1 applied) readable.2 later

end Runs

end Aggregations

end ScopedClauses
