import ScopedClauses.Proofs.Query.Normal
import ScopedClauses.Proofs.Response.Documents

/-!
What the assembled conditions of a bucket ask. Assembling groups conditions by scope: one nested
document has to meet all conditions of its scope, and to hold what meets those further inside.
-/

namespace ScopedClauses

namespace Weaving

open Rose QueryNode

def filterPlace : Slot := ⟨"filter", true⟩

def filtering (clauses : List (Shape QueryNode)) : Shape QueryNode :=
  .node ⟨none, emptyBool⟩ [slotShape filterPlace clauses]

def inBool (place : Slot) (clauses : List (Shape QueryNode)) : Shape QueryNode :=
  .node ⟨none, emptyBool⟩ [slotShape place clauses]

/-! ### Selection -/

section Selection

variable (document : Document)

theorem selects_leaf (key : Option String) (clause : LeafClause)
    (slots : List (Shape QueryNode)) :
    selects document (.node ⟨key, .leaf clause⟩ slots) =
      (clause.kind.tag = "match_all" ||
        document.holds (QueryNode.wrap clause.kind.tag clause.body)) := rfl

theorem selects_chain (path : String) (incoming : Shape QueryNode) :
    selects document (chain [path] incoming) =
      (document.inner path).any fun nested => selects nested incoming := by
  have named : (queryPlace.name = "query") := rfl
  simp [chain, selects, QueryNode.enter, nestedPath?, CompoundClause.path?, QueryKind.nested,
    selectsNamed, selectsOf, slotShape, slot?, named, combine, Json.string?]

theorem selects_filtering (clauses : List (Shape QueryNode)) :
    selects document (filtering clauses) = clauses.all (selects document) := by
  have named : filterPlace.name = "filter" := rfl
  simp [filtering, selects, emptyBool, nestedPath?, CompoundClause.path?, QueryKind.boolean,
    QueryNode.isBool, selectsNamed, selectsOf_eq, slotShape, slot?, named, combine, boolValue,
    List.all_map]

end Selection

/-! ### Shapes -/

section Shapes

variable {mapping : Mapping} {scope : Option String} {place : Slot}
  {clauses : List (Shape QueryNode)}

theorem formed_inBool (declares : QueryKind.boolean.slot? place.name = some place)
    (many : place.multiple = true) (formed : Formed clauses)
    (bare : ∀ child ∈ contents clauses, child.slot? = none) : Formed [inBool place clauses] := by
  have known : .compound QueryKind.boolean ∈ QueryKind.all := by decide +kernel
  simp only [inBool, slotShape, formed_cons, formed_nil, and_true]
  refine ⟨?_, ⟨bare, by simp [many]⟩, formed⟩
  simp [emptyBool, Holds, known, declares]

theorem allLegible_inBool (many : place.multiple = true) {given : Option Mapping}
    (legible : AllLegible given clauses) : AllLegible given [inBool place clauses] :=
  (allLegible_singleton _ _).mpr
    ⟨legible_emptyBool _, allLegible_slotShape legible (by simp [many])⟩

theorem everywhere_inBool :
    Everywhere (Fits mapping) scope [inBool place clauses] ↔
      Everywhere (Fits mapping) scope clauses := by
  have same : within scope emptyBool = scope := rfl
  rw [inBool, everywhere_cons, same, everywhere_slotShape]
  exact ⟨fun holds => holds.2.1, fun holds => ⟨fits_emptyBool, holds, trivial⟩⟩

end Shapes

/-! ### Reading -/

theorem ofJson_leaf {kind : LeafKind} (known : .leaf kind ∈ QueryKind.all) {body : Members}
    {field : Option String} (named : LeafClause.readField kind body = .ok field) :
    QueryNode.ofJson (QueryNode.wrap kind.tag body) =
      .ok (.node (keyed (.leaf ⟨kind, field, body⟩)) []) := by
  have registered : QueryKind.ofTag kind.tag = _ := QueryKind.ofTag_tag known
  simp only [QueryNode.wrap, QueryNode.ofJson, QueryNode.ofMembers, registered, Result.ok_bind,
    LeafClause.ofBody, named]
  rfl

theorem ofJson_nested {inner : Json} {shape : Shape QueryNode} (path : String)
    (read : QueryNode.ofJson inner = .ok shape) :
    QueryNode.ofJson (Shorthand.nested path inner) = .ok (chain [path] shape) := by
  have known : .compound QueryKind.nested ∈ QueryKind.all := by decide +kernel
  have registered : QueryKind.ofTag "nested" = _ := QueryKind.ofTag_tag known
  have apart : QueryKind.nested.slot? "path" = none := by decide +kernel
  have place : QueryKind.nested.slot? "query" = some queryPlace := by decide +kernel
  cases inner with
  | object members =>
      rw [QueryNode.ofJson] at read
      simp only [Shorthand.nested, QueryNode.wrap, QueryNode.ofJson, QueryNode.ofMembers,
        registered, Result.ok_bind, QueryNode.readSlots, apart, place, QueryNode.readSlot, read,
        attributes, List.filter]
      rfl
  | _ => simp [QueryNode.ofJson, Result.throw_ok] at read

theorem ofJson_inBool {place : Slot} (declares : QueryKind.boolean.slot? place.name = some place)
    (many : place.multiple = true) {items : List Json} {clauses : List (Shape QueryNode)}
    (read : QueryNode.readAll items = .ok clauses) :
    QueryNode.ofJson (Shorthand.boolean [(place.name, items)]) = .ok (inBool place clauses) := by
  have known : .compound QueryKind.boolean ∈ QueryKind.all := by decide +kernel
  have registered : QueryKind.ofTag "bool" = _ := QueryKind.ofTag_tag known
  have body : Members.merge [] [(place.name, Json.array items)] = [(place.name, .array items)] :=
    rfl
  simp only [Shorthand.boolean, List.map_cons, List.map_nil, body, QueryNode.wrap,
    QueryNode.ofJson, QueryNode.ofMembers, registered, Result.ok_bind, QueryNode.readSlots,
    declares, QueryNode.readSlot, many, read, attributes, List.filter]
  rfl

structure InOrder (mapping : Mapping) (scope : Option String) (json : Json)
    (shape : Shape QueryNode) : Prop where
  read : QueryNode.ofJson json = .ok shape
  formed : Formed [shape]
  legible : AllLegible none [shape]
  fits : Everywhere (Fits mapping) scope [shape]

def selectedBy (document : Document) (json : Json) : Bool :=
  (QueryNode.ofJson json).toOption.any (selects document)

section InOrder

variable {mapping : Mapping} {scope : Option String}

theorem InOrder.selectedBy {json : Json} {shape : Shape QueryNode}
    (order : InOrder mapping scope json shape) (document : Document) :
    selectedBy document json = selects document shape := by
  rw [Weaving.selectedBy, order.read]
  rfl

theorem inOrder_leaf {kind : LeafKind} (known : .leaf kind ∈ QueryKind.all) {body : Members}
    {field : Option String} (named : LeafClause.readField kind body = .ok field)
    (nested : ∀ own, field = some own → mapping.nestedAt own = .ok scope) :
    InOrder mapping scope (QueryNode.wrap kind.tag body)
      (.node (keyed (.leaf ⟨kind, field, body⟩)) []) := by
  refine ⟨ofJson_leaf known named, (formed_cons _ _ _).mpr ⟨rfl, formed_nil, formed_nil⟩, ?_, ?_⟩
  · refine (allLegible_singleton _ _).mpr
      ⟨⟨rfl, ⟨known, named⟩, checked_none _, ?_⟩, allLegible_nil⟩
    intro place content
    cases content
  · exact (everywhere_cons _ _ _ _).mpr
      ⟨⟨nested, fun bool => by cases bool⟩, trivial, trivial⟩

theorem inOrder_term {field : String} (value : Json) (nested : mapping.nestedAt field = .ok scope) :
    ∃ shape, InOrder mapping scope (Shorthand.term field value) shape ∧
      ∀ document, selects document shape = document.holds (Shorthand.term field value) := by
  have known : .leaf ⟨"term", .keyed, QueryKind.scalar⟩ ∈ QueryKind.all := by decide +kernel
  have named : LeafClause.readField ⟨"term", .keyed, QueryKind.scalar⟩ [(field, value)] =
    .ok (some field) := rfl
  have order : InOrder mapping scope (Shorthand.term field value) _ :=
    inOrder_leaf known named (by rintro _ ⟨⟩; exact nested)
  refine ⟨_, order, fun document => ?_⟩
  rw [keyed, selects_leaf]
  rfl

theorem inOrder_matchAll (mapping : Mapping) (scope : Option String) :
    ∃ shape, InOrder mapping scope Shorthand.matchAll shape ∧
      ∀ document, selects document shape = true := by
  have known : .leaf ⟨"match_all", .fieldless, .any⟩ ∈ QueryKind.all := by decide +kernel
  have named : LeafClause.readField ⟨"match_all", .fieldless, .any⟩ [] = .ok none := rfl
  have order : InOrder mapping scope Shorthand.matchAll _ :=
    inOrder_leaf known named fun _ none => by cases none
  refine ⟨_, order, fun document => ?_⟩
  rw [keyed, selects_leaf]
  rfl

theorem inOrder_nested {path : String} {inner : Json} {shape : Shape QueryNode}
    (order : InOrder mapping (some path) inner shape) :
    InOrder mapping scope (Shorthand.nested path inner) (chain [path] shape) :=
  ⟨ofJson_nested path order.read, (formed_chain [path] order.formed (slot?_ofJson order.read)).1,
    allLegible_chain [path] order.legible, (everywhere_chain [path] shape).mpr order.fits⟩

theorem inOrder_readAll {items : List Json}
    (orders : ∀ item ∈ items, ∃ shape, InOrder mapping scope item shape) :
    ∃ clauses, QueryNode.readAll items = .ok clauses ∧ Formed clauses ∧
      (∀ child ∈ contents clauses, child.slot? = none) ∧ AllLegible none clauses ∧
      Everywhere (Fits mapping) scope clauses ∧
      ∀ document, clauses.all (selects document) = items.all (selectedBy document) := by
  induction items with
  | nil => exact ⟨[], rfl, formed_nil, by simp, allLegible_nil, trivial, fun _ => rfl⟩
  | cons item rest ih =>
      rw [List.forall_mem_cons] at orders
      obtain ⟨shape, order⟩ := orders.1
      obtain ⟨clauses, read, formed, bare, legible, fits, same⟩ := ih orders.2
      refine ⟨shape :: clauses, ?_, (formed_cons_iff _ _).mpr ⟨order.formed, formed⟩, ?_,
        (allLegible_cons_iff _ _).mpr ⟨order.legible, legible⟩,
        (everywhere_cons_iff _ _ _).mpr ⟨order.fits, fits⟩, fun document => ?_⟩
      · rw [QueryNode.readAll, order.read, read]
        rfl
      · simp only [contents, List.map_cons, List.forall_mem_cons]
        exact ⟨slot?_ofJson order.read, bare⟩
      · rw [List.all_cons, List.all_cons, order.selectedBy, same]

theorem inOrder_inBool {place : Slot}
    (declares : QueryKind.boolean.slot? place.name = some place) (many : place.multiple = true)
    {items : List Json} (orders : ∀ item ∈ items, ∃ shape, InOrder mapping scope item shape) :
    ∃ clauses, QueryNode.readAll items = .ok clauses ∧
      InOrder mapping scope (Shorthand.boolean [(place.name, items)]) (inBool place clauses) ∧
      ∀ document, clauses.all (selects document) = items.all (selectedBy document) := by
  obtain ⟨clauses, read, formed, bare, legible, fits, same⟩ := inOrder_readAll orders
  exact ⟨clauses, read, ⟨ofJson_inBool declares many read, formed_inBool declares many formed bare,
    allLegible_inBool many legible, everywhere_inBool.mpr fits⟩, same⟩

theorem inOrder_conjunction {items : List Json}
    (orders : ∀ item ∈ items, ∃ shape, InOrder mapping scope item shape) {json : Json}
    (joined : Selection.conjunction items = some json) :
    ∃ shape, InOrder mapping scope json shape ∧
      ∀ document, selects document shape = items.all (selectedBy document) := by
  match items, joined with
  | [condition], joined =>
      obtain ⟨shape, order⟩ := orders condition (by simp)
      rw [← Option.some.inj joined]
      exact ⟨shape, order, fun document => by simp [order.selectedBy]⟩
  | first :: second :: rest, joined =>
      have declares : QueryKind.boolean.slot? filterPlace.name = some filterPlace := by
        decide +kernel
      obtain ⟨clauses, _, order, same⟩ := inOrder_inBool declares rfl orders
      rw [← Option.some.inj joined]
      exact ⟨filtering clauses, order, fun document => by rw [selects_filtering, same]⟩

end InOrder

end Weaving

namespace Selection

open Weaving

section Assembling

variable (fragments : List Fragment) (scopes : List String) (mapping : Mapping)

/-- What assembling asks of a document in a scope, down to a depth: to meet the conditions stated
in the scope, and to hold a document in each scope directly inside that conditions ask for. -/
def Meets : Nat → Option String → Document → Prop
  | 0, _, _ => True
  | depth + 1, scope, document =>
      (∀ fragment ∈ fragments, fragment.scope = scope →
        document.holds fragment.condition = true) ∧
      ∀ path ∈ scopes, parentScope path scopes (some mapping) = scope →
        (assembleScope fragments scopes (some mapping) depth (some path)).isSome →
          ∃ nested ∈ document.inner path, Meets depth (some path) nested

def Stated (mapping : Mapping) (fragment : Fragment) : Prop :=
  ∃ field value, fragment.condition = Shorthand.term field value ∧
    mapping.nestedAt field = .ok fragment.scope

variable {fragments scopes mapping}

theorem conjunction_eq_none {items : List Json} : conjunction items = none ↔ items = [] := by
  match items with
  | [] => simp [conjunction]
  | [condition] => simp [conjunction]
  | first :: second :: rest => simp [conjunction]

def statedIn (fragments : List Fragment) (scope : Option String) : List Json :=
  (fragments.filter (·.scope = scope)).map Fragment.condition

def insideOf (fragments : List Fragment) (scopes : List String) (mapping : Mapping) (depth : Nat)
    (scope : Option String) : List Json :=
  (scopes.filter fun path => parentScope path scopes (some mapping) = scope).filterMap fun path =>
    (assembleScope fragments scopes (some mapping) depth (some path)).map (Shorthand.nested path)

theorem assembleScope_succ (depth : Nat) (scope : Option String) :
    assembleScope fragments scopes (some mapping) (depth + 1) scope =
      conjunction (statedIn fragments scope ++ insideOf fragments scopes mapping depth scope) := rfl

theorem mem_statedIn {scope : Option String} {item : Json} :
    item ∈ statedIn fragments scope ↔
      ∃ fragment ∈ fragments, fragment.scope = scope ∧ fragment.condition = item := by
  simp [statedIn, and_assoc]

theorem mem_insideOf {depth : Nat} {scope : Option String} {item : Json} :
    item ∈ insideOf fragments scopes mapping depth scope ↔
      ∃ path ∈ scopes, parentScope path scopes (some mapping) = scope ∧ ∃ json,
        assembleScope fragments scopes (some mapping) depth (some path) = some json ∧
          Shorthand.nested path json = item := by
  simp [insideOf, and_assoc]

/-- What was assembled for a scope is in order there, and selects the documents that meet it. -/
def Means (fragments : List Fragment) (scopes : List String) (mapping : Mapping) (depth : Nat)
    (scope : Option String) (json : Json) : Prop :=
  ∃ shape, InOrder mapping scope json shape ∧ ∀ document,
    selects document shape = true ↔ Meets fragments scopes mapping depth scope document

theorem inOrder_stated {fragment : Fragment} (stated : Stated mapping fragment) :
    ∃ shape, InOrder mapping fragment.scope fragment.condition shape ∧
      ∀ document, selectedBy document fragment.condition = document.holds fragment.condition := by
  obtain ⟨field, value, states, nested⟩ := stated
  obtain ⟨shape, order, means⟩ := inOrder_term value nested
  rw [states]
  exact ⟨shape, order, fun document => by rw [order.selectedBy, means]⟩

theorem all_statedIn (stated : ∀ fragment ∈ fragments, Stated mapping fragment)
    (scope : Option String) (document : Document) :
    (statedIn fragments scope).all (selectedBy document) = true ↔
      ∀ fragment ∈ fragments, fragment.scope = scope →
        document.holds fragment.condition = true := by
  have same : ∀ fragment ∈ fragments,
      selectedBy document fragment.condition = document.holds fragment.condition := by
    intro fragment present
    obtain ⟨_, _, means⟩ := inOrder_stated (stated fragment present)
    exact means document
  rw [List.all_eq_true]
  constructor
  · intro all fragment present stands
    rw [← same fragment present]
    exact all _ (mem_statedIn.mpr ⟨fragment, present, stands, rfl⟩)
  · intro all item listed
    obtain ⟨fragment, present, stands, rfl⟩ := mem_statedIn.mp listed
    rw [same fragment present]
    exact all fragment present stands

section Inside

variable {depth : Nat} (below : ∀ path json,
  assembleScope fragments scopes (some mapping) depth (some path) = some json →
    Means fragments scopes mapping depth (some path) json)

include below

theorem inOrder_inside {path : String} {json : Json}
    (found : assembleScope fragments scopes (some mapping) depth (some path) = some json)
    (scope : Option String) :
    ∃ shape, InOrder mapping scope (Shorthand.nested path json) shape ∧
      ∀ document, selectedBy document (Shorthand.nested path json) = true ↔
        ∃ nested ∈ document.inner path, Meets fragments scopes mapping depth (some path) nested := by
  obtain ⟨shape, order, means⟩ := below path json found
  have outer : InOrder mapping scope (Shorthand.nested path json) (chain [path] shape) :=
    inOrder_nested order
  refine ⟨_, outer, fun document => ?_⟩
  rw [outer.selectedBy]
  simp only [selects_chain, List.any_eq_true, means]

theorem all_insideOf (scope : Option String) (document : Document) :
    (insideOf fragments scopes mapping depth scope).all (selectedBy document) = true ↔
      ∀ path ∈ scopes, parentScope path scopes (some mapping) = scope →
        (assembleScope fragments scopes (some mapping) depth (some path)).isSome →
          ∃ nested ∈ document.inner path,
            Meets fragments scopes mapping depth (some path) nested := by
  rw [List.all_eq_true]
  constructor
  · intro all path member around asked
    obtain ⟨json, found⟩ := Option.isSome_iff_exists.mp asked
    obtain ⟨_, _, means⟩ := inOrder_inside below found scope
    exact (means document).mp (all _ (mem_insideOf.mpr ⟨path, member, around, json, found, rfl⟩))
  · intro all item listed
    obtain ⟨path, member, around, json, found, rfl⟩ := mem_insideOf.mp listed
    obtain ⟨_, _, means⟩ := inOrder_inside below found scope
    exact (means document).mpr (all path member around (by rw [found]; rfl))

end Inside

/-- What is assembled means what is asked for. Where nothing is, every document will do. -/
theorem assembleScope_meets (stated : ∀ fragment ∈ fragments, Stated mapping fragment)
    (depth : Nat) (scope : Option String) :
    (assembleScope fragments scopes (some mapping) depth scope = none →
      ∀ document, Meets fragments scopes mapping depth scope document) ∧
    ∀ json, assembleScope fragments scopes (some mapping) depth scope = some json →
      Means fragments scopes mapping depth scope json := by
  induction depth generalizing scope with
  | zero => exact ⟨fun _ _ => trivial, fun json made => by cases made⟩
  | succ depth ih =>
      have below := fun path => (ih (some path)).2
      have orders : ∀ item ∈ statedIn fragments scope ++
          insideOf fragments scopes mapping depth scope,
          ∃ shape, InOrder mapping scope item shape := by
        intro item listed
        rcases List.mem_append.mp listed with here | inside
        · obtain ⟨fragment, present, rfl, rfl⟩ := mem_statedIn.mp here
          obtain ⟨shape, order, _⟩ := inOrder_stated (stated fragment present)
          exact ⟨shape, order⟩
        · obtain ⟨path, _, _, json, found, rfl⟩ := mem_insideOf.mp inside
          obtain ⟨shape, order, _⟩ := inOrder_inside below found scope
          exact ⟨shape, order⟩
      have each : ∀ document, (statedIn fragments scope ++
          insideOf fragments scopes mapping depth scope).all (selectedBy document) = true ↔
            Meets fragments scopes mapping (depth + 1) scope document := by
        intro document
        rw [List.all_append, Bool.and_eq_true, all_statedIn stated, all_insideOf below, Meets]
      rw [assembleScope_succ]
      refine ⟨fun nothing document => ?_, fun json joined => ?_⟩
      · rw [← each, conjunction_eq_none.mp nothing]
        rfl
      · obtain ⟨shape, order, same⟩ := inOrder_conjunction orders joined
        exact ⟨shape, order, fun document => by rw [same, each]⟩

end Assembling

end Selection

end ScopedClauses
