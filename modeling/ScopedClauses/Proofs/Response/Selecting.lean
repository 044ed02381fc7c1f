import ScopedClauses.Proofs.Query.Accepted
import ScopedClauses.Proofs.Response.Collecting

/-!
The query of a bucket selects the documents that contribute to it, where the steps to the bucket
are regular. On other ways a scope may be entered twice, and a walk may choose another nested
document each time; the query asks for one that meets all conditions of the scope.
-/

namespace ScopedClauses

open Rose Tree

namespace Selection

open Weaving

/-- The document that is assembled for fragments is in order, and selects the documents that
meet them. -/
theorem assemble_meets {mapping : Mapping} {fragments : List Fragment}
    (stated : ∀ fragment ∈ fragments, Stated mapping fragment) :
    ∃ shape, InOrder mapping none ((assemble fragments (some mapping)).getD Shorthand.matchAll) shape ∧
      ∀ document, selects document shape = true ↔
        Meets fragments (scopesInPlay fragments (some mapping)) mapping
          ((scopesInPlay fragments (some mapping)).length + 1) none document := by
  obtain ⟨vacuous, made⟩ := @assembleScope_meets fragments (scopesInPlay fragments (some mapping))
    mapping stated ((scopesInPlay fragments (some mapping)).length + 1) none
  cases found : assemble fragments (some mapping) with
  | none =>
      obtain ⟨shape, order, all⟩ := inOrder_matchAll mapping none
      exact ⟨shape, order, fun document => iff_of_true (all document) (vacuous found document)⟩
  | some json => exact made json found

end Selection

namespace Response

open Aggregations Step

structure Derived (mapping : Mapping) (autocorrect : Bool) (operations : List Aggregations.Operation)
    (raw : Json) (id : Nat) (aggs : Aggregations) (response : Response) (query : Query) : Prop where
  ran : operations.foldlM Operation.apply
    { mapping := some mapping, autocorrect := autocorrect } = .ok aggs
  walkable : ∀ node ∈ aggs.tree.nodes, ∀ clause ∈ node.content.clause?, Walkable clause
  distinct : (names aggs.tree).Nodup
  read : Response.ofJson aggs raw = .ok response
  selected : response.selection id = .ok query

/-- The query of a node selects exactly the documents that contribute to it, where the steps down
to the node are regular. -/
theorem bucketFilter_contributes {mapping : Mapping} {autocorrect : Bool}
    {operations : List Aggregations.Operation} {raw : Json} {id : Nat} {aggs : Aggregations}
    {response : Response} {query : Query}
    (derived : Derived mapping autocorrect operations raw id aggs response query)
    (regular : regular mapping (response.steps id) = true) :
    response.bucketFilter id = .ok query ∧ ∃ shape, query.tree.shape? = some shape ∧
      ∀ document, Weaving.selects document shape = true ↔
        response.contributes id document = true := by
  have ordered := ordered_run (ordered_empty mapping autocorrect) operations derived.ran
  obtain ⟨rfl, unbased, way, matched⟩ := matches_ofJson ordered.whole.numbered derived.read id
  have selected := derived.selected
  refine ⟨by rw [bucketFilter, selected, unbased]; rfl, ?_⟩
  simp only [selection, Result.bind_ok, ordered.bound] at selected
  obtain ⟨fragments, collects, accepted⟩ := selected
  rw [steps_eq] at regular
  have rules := regular_spots regular
  -- collect, assemble, accept, select
  have collected := fragments_of_collect ordered derived.distinct derived.walkable matched collects
    rules.returns
  obtain ⟨shape, order, means⟩ := Selection.assemble_meets collected.stated
  refine ⟨shape, Query.shape?_of_ofJson order.read ⟨order.formed, order.legible⟩ order.fits accepted,
    fun document => ?_⟩
  rw [means, contributes, steps_eq, rules.admits_iff, playing, collected.same]

def derives (mapping : Mapping) (operations : List Aggregations.Operation) (raw : Json) (id : Nat)
    (test : Response → Query → Bool) : Bool :=
  (operations.foldlM Operation.apply { mapping := some mapping : Aggregations }).toOption.any
    fun aggs =>
      decide (∀ node ∈ aggs.tree.nodes, ∀ clause ∈ node.content.clause?, Walkable clause) &&
      decide (names aggs.tree).Nodup && (Response.ofJson aggs raw).toOption.any fun response =>
        (response.selection id).toOption.any (test response)

theorem derived_of_derives {mapping : Mapping} {operations : List Aggregations.Operation} {raw : Json}
    {id : Nat} {test : Response → Query → Bool}
    (passed : derives mapping operations raw id test = true) :
    ∃ aggs response query, Derived mapping true operations raw id aggs response query ∧
      test response query = true := by
  obtain ⟨aggs, ran, passed⟩ := Result.ok_of_any passed
  simp only [Bool.and_eq_true, decide_eq_true_eq] at passed
  obtain ⟨⟨walkable, distinct⟩, passed⟩ := passed
  obtain ⟨response, read, passed⟩ := Result.ok_of_any passed
  obtain ⟨query, selected, passed⟩ := Result.ok_of_any passed
  exact ⟨aggs, response, query, ⟨ran, walkable, distinct, read, selected⟩, passed⟩

def pricesByGender : List Aggregations.Operation :=
  [.groupBy (genderTerms "by_gender") none,
    .groupBy (.declaration (.object [("by_price", .object [
      ("terms", .object [("field", .string "price")])])])) none]

def oneBucketEach : List (String × Option Json) → Members
  | [] => []
  | (name, none) :: rest => [(name, .object (oneBucketEach rest))]
  | (name, some key) :: rest =>
      [(name, .object [("buckets", .array [.object (("key", key) :: oneBucketEach rest)])])]

def priceOfGender : Json :=
  .object (oneBucketEach [("nested_below_root", none), ("by_gender", some (.string "F")),
    ("reverse_nested_below_by_gender", none), ("by_price", some (.ofNat 10))])

theorem bucketFilter_contributes_price :
    ∃ aggs response query, Derived castMapping true pricesByGender priceOfGender 4 aggs response query ∧
      regular castMapping (response.steps 4) = true ∧
      response.bucketFilter 4 = .ok query ∧ ∃ shape, query.tree.shape? = some shape ∧
        ∀ document, Weaving.selects document shape = true ↔
          response.contributes 4 document = true := by
  have passed : derives castMapping pricesByGender priceOfGender 4
      (fun response _ => regular castMapping (response.steps 4)) = true := by
    decide +kernel
  obtain ⟨aggs, response, query, derived, regular⟩ := derived_of_derives passed
  exact ⟨aggs, response, query, derived, regular, bucketFilter_contributes derived regular⟩

def awardsMapping : Mapping :=
  ⟨Tree.ofShape (.node ⟨none, .root []⟩
    [.node ⟨some "roles", .field ⟨"roles", "roles", .nested, [], []⟩⟩
      [.node ⟨some "roles.gender", .field ⟨"gender", "roles.gender", .keyword, [], []⟩⟩ [],
        .node ⟨some "roles.name", .field ⟨"name", "roles.name", .keyword, [], []⟩⟩ [],
        .node ⟨some "roles.awards", .field ⟨"awards", "roles.awards", .nested, [], []⟩⟩
          [.node ⟨some "roles.awards.year", .field ⟨"year", "roles.awards.year", .keyword, [], []⟩⟩
            []]]])⟩

def stacked : List (String × String × Members) → Members
  | [] => []
  | (name, tag, body) :: rest =>
      [(name, .object [(tag, .object body), ("aggs", .object (stacked rest))])]

def Strays (mapping : Mapping) (stack : List (String × String × Members)) (raw : Json) (id : Nat) :
    Prop :=
  ∃ aggs response query,
    Derived mapping true [.ofJson (.object (stacked stack))] raw id aggs response query ∧
      ∃ shape document, query.tree.shape? = some shape ∧
        Weaving.selects document shape ≠ response.contributes id document

theorem strays_of_derives {mapping : Mapping} {stack : List (String × String × Members)} {raw : Json}
    {id : Nat} (document : Document)
    (passed : derives mapping [.ofJson (.object (stacked stack))] raw id (fun response query =>
      query.tree.shape?.any fun shape =>
        Weaving.selects document shape != response.contributes id document) = true) :
    Strays mapping stack raw id := by
  obtain ⟨aggs, response, query, derived, passed⟩ := derived_of_derives passed
  obtain ⟨shape, found, differs⟩ := (Option.any_eq_true _ _).mp passed
  exact ⟨aggs, response, query, derived, shape, document, found, by simpa using differs⟩

def told (condition : Json) (path : String) (inner : List Document) : Document :=
  .node (fun clause => clause.agrees condition) fun other => if other = path then inner else []

/-- Ways that are not regular: one that comes back to a scope, one that enters a scope for
nothing, one that passes over a scope, one that enters a scope in itself, and one that goes back
to a scope that it is not in. -/
theorem bucketFilter_strays :
    Strays awardsMapping
      [("roles", "nested", [("path", .string "roles")]),
        ("genders", "terms", [("field", .string "roles.gender")]), ("films", "reverse_nested", []),
        ("others", "nested", [("path", .string "roles")]),
        ("names", "terms", [("field", .string "roles.name")])]
      (.object (oneBucketEach [("roles", none), ("genders", some (.string "F")), ("films", none),
        ("others", none), ("names", some (.string "Bo"))])) 5 ∧
    Strays awardsMapping [("roles", "nested", [("path", .string "roles")])]
      (.object (oneBucketEach [("roles", none)])) 1 ∧
    Strays awardsMapping
      [("awards", "nested", [("path", .string "roles.awards")]),
        ("years", "terms", [("field", .string "roles.awards.year")])]
      (.object (oneBucketEach [("awards", none), ("years", some (.string "1999"))])) 2 ∧
    Strays awardsMapping
      [("roles", "nested", [("path", .string "roles")]),
        ("again", "nested", [("path", .string "roles")]),
        ("genders", "terms", [("field", .string "roles.gender")])]
      (.object (oneBucketEach [("roles", none), ("again", none), ("genders", some (.string "F"))]))
      3 ∧
    Strays awardsMapping
      [("films", "reverse_nested", [("path", .string "roles")]),
        ("genders", "terms", [("field", .string "roles.gender")])]
      (.object (oneBucketEach [("films", none), ("genders", some (.string "F"))])) 2 := by
  refine ⟨?_, ?_, ?_, ?_, ?_⟩
  · refine strays_of_derives (told .null "roles"
      [told (Shorthand.term "roles.gender" (.string "F")) "" [],
        told (Shorthand.term "roles.name" (.string "Bo")) "" []]) ?_
    decide +kernel
  · refine strays_of_derives (told .null "" []) ?_
    decide +kernel
  · refine strays_of_derives (told .null "roles.awards"
      [told (Shorthand.term "roles.awards.year" (.string "1999")) "" []]) ?_
    decide +kernel
  · refine strays_of_derives (told .null "roles"
      [told (Shorthand.term "roles.gender" (.string "F")) "" []]) ?_
    decide +kernel
  · refine strays_of_derives (told .null "roles"
      [told (Shorthand.term "roles.gender" (.string "F")) "" []]) ?_
    decide +kernel

end Response

end ScopedClauses
