import ScopedClauses.Proofs.Aggregation.Reopening
import ScopedClauses.Proofs.Query.Reopening
import ScopedClauses.Proofs.Scope.Shortest

/-!
Reconciling clauses twice. The first time opens what is missing, the second time finds it.
-/

namespace ScopedClauses

open Tree

/-- Whatever run made a tree: a clause that is reconciled from any position comes to one in the
scope of its field, and from then on every clause with the same scopes comes there too and changes
nothing, also after a clause was placed there. -/
theorem reconcile_idempotent :
    (∀ (acts : List (Act Query.Step Position)) (query : Query),
      (∀ edit, .own (.edit edit) ∈ acts → edit.input.Accepted ∧ edit.input.Registered) →
      acts.foldlM (Act.apply Query.Step.apply) {} = .ok query →
      ∀ (position inner : Position) (mapping : Mapping) (first : String) (after : Query),
        reconcile query position first mapping true = .ok (inner, after) →
        mapping.nestedAt first = .ok (after.positionScope inner) ∧
        ∀ second, mapping.nestedScopes second = mapping.nestedScopes first →
          reconcile after position second mapping true = .ok (inner, after) ∧
          ∀ clause key id placed, after.place inner (.leaf clause) key = .ok (id, placed) →
            reconcile placed position second mapping true = .ok (inner, placed)) ∧
    ∀ (acts : List (Act Aggregations.Step Nat)) (aggs : Aggregations),
      acts.foldlM (Act.apply Aggregations.Step.apply) {} = .ok aggs →
      ∀ (parent inner : Nat) (mapping : Mapping) (first : String) (after : Aggregations),
        reconcile aggs parent first mapping true = .ok (inner, after) →
        mapping.nestedAt first = .ok (after.tree.currentScope inner) ∧
        ∀ second, mapping.nestedScopes second = mapping.nestedScopes first →
          reconcile after parent second mapping true = .ok (inner, after) ∧
          ∀ node key id tree, after.tree.insert node inner key = .ok (id, tree) →
            reconcile { after with tree := tree } parent second mapping true =
              .ok (inner, { after with tree := tree }) := by
  constructor
  · intro acts query admitted ran position inner mapping first after made
    have structured := Query.structured_acts
      (Query.structured_empty QueryNode.inert_known none true .add) acts
      (fun edit member => (admitted edit member).1.admitted_known (admitted edit member).2) ran
    obtain ⟨structuredAfter, nested, again⟩ :=
      reconcile_again Query.reopens_nested structured made
    refine ⟨nested, fun second same => ⟨again (.refl after) rfl same, ?_⟩⟩
    intro clause key id placed put
    have puts := Query.puts_place structuredAfter rfl put
    exact again (puts.widens.retains structuredAfter.numbered) puts.scope same
  · intro acts aggs ran parent inner mapping first after made
    have sound := Aggregations.sound_acts (Aggregations.sound_empty none true).1 acts ran
    obtain ⟨numbered, nested, again⟩ :=
      reconcile_again Aggregations.reopens_markers sound.numbered made
    refine ⟨nested, fun second same => ⟨again (.refl after) rfl same, ?_⟩⟩
    intro node key id tree put
    have planted : Planted after.tree inner id node (after.withTree tree).tree :=
      planted_insert numbered put
    obtain ⟨holder, got⟩ := planted.holder
    exact again (Aggregations.retains_planted numbered planted) (planted.currentScope got) same

def everythingRun : List (Act Query.Step Position) :=
  [.own (.edit (.insert (.typed "match_all" (.object [])) {}))]

def everything : LeafClause := ⟨⟨"match_all", .fieldless, .any⟩, none, []⟩

def pricesRun : List (Act Aggregations.Step Nat) :=
  [.own (.operate (.add (.named "prices" "histogram" (.object [("field", .string "price")])) none))]

/-- From the top, a name in the cast leads past two `nested` clauses and a `bool` around the clause
that was at the top; from a bucket, past two markers. -/
theorem reconcile_idempotent_cast : ∃ mapping, Mapping.ofJson Crossing.castDeclaration = .ok mapping ∧
    (∃ query after id placed, everythingRun.foldlM (Act.apply Query.Step.apply) {} = .ok query ∧
      reconcile query .top "cast.roles.name" mapping true = .ok (.slot 5 "query", after) ∧
      after.place (.slot 5 "query") (.leaf everything) none = .ok (id, placed) ∧
      query.tree.nodes.length = 1 ∧ placed.tree.nodes.length = 8 ∧
      reconcile placed .top "cast.roles.name.raw" mapping true = .ok (.slot 5 "query", placed)) ∧
    ∃ aggs after id tree, pricesRun.foldlM (Act.apply Aggregations.Step.apply) {} = .ok aggs ∧
      reconcile aggs 1 "cast.roles.name" mapping true = .ok (3, after) ∧
      after.tree.insert (.clause (.ofBoundary (.exit none))) 3 (some "back") = .ok (id, tree) ∧
      aggs.tree.nodes.length = 2 ∧ tree.nodes.length = 5 ∧
      reconcile { after with tree := tree } 1 "cast.roles.name.raw" mapping true =
        .ok (3, { after with tree := tree }) := by
  obtain ⟨mapping, read, checked⟩ := Result.ok_of_any
    (show (Mapping.ofJson Crossing.castDeclaration).toOption.any (fun mapping =>
      ((mapping.nestedScopes "cast.roles.name.raw").toOption.any (· = ["cast.roles", "cast"]) &&
        (mapping.nestedScopes "cast.roles.name").toOption.any (· = ["cast.roles", "cast"])) &&
      ((everythingRun.foldlM (Act.apply Query.Step.apply) {}).toOption.any fun query =>
        (reconcile query .top "cast.roles.name" mapping true).toOption.any fun reached =>
          (reached.2.place reached.1 (.leaf everything) none).toOption.any fun made =>
            reached.1 = .slot 5 "query" && query.tree.nodes.length = 1 &&
              made.2.tree.nodes.length = 8) &&
      (pricesRun.foldlM (Act.apply Aggregations.Step.apply) {}).toOption.any fun aggs =>
        (reconcile aggs 1 "cast.roles.name" mapping true).toOption.any fun reached =>
          (reached.2.tree.insert (.clause (.ofBoundary (.exit none))) reached.1
            (some "back")).toOption.any fun made =>
              reached.1 = 3 && aggs.tree.nodes.length = 2 && made.2.nodes.length = 5) = true by
      decide +kernel)
  simp only [Bool.and_eq_true] at checked
  obtain ⟨⟨⟨inner, outer⟩, checkedQuery⟩, checkedAggs⟩ := checked
  obtain ⟨scopes, found, shown⟩ := Result.ok_of_any inner
  obtain ⟨others, listed, same⟩ := Result.ok_of_any outer
  have alike : mapping.nestedScopes "cast.roles.name.raw" = mapping.nestedScopes "cast.roles.name" := by
    rw [found, listed, of_decide_eq_true shown, of_decide_eq_true same]
  obtain ⟨query, ran, checkedQuery⟩ := Result.ok_of_any checkedQuery
  obtain ⟨⟨position, after⟩, made, checkedQuery⟩ := Result.ok_of_any checkedQuery
  obtain ⟨⟨id, placed⟩, put, counted⟩ := Result.ok_of_any checkedQuery
  obtain ⟨aggs, aggsRan, checkedAggs⟩ := Result.ok_of_any checkedAggs
  obtain ⟨⟨parent, grown⟩, opened, checkedAggs⟩ := Result.ok_of_any checkedAggs
  obtain ⟨⟨last, tree⟩, inserted, numbered⟩ := Result.ok_of_any checkedAggs
  simp only [Bool.and_eq_true, decide_eq_true_eq] at counted numbered
  obtain ⟨⟨rfl, one⟩, eight⟩ := counted
  obtain ⟨⟨rfl, two⟩, five⟩ := numbered
  have admitted : ∀ edit, Act.own (.edit edit) ∈ everythingRun →
      edit.input.Accepted ∧ edit.input.Registered := by
    simp [everythingRun, Query.Edit.input, Query.Input.Accepted, Query.Input.Registered]
  refine ⟨mapping, read, ⟨query, after, id, placed, ran, made, put, one, eight, ?_⟩,
    aggs, grown, last, tree, aggsRan, opened, inserted, two, five, ?_⟩
  · exact ((reconcile_idempotent.1 _ query admitted ran _ _ mapping _ after made).2 _ alike).2 _ _ id
      placed put
  · exact ((reconcile_idempotent.2 _ aggs aggsRan _ _ mapping _ grown opened).2 _ alike).2 _ _ last
      tree inserted

end ScopedClauses
