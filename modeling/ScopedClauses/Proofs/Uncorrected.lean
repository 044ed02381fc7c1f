import ScopedClauses.Proofs.Aggregation.Overtaking
import ScopedClauses.Proofs.Aggregation.Uncorrected
import ScopedClauses.Proofs.Query.Uncorrected

/-!
Autocorrection acts only where an operation would fail without it.
-/

namespace ScopedClauses

open Rose Tree

namespace Aggregations

def Operation.inserts? : Operation → Option Input
  | .add input _ | .groupBy input _ => some input
  | _ => none

def markerLabel (label : Keyed AggNode) : Option (Keyed AggNode) :=
  label.content.boundary?.map fun _ => label

theorem apply_twins {α : Type} {view : Keyed AggNode → Option α} {start : Tree AggNode}
    {new : Multiset α} {aggs other : Aggregations} (twins : Twins view start new aggs other)
    {operation : Operation} {input : Input} (inserts : operation.inserts? = some input)
    {request : Option (Shape AggNode)} (read : input.read = .ok request) :
    Result.Echoes (Twins view start (new + shown view request.toList)) (operation.apply aggs)
      (operation.apply other) := by
  cases operation with
  | ofJson json => cases inserts
  | groupedBy name => cases inserts
  | add given name =>
      cases inserts
      exact add_twins twins read name
  | groupBy given name =>
      cases inserts
      exact groupBy_twins twins read name

theorem read_of_apply {operation : Operation} {input : Input}
    (inserts : operation.inserts? = some input) {aggs final : Aggregations}
    (applied : operation.apply aggs = .ok final) : ∃ request, input.read = .ok request := by
  cases operation with
  | ofJson json => cases inserts
  | groupedBy name => cases inserts
  | add given name =>
      cases inserts
      obtain ⟨request, _, read, _⟩ := add_ok applied
      exact ⟨request, read⟩
  | groupBy given name =>
      cases inserts
      obtain ⟨request, _, read, _⟩ := groupBy_ok applied
      exact ⟨request, read⟩

end Aggregations

/-- An operation that succeeds without autocorrection has the same result with it, numbers, keys,
contents and order included, and every clause of the result that enters or leaves a scope was
there or came with the input. A clause that others were merged onto enters its own scope or that
of the clause merged onto it. -/
theorem correction_idle :
    (∀ (query final : Query) (edit : Query.Edit), query.Whole →
      edit.apply { query with autocorrect := false } = .ok final →
      edit.apply { query with autocorrect := true } = .ok { final with autocorrect := true } ∧
      ∃ incoming, edit.input.read = .ok incoming ∧
        (edit.merges = false →
          shown Query.nestedClause final.tree.shape?.toList ≤
            shown Query.nestedClause query.tree.shape?.toList +
              shown Query.nestedClause incoming.toList) ∧
        ((∀ shape clause, incoming = some shape → shape.label.content = .compound clause →
            clause.body.keys.Nodup) →
          shown Query.entrance final.tree.shape?.toList ≤
            shown Query.entrance query.tree.shape?.toList +
              shown Query.entrance incoming.toList)) ∧
    ∀ (aggs final : Aggregations) (operation : Aggregations.Operation) (input : Aggregations.Input),
      Aggregations.Whole aggs.tree → operation.inserts? = some input →
      operation.apply { aggs with autocorrect := false } = .ok final →
      operation.apply { aggs with autocorrect := true } = .ok { final with autocorrect := true } ∧
      ∃ request, input.read = .ok request ∧
        shown Aggregations.markerLabel final.tree.shape?.toList ≤
          shown Aggregations.markerLabel aggs.tree.shape?.toList +
            shown Aggregations.markerLabel request.toList := by
  constructor
  · intro query final edit whole applied
    obtain ⟨incoming, read⟩ := Query.read_of_apply applied
    have start : ∀ {α : Type} (view : Keyed QueryNode → Option α),
        Twins view query.tree 0 { query with autocorrect := false }
          { query with autocorrect := true } := fun _ => ⟨rfl, rfl, .refl whole.numbered⟩
    -- a view of nothing: what is merged does not matter to whether the runs agree
    have blind : Query.Overlooks fun _ => (none : Option Unit) := ⟨fun _ _ => rfl, rfl⟩
    obtain ⟨other, echoed, twins⟩ := Query.apply_twins blind (start _) edit read
      (fun _ _ _ _ _ _ _ _ _ _ _ => Multiset.zero_le _) final applied
    refine ⟨?_, incoming, read, fun separate => ?_, fun once => ?_⟩
    · rw [echoed, twins.same]
      rfl
    · obtain ⟨_, _, twins⟩ := Query.apply_twins Query.overlooks_nestedClause (start _) edit read
        (fun merges => absurd merges (by simp [separate])) final applied
      exact twins.rooted whole.settled
    · obtain ⟨_, _, twins⟩ := Query.apply_twins Query.overlooks_entrance (start _) edit read
        (fun _ shape added same content => Query.blends_entrance (once shape added same content))
        final applied
      exact twins.rooted whole.settled
  · intro aggs final operation input whole inserts applied
    obtain ⟨request, read⟩ := Aggregations.read_of_apply inserts applied
    have start : Twins Aggregations.markerLabel aggs.tree 0 { aggs with autocorrect := false }
        { aggs with autocorrect := true } := ⟨rfl, rfl, .refl whole.numbered⟩
    obtain ⟨other, echoed, twins⟩ := Aggregations.apply_twins start inserts read final applied
    refine ⟨?_, request, read, ?_⟩
    · rw [echoed, twins.same]
      rfl
    · exact twins.rooted whole.settled

def genderInRoles : Query.Edit :=
  .insert (.document (Query.nestedTerm "roles" "roles.gender" "F")) {}

def rolesBelowPrices : Aggregations.Operation := .groupBy Aggregations.rolesChain (some "prices")

theorem correction_idle_roles :
    (∃ final, genderInRoles.apply { mapping := some Query.offersMapping, autocorrect := false } =
        .ok final ∧
      genderInRoles.apply { mapping := some Query.offersMapping, autocorrect := true } =
        .ok { final with autocorrect := true } ∧
      shown Query.entrance final.tree.shape?.toList ≤ {some "roles"}) ∧
    ∃ aggs final, Aggregations.genderBelowPrices.foldlM Aggregations.Operation.apply
        { mapping := some Aggregations.castMapping } = .ok aggs ∧
      rolesBelowPrices.apply { aggs with autocorrect := false } = .ok final ∧
      rolesBelowPrices.apply { aggs with autocorrect := true } =
        .ok { final with autocorrect := true } ∧
      final.tree.nodes.filterMap Rose.key = ["prices", "roles", "again", "by_gender"] := by
  constructor
  · have made : (genderInRoles.apply
        { mapping := some Query.offersMapping, autocorrect := false }).toOption.any
        (fun _ => true) = true := by decide +kernel
    have entered : genderInRoles.input.read.toOption.any (fun incoming =>
        decide (shown Query.entrance incoming.toList = {some "roles"})) = true := by decide +kernel
    have distinct : genderInRoles.input.distinct = true := by decide +kernel
    obtain ⟨final, applied, _⟩ := Result.ok_of_any made
    obtain ⟨incoming, read, enters⟩ := Result.ok_of_any entered
    rw [decide_eq_true_eq] at enters
    obtain ⟨also, given, reads, _, paths⟩ := correction_idle.1
      { mapping := some Query.offersMapping } final genderInRoles ⟨numbered_empty, rfl⟩ applied
    cases read.symm.trans reads
    refine ⟨final, applied, also, (paths ?_).trans (enters ▸ le_of_eq (zero_add _))⟩
    rintro shape clause rfl content
    obtain ⟨_, ⟨⟩, plain⟩ := Query.plain_of_read distinct read
    exact plain.distinct clause content
  · have outcome : (Aggregations.genderBelowPrices.foldlM Aggregations.Operation.apply
        { mapping := some Aggregations.castMapping }).toOption.any (fun aggs =>
          (rolesBelowPrices.apply { aggs with autocorrect := false }).toOption.any fun final =>
            decide (final.tree.nodes.filterMap Rose.key =
              ["prices", "roles", "again", "by_gender"])) = true := by
      decide +kernel
    obtain ⟨aggs, ran, outcome⟩ := Result.ok_of_any outcome
    obtain ⟨final, applied, keys⟩ := Result.ok_of_any outcome
    have whole := (Aggregations.names_run
      (Aggregations.sound_empty (some Aggregations.castMapping) true).1 _ ran).1.toWhole
    exact ⟨aggs, final, ran, applied,
      (correction_idle.2 aggs final rolesBelowPrices _ whole rfl applied).1,
      of_decide_eq_true keys⟩

end ScopedClauses
