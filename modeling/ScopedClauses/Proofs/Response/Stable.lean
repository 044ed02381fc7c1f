import ScopedClauses.Proofs.Aggregation.Standing
import ScopedClauses.Proofs.Response.Selecting

/-!
The query of a bucket is the one that was assembled. A condition is stated in the scope of its
field and takes the types that the aggregation takes, so that nothing is left to correct.
-/

namespace ScopedClauses

namespace Weaving

open Rose QueryNode

section Stable

variable {mapping : Mapping} {scope : Option String}

end Stable

end Weaving

namespace Selection

open Weaving

variable {fragments : List Fragment} {scopes : List String} {mapping : Mapping}

end Selection

/-! ### Conditions of buckets -/

namespace Mapping

end Mapping

namespace Condition

open Weaving Aggregations

section Stable

variable {mapping : Mapping} {clause : AggClause} {scope : Option String} {field : String}

end Stable

end Condition

namespace Aggregations

open Rose Tree

theorem Standing.stands {mapping : Mapping} {aggs : Aggregations} (standing : Standing mapping aggs)
    {name : String} {id : Nat} {clause : AggClause} (found : aggs.idOf name = .ok id)
    (known : aggs.clause name = .ok clause) :
    ∃ around, Stands mapping clause around ∧
      aggs.tree.currentScope id = within around (AggNode.clause clause) := by
  rw [Aggregations.clause, found, Result.ok_bind] at known
  obtain ⟨node, got, known⟩ := Result.bind_ok.mp known
  obtain ⟨branch, member, rfl, rfl⟩ := live_of_get got
  obtain ⟨outer, way, _⟩ := lineage_of_mem standing.whole.numbered.distinct member
  have upright := standing.upright branch.id
  rw [currentScope_eq_scopeOn, way, scopeOn_cons]
  rw [way] at upright
  cases outer with
  | nil =>
      have root : branch.content = .root := congrArg Keyed.content upright
      simp [root, AggNode.clause?, Result.throw_ok] at known
  | cons holder rest =>
      obtain ⟨_, own, content, keyed, stands⟩ := upright
      have held : branch.content = .clause content := congrArg Keyed.content keyed
      simp only [held, AggNode.clause?, Result.pure_ok] at known
      subst known
      exact ⟨_, stands, congrArg (within _) held⟩

end Aggregations

namespace Response

open Aggregations Weaving

section Stable

variable {mapping : Mapping} {aggs : Aggregations} {bucket : Bucket} {clause : AggClause}

end Stable

end Response

end ScopedClauses
