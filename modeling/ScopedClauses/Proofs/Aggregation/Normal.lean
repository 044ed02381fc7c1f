import ScopedClauses.Proofs.Aggregation.Exact
import ScopedClauses.Proofs.Aggregation.Standing
import ScopedClauses.Proofs.Mapping.Paths

/-!
Placing aggregations is idempotent. What additions leave in a request stands in its scope already,
so reading its declaration again, with the same mapping, opens no scope.
-/

namespace ScopedClauses

open Rose Tree

theorem Mapping.isNested_of_opens {mapping : Mapping}
    (distinct : (mapping.declared.map (·.2.path)).Nodup) {path : String}
    (opens : mapping.Opens path) : mapping.isNested path = true := by
  rcases opens with nested | ⟨field, scopes, found, listed⟩
  · exact nested
  · obtain ⟨entry, member, rfl, nested⟩ := nested_of_nestedScopes found listed
    rw [isNested_of_declared distinct member, nested]

namespace AggNode

open Aggregations

/-! ### Reading what was written -/

theorem clauseJson_declares {clause : AggClause} (readable : clause.Readable) (written : Members) :
    ∃ declared : Members, clauseJson clause written = .object declared ∧ declared.keys.Nodup ∧
      Declares declared clause ∧ levelBelow declared = .object written := by
  obtain ⟨registered, path⟩ := readable
  obtain ⟨notAggs, notAggregations, notMeta⟩ := AggKind.tag_apart registered
  refine ⟨_, clauseJson_eq registered written, ?_, ⟨?_, registered,
    fun tagged => AggClause.isSome_stringAt.mp (path tagged), ?_, ?_⟩, ?_⟩
  all_goals cases clause.annotation <;> cases written <;>
    simp [Members.lookup_member, levelBelow, isTyped, isBelow, isChildrenKey, notAggs,
      notAggregations, notMeta, Ne.symm notMeta]

theorem readMembers_written {given : Option Mapping} {parent : AggNode} {scope : Option String}
    {shapes : List (Shape AggNode)} (rests : Rests given parent scope shapes)
    (readable : AllReadable shapes) {used : List String}
    (unused : ((namesOf shapes).reverse ++ used).Nodup) :
    readMembers parent used (toMembers shapes) =
      .ok (shapes, (namesOf shapes).reverse ++ used) := by
  induction rests generalizing used with
  | nil => rfl
  | @cons parent scope name clause children shapes fits steady below beside ihBelow ihBeside =>
      obtain ⟨own, readableBelow, readableBeside⟩ := allReadable_cons.mp readable
      obtain ⟨declared, made, unique, declares, here⟩ :=
        clauseJson_declares (own clause rfl) (toMembers children)
      rw [namesOf_cons, reverse_names] at unused ⊢
      have tail := unused.of_append_right
      have fresh : name ∉ used := (List.nodup_cons.mp tail.of_append_right).1
      rw [toMembers, ownMembers]
      dsimp only
      rw [made]
      exact readMembers_cons unique declares fits here fresh (ihBelow readableBelow tail)
        (ihBeside readableBeside unused)

end AggNode

namespace Aggregations

open AggNode

section

variable {mapping : Mapping} {aggs : Aggregations}
  (distinct : (mapping.declared.map (·.2.path)).Nodup)

include distinct

theorem Stands.steady {clause : AggClause} {scope : Option String}
    (stands : Stands mapping clause scope) : Steady (some mapping) clause scope := by
  constructor
  · rintro _ ⟨⟩ path leads
    exact Mapping.isNested_of_opens distinct (stands.leads path leads)
  · rintro _ ⟨⟩
    exact stands.checked

theorem Standing.rests (standing : Standing mapping aggs) (forest : List (Branch AggNode))
    {holder : Entry AggNode} {outward : List (Entry AggNode)}
    (member : ∀ branch ∈ preorderAll forest, branch ∈ aggs.tree.live)
    (ways : ∀ branch ∈ forest,
      lineage branch.id aggs.tree.branches = branch.label :: holder :: outward) :
    Rests (some mapping) holder.content (scopeOn (holder :: outward)) (shapes forest) := by
  induction forest using forestInduction generalizing holder outward with
  | nil => exact .nil
  | cons label children rest ihBelow ihBeside =>
      have way := ways (.node label children) List.mem_cons_self
      have upright := standing.upright (Rose.id (.node label children))
      rw [way] at upright
      obtain ⟨hosts, name, clause, same, stands⟩ := upright
      have live := member (.node label children) (by simp)
      have below := ihBelow
        (fun branch inside => member branch (by simp [inside]))
        (fun child inside => by
          rw [lineage_child standing.whole.numbered.distinct live inside, way])
      have beside := ihBeside
        (fun branch inside => member branch (by simp [inside]))
        (fun branch inside => ways branch (List.mem_cons_of_mem _ inside))
      obtain ⟨keyed, number⟩ := label
      obtain rfl : keyed = ⟨some name, .clause clause⟩ := same
      rw [scopeOn_cons] at below
      exact .cons (checkChild_of_hosts hosts clause 0) (stands.steady distinct) below beside

theorem Standing.shape (standing : Standing mapping aggs) :
    ∃ shapes, aggs.tree.shape? = some (.node ⟨none, .root⟩ shapes) ∧
      Rests (some mapping) .root none shapes ∧
      namesOf shapes = aggs.tree.nodes.filterMap Rose.key := by
  obtain ⟨⟨label, children⟩, rooted⟩ := Option.isSome_iff_exists.mp standing.rooted
  have branches : aggs.tree.branches = [.node label children] := by
    rw [branches_of_settled standing.whole.settled, rooted, Option.toList_some]
  have live : .node label children ∈ aggs.tree.live := by
    rw [Tree.live, branches]
    exact self_mem _
  have top : lineage label.id aggs.tree.branches = [label] := by
    rw [branches, lineage_here]
  have upright := standing.upright label.id
  rw [top] at upright
  have rests := standing.rests distinct children
    (fun branch inside => live_of_branches live (by simp [inside]))
    (fun child inside => by
      rw [lineage_child standing.whole.numbered.distinct live inside]
      exact congrArg _ top)
  obtain ⟨keyed, number⟩ := label
  obtain rfl : keyed = ⟨none, .root⟩ := upright
  refine ⟨shapes children, ?_, rests, ?_⟩
  · rw [shape?, rooted, Option.map_some, shape_node]
  · rw [namesOf_shapes, entries, List.filterMap_map, nodes, rooted, Option.toList_some,
      preorderAll_cons, preorderAll_nil, List.append_nil, List.filterMap_cons_none rfl]
    rfl

end

/-- Placing what was placed changes nothing: where no field has a dot in its name, the declaration
of a request that was built by reading and adding, and that names its clauses apart, is read as a
request of the same declaration and as many nodes. -/
theorem ofJson_normal {declaration : Json} (distinct : declaration.distinct = true)
    {mapping : Mapping} (read : Mapping.ofJson declaration = .ok mapping)
    (undotted : mapping.Undotted) {start final : Aggregations} (begun : Begun mapping start)
    (additions : List Addition) (readable : ∀ addition ∈ additions, addition.input.Readable)
    (ran : additions.foldlM Addition.apply start = .ok final)
    (unique : (final.tree.nodes.filterMap Rose.key).Nodup) :
    ∃ again, Aggregations.ofJson final.toJson (some mapping) = .ok again ∧
      again.toJson = final.toJson ∧ again.tree.shape? = final.tree.shape? ∧
      again.tree.len = final.tree.len := by
  have standing := begun.standing.run additions readable ran
  obtain ⟨shapes, shown, rests, names⟩ :=
    standing.shape (Mapping.paths_distinct distinct read undotted)
  have legible : AllReadable shapes := by
    have readable := standing.readable_tree
    rwa [shown] at readable
  rw [← names] at unique
  have written : final.toJson = .object (toMembers shapes) := by
    rw [toJson, declarationOf, shown]
    rfl
  have members := readMembers_written rests legible
    (show ((namesOf shapes).reverse ++ []).Nodup by
      rwa [List.append_nil, List.nodup_reverse])
  have parsed : AggNode.ofJson final.toJson = .ok (.node ⟨none, .root⟩ shapes) := by
    rw [written, AggNode.ofJson, readLevel, members]
    rfl
  obtain ⟨again, made, same⟩ := ofJson_settled parsed rests unique
  have shapesEq : again.tree.shape? = final.tree.shape? := by
    rw [same, shape?_ofShape, shown]
  refine ⟨again, made, ?_, shapesEq, len_eq_of_shape? shapesEq⟩
  rw [toJson, toJson, declarationOf, declarationOf, shapesEq]

def studioAddition : Addition :=
  ⟨.named "studios" "terms" (.object [("field", .string "studio.name")]), some "by_gender", true⟩

theorem ofJson_normal_studios :
    ∃ mapping final again, Mapping.ofJson Mapping.filmDeclaration = .ok mapping ∧
      mapping.Undotted ∧
      [genderAddition, studioAddition].foldlM Addition.apply { mapping := some mapping } =
        .ok final ∧
      final.tree.nodes.filterMap Rose.key =
        ["nested_below_root", "by_gender", "reverse_nested_below_by_gender", "studios"] ∧
      Aggregations.ofJson final.toJson (some mapping) = .ok again ∧
      again.toJson = final.toJson ∧ again.tree.shape? = final.tree.shape? ∧
      again.tree.len = final.tree.len := by
  have outcome : (Mapping.ofJson Mapping.filmDeclaration).toOption.any (fun mapping =>
      decide mapping.Undotted &&
        ([genderAddition, studioAddition].foldlM Addition.apply
          { mapping := some mapping }).toOption.any fun final =>
            decide (final.tree.nodes.filterMap Rose.key =
              ["nested_below_root", "by_gender", "reverse_nested_below_by_gender",
                "studios"])) = true := by
    decide +kernel
  obtain ⟨mapping, read, outcome⟩ := Result.ok_of_any outcome
  obtain ⟨undotted, outcome⟩ := Bool.and_eq_true_iff.mp outcome
  obtain ⟨final, ran, named⟩ := Result.ok_of_any outcome
  rw [decide_eq_true_eq] at undotted named
  have readable : ∀ addition ∈ [genderAddition, studioAddition], addition.input.Readable := by
    simp [genderAddition, genderTerms, studioAddition, Input.Readable]
  obtain ⟨again, facts⟩ := ofJson_normal (by decide +kernel) read undotted (.empty true)
    [genderAddition, studioAddition] readable ran (by rw [named]; decide)
  exact ⟨mapping, final, again, read, undotted, ran, named, facts⟩

end Aggregations

end ScopedClauses
