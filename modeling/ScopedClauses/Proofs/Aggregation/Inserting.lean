import ScopedClauses.Proofs.Aggregation.Settling

/-!
Inserting clauses with everything below them. The branch that they are inserted below grows by
clauses in the scopes of their fields; the way to the inserted one leads through markers.
-/

namespace ScopedClauses

namespace Aggregations

open Rose Tree

variable {mapping : Mapping}

structure Extended (mapping : Mapping) (around : Option String) (aggs : Aggregations)
    (old : Branch AggNode) (final : Aggregations) (new : Branch AggNode) : Prop where
  same : final = aggs.withTree final.tree
  grows : Grows (Placed mapping) around aggs.tree old new final.tree

theorem Extended.refl {around : Option String} {aggs : Aggregations} {old : Branch AggNode}
    (whole : Whole aggs.tree) (member : old ∈ aggs.tree.live) :
    Extended mapping around aggs old aggs old :=
  ⟨rfl, .refl whole.numbered member⟩

theorem Extended.trans {around : Option String} {aggs middle final : Aggregations}
    {old mid new : Branch AggNode} (first : Extended mapping around aggs old middle mid)
    (second : Extended mapping around middle mid final new) (whole : Whole aggs.tree)
    (member : old ∈ aggs.tree.live) : Extended mapping around aggs old final new := by
  refine ⟨?_, first.grows.trans second.grows whole.numbered member⟩
  rw [second.same, first.same]
  rfl

/-- An inserted clause: the branch grew, and the way to the clause leads through markers. All that
is new lies on this way or below the clause. -/
structure Inserted (mapping : Mapping) (around : Option String) (aggs : Aggregations)
    (old : Branch AggNode) (final : Aggregations) (new : Branch AggNode) (id : Nat) : Prop
    extends Extended mapping around aggs old final new where
  fresh : aggs.tree.next ≤ id
  way : ∃ entry markers, lineage id [new] = entry :: (markers ++ [old.label]) ∧
    ∀ marker ∈ markers, marker.content.boundary?.isSome
  passed : ∀ number ∈ numbers [new], number ∈ numbers [old] ∨
    number ∈ (lineage id [new]).map Entry.id ∨ id ∈ (lineage number [new]).map Entry.id
  spares : Spares old new

mutual

theorem inserted_insertShape {aggs final : Aggregations} {old : Branch AggNode}
    {around : Option String} {id : Nat} :
    ∀ shape, Whole aggs.tree → aggs.mapping = some mapping →
      (old, around) ∈ sites none aggs.tree.branches →
      aggs.insertShape old.id shape = .ok (id, final) →
      ∃ new, Inserted mapping around aggs old final new id
  | .node entry below, whole, bound, site, made => by
      have member := mem_of_site site
      obtain ⟨name, content, position, settled, grown, _, _, _, settles, placed, rest⟩ :=
        insertShape_ok made
      obtain ⟨new, here, scope, rfl, reached, fits, _⟩ :=
        reached_resettle whole site bound (resettle_of_settle settles)
      obtain ⟨more, same, fresh, grows, twig, way, spares, passed⟩ :=
        reached.insertNode whole member placed fits
      obtain ⟨markers, wayHere, all⟩ := reached.way
      have wholeGrown := whole.regrown grows.toRegrown member
      have liveMore := grows.live_new whole.numbered member
      have twigSite := grows.site whole.numbered site twig
      obtain ⟨leafed, extended⟩ := inserted_insertShapes below wholeGrown
        (by rw [same]; exact bound) twigSite rest
      have growth := extended.grows.inside wholeGrown.numbered liveMore twig
      have present : id ∈ numbers [more] := id_mem_numbers (mem_of_site twig)
      have further := growth.grown.lines id present
      have unknown : id ∉ numbers [old] := fun inside => by
        have bound := whole.numbered.bounded id ((sublist_numbers _ member).subset inside)
        omega
      refine ⟨_, ⟨?_, grows.trans growth whole.numbered member⟩, fresh,
        ⟨_, markers, by rw [further, way, wayHere], all⟩, fun number inside => ?_,
        spares.at_new grows.distinct (mem_of_site twig) grows.grown.id_eq unknown⟩
      · rw [extended.same, same]
        rfl
      · have leaf := mem_updateAt [more] grows.distinct (mem_of_site twig) (self_mem leafed)
        rw [updateAt_singleton] at leaf
        rcases mem_numbers_putAt grows.distinct (mem_of_site twig) inside with kept | added
        · rw [further]
          exact (passed number kept).imp_right Or.inl
        · have below := (passes_iff growth.distinct leaf).mpr added
          rw [extended.grows.grown.id_eq] at below
          exact Or.inr (Or.inr below)

theorem inserted_insertShapes {aggs final : Aggregations} {old : Branch AggNode}
    {around : Option String} :
    ∀ shapes, Whole aggs.tree → aggs.mapping = some mapping →
      (old, around) ∈ sites none aggs.tree.branches →
      aggs.insertShapes old.id shapes = .ok final →
      ∃ new, Extended mapping around aggs old final new
  | [], whole, _, site, made => by
      cases Result.pure_ok.mp made
      exact ⟨old, .refl whole (mem_of_site site)⟩
  | shape :: rest, whole, bound, site, made => by
      have member := mem_of_site site
      obtain ⟨id, grown, first, later⟩ := insertShapes_ok made
      obtain ⟨mid, inserted⟩ := inserted_insertShape shape whole bound site first
      have grows := inserted.grows
      rw [← grows.grown.id_eq] at later
      obtain ⟨new, extended⟩ := inserted_insertShapes rest
        (whole.regrown grows.toRegrown member) (by rw [inserted.same]; exact bound)
        (grows.site_new whole.numbered site) later
      exact ⟨new, inserted.toExtended.trans extended whole member⟩

end

end Aggregations

end ScopedClauses
