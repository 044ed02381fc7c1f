import ScopedClauses.Proofs.Aggregation.Steps
import ScopedClauses.Proofs.Tree.Hanging

/-!
Where a clause is settled. From the position it was wanted at, markers lead to a position in the
scope of its field; they are children of one another, and the branch grew by them only.
-/

namespace ScopedClauses

namespace Aggregations

open Rose Tree

/-- Whether a node that is no marker stands in the scope of its field, if it has one. -/
def Placed (mapping : Mapping) (node : AggNode) (scope : Option String) : Prop :=
  node.boundary? = none → ∀ field, node.field? = some field → mapping.nestedAt field = .ok scope

instance (mapping : Mapping) (node : AggNode) (scope : Option String) :
    Decidable (Placed mapping node scope) :=
  match marks : node.boundary?, named : node.field? with
  | some _, _ => .isTrue fun plain => by rw [marks] at plain; cases plain
  | none, none => .isTrue fun _ field held => by rw [named] at held; cases held
  | none, some field =>
      match nested : mapping.nestedAt field with
      | .error _ => .isFalse fun placed => by
          have here := placed marks field named
          rw [nested] at here
          cases here
      | .ok found =>
          if same : found = scope then
            .isTrue fun _ other held => by
              rw [named] at held
              cases held
              rw [nested, same]
          else
            .isFalse fun placed => by
              have here := placed marks field named
              rw [nested] at here
              exact same (Except.ok.inj here)

theorem within_boundary {outer : Option String} {node : AggNode} {boundary : Boundary}
    (marks : node.boundary? = some boundary) : within outer node = boundary.inside := by
  simp [within, Scoped.boundary?, marks]

theorem within_plain {outer : Option String} {node : AggNode} (plain : node.boundary? = none) :
    within outer node = outer := by
  simp [within, Scoped.boundary?, plain]

theorem placed_boundary {mapping : Mapping} {node : AggNode} {boundary : Boundary}
    (marks : node.boundary? = some boundary) (scope : Option String) : Placed mapping node scope :=
  fun plain => by rw [marks] at plain; cases plain

theorem boundary?_ofBoundary (boundary : Boundary) :
    (AggClause.ofBoundary boundary).boundary? = some boundary := by
  cases boundary with
  | enter path => rfl
  | exit target => cases target <;> rfl

theorem existingMarker?_ok {aggs : Aggregations} (numbered : aggs.tree.Numbered)
    {holder : Branch AggNode} (member : holder ∈ aggs.tree.live) {boundary : Boundary} {id : Nat}
    (found : aggs.existingMarker? holder.id boundary = some id) :
    ∃ child ∈ holder.children, child.id = id ∧ child.content.boundary? = some boundary := by
  simp only [existingMarker?, findChild?, childBranches_of_live numbered member,
    Option.map_eq_some_iff] at found
  obtain ⟨child, found, rfl⟩ := found
  exact ⟨child, List.mem_of_find?_eq_some found, rfl, by simpa using List.find?_some found⟩

structure Reached (mapping : Mapping) (around : Option String) (aggs : Aggregations)
    (old : Branch AggNode) (final : Aggregations) (new here : Branch AggNode)
    (scope : Option String) : Prop where
  same : final = aggs.withTree final.tree
  grows : Grows (Placed mapping) around aggs.tree old new final.tree
  site : ∃ inner, (here, inner) ∈ sites around [new] ∧ within inner here.content = scope
  way : ∃ markers, lineage here.id [new] = markers ++ [old.label] ∧
    ∀ marker ∈ markers, marker.content.boundary?.isSome
  passed : ∀ number ∈ numbers [new],
    number ∈ numbers [old] ∨ number ∈ (lineage here.id [new]).map Entry.id
  spares : Spares old new

section Settling

variable {mapping : Mapping} {around scope : Option String} {aggs final grown : Aggregations}
  {old new here : Branch AggNode} {id : Nat} {content : AggClause} {name : String}

theorem Reached.refl (whole : Whole aggs.tree) (member : old ∈ aggs.tree.live) :
    Reached mapping around aggs old aggs old old (within around old.content) := by
  obtain ⟨label, children⟩ := old
  exact ⟨rfl, .refl whole.numbered member, ⟨around, top_site (by simp), rfl⟩,
    ⟨[], lineage_here label children [], by simp⟩, fun _ => Or.inl, .refl _⟩

theorem Reached.insertNode (reached : Reached mapping around aggs old final new here scope)
    (whole : Whole aggs.tree) (member : old ∈ aggs.tree.live)
    (placed : final.insertNode content here.id name = .ok (id, grown))
    (fits : Placed mapping (.clause content) (within scope (AggNode.clause content))) :
    ∃ more, grown = aggs.withTree grown.tree ∧ aggs.tree.next ≤ id ∧
      Grows (Placed mapping) around aggs.tree old more grown.tree ∧
      (bud (some name) (.clause content) id, scope) ∈ sites around [more] ∧
      lineage id [more] = ⟨⟨some name, .clause content⟩, id⟩ :: lineage here.id [new] ∧
      Spares old more ∧ ∀ number ∈ numbers [more], number ∈ numbers [old] ∨
        number ∈ (lineage id [more]).map Entry.id := by
  obtain ⟨inner, site, rfl⟩ := reached.site
  have wholeFinal := whole.regrown reached.grows.toRegrown member
  have liveNew := reached.grows.live_new whole.numbered member
  have within := mem_of_site site
  have liveHere := live_of_branches liveNew within
  obtain ⟨holder, liveHolder, after, sameId, rfl, rfl, regrown⟩ :=
    insertNode_ok wholeFinal.numbered placed
  obtain rfl := eq_of_id wholeFinal.numbered.distinct liveHolder liveHere sameId
  have growth := (Grows.bud regrown fits).inside wholeFinal.numbered liveNew site
  have only : numbers [bud (some name) (AggNode.clause content) final.tree.next] =
      [final.tree.next] := by simp [bud]
  have fresh : ∀ number ∈ numbers [bud (some name) (AggNode.clause content) final.tree.next],
      number ∉ numbers [new] := by
    intro number last present
    rw [only, List.mem_singleton] at last
    have bound := wholeFinal.numbered.bounded number
      ((sublist_numbers final.tree.branches liveNew).subset present)
    omega
  have line : lineage final.tree.next [putAt holder.id
      (extended holder (bud (some name) (.clause content) final.tree.next)) new] =
      ⟨⟨some name, .clause content⟩, final.tree.next⟩ :: lineage holder.id [new] := by
    rw [← updateAt_singleton, lineage_hung reached.grows.distinct within fresh, only,
      if_pos (List.mem_singleton_self _), lineage_bud]
    rfl
  obtain ⟨markers, way, marked⟩ := reached.way
  rw [← reached.grows.grown.label] at way
  have spares : Spares old (putAt holder.id (extended holder (bud (some name) (.clause content)
      final.tree.next)) new) := reached.spares.trans <|
    spares_putAt reached.grows.distinct within way marked fun _ => List.mem_append_left _
  refine ⟨_, ?_, reached.grows.later, reached.grows.trans growth whole.numbered member, ?_, line,
    spares, fun number inside => ?_⟩
  · rw [reached.same]
    rfl
  · rw [← updateAt_singleton]
    refine site_updateAt around [new] reached.grows.distinct site ?_
    rw [extended, sites_cons]
    exact List.mem_cons_of_mem _ (List.mem_append_left _ (top_site (by simp)))
  · rw [line, List.map_cons, List.mem_cons]
    have old := fun (kept : number ∈ numbers [new]) => (reached.passed number kept).imp_right
      fun onWay => Or.inr (a := number = final.tree.next) onWay
    rcases mem_numbers_putAt reached.grows.distinct within inside with kept | added
    · exact old kept
    · rw [numbers_extended] at added
      rcases List.mem_append.mp added with kept | last
      · exact old ((sublist_numbers [new] within).subset kept)
      · exact Or.inr (Or.inl (by simpa [bud] using last))

theorem Reached.existing (reached : Reached mapping around aggs old final new here scope)
    (whole : Whole aggs.tree) (member : old ∈ aggs.tree.live) {boundary : Boundary}
    (found : final.existingMarker? here.id boundary = some id) :
    ∃ next, next.id = id ∧ Reached mapping around aggs old final new next boundary.inside := by
  obtain ⟨inner, site, rfl⟩ := reached.site
  have wholeFinal := whole.regrown reached.grows.toRegrown member
  have liveNew := reached.grows.live_new whole.numbered member
  have inNew := mem_of_site site
  obtain ⟨child, below, rfl, marks⟩ :=
    existingMarker?_ok wholeFinal.numbered (live_of_branches liveNew inNew) found
  obtain ⟨markers, way, all⟩ := reached.way
  have line := lineage_child reached.grows.distinct inNew below
  refine ⟨child, rfl, reached.same, reached.grows,
    ⟨_, child_site around [new] site below, within_boundary marks⟩, ⟨child.label :: markers, ?_, ?_⟩,
    fun number inside => (reached.passed number inside).imp_right fun onWay => ?_, reached.spares⟩
  · rw [line, way]
    rfl
  · have marked : child.label.content.boundary?.isSome := by
      rw [show child.label.content.boundary? = some boundary from marks]
      rfl
    simpa [marked] using all
  · rw [line]
    exact List.mem_cons_of_mem _ onWay

theorem Reached.opened (reached : Reached mapping around aggs old final new here scope)
    (whole : Whole aggs.tree) (member : old ∈ aggs.tree.live) {boundary : Boundary}
    (placed : final.insertNode (AggClause.ofBoundary boundary) here.id name = .ok (id, grown)) :
    ∃ more next, next.id = id ∧
      Reached mapping around aggs old grown more next boundary.inside := by
  have marks : (AggNode.clause (AggClause.ofBoundary boundary)).boundary? = some boundary :=
    boundary?_ofBoundary boundary
  obtain ⟨more, same, _, grows, site, way, spares, passed⟩ :=
    reached.insertNode whole member placed (placed_boundary marks _)
  obtain ⟨markers, wayHere, all⟩ := reached.way
  refine ⟨more, _, rfl, same, grows, ⟨scope, site, within_boundary marks⟩, ⟨_ :: markers,
    by rw [show Rose.id (bud _ _ id) = id from rfl, way, wayHere]; rfl, ?_⟩, passed, spares⟩
  simpa [marks] using all

theorem reached_reconcile (whole : Whole aggs.tree)
    (site : (old, around) ∈ sites none aggs.tree.branches) {field : String} {autocorrect : Bool}
    (made : reconcile aggs old.id field mapping autocorrect = .ok (id, final)) :
    ∃ new here scope, here.id = id ∧ Reached mapping around aggs old final new here scope ∧
      mapping.nestedAt field = .ok scope := by
  have member := mem_of_site site
  let Holds := fun (scope : Option String) (reached : Aggregations) (position : Nat) =>
    ∃ new here, here.id = position ∧ Reached mapping around aggs old reached new here scope
  have ends : ∃ scope, Holds scope final id ∧ mapping.nestedAt field = .ok scope := by
    refine reconcile_along ?_ ?_ ?_ made
    · rintro scope boundary reached position next ⟨new, here, rfl, standing⟩ found
      obtain ⟨child, same, further⟩ := standing.existing whole member found
      exact ⟨new, child, same, further⟩
    · rintro scope boundary reached position next grown ⟨new, here, rfl, standing⟩ _ placed
      exact standing.opened whole member placed
    · exact ⟨old, old, rfl, currentScope_of_site whole.numbered site ▸ .refl whole member⟩
  obtain ⟨scope, ⟨new, here, same, reached⟩, nested⟩ := ends
  exact ⟨new, here, scope, same, reached, nested⟩

theorem reached_resettle (whole : Whole aggs.tree)
    (site : (old, around) ∈ sites none aggs.tree.branches) (bound : aggs.mapping = some mapping)
    {node : AggNode} (settled : aggs.resettle old.id node = .ok (id, final)) :
    ∃ new here scope, here.id = id ∧ Reached mapping around aggs old final new here scope ∧
      Placed mapping node (within scope node) ∧
      (node.field? = none → new = old ∧ here = old) := by
  rcases resettle_ok settled with ⟨rfl, rfl, unbound⟩ | ⟨own, field, mapped, named, made⟩
  · refine ⟨old, old, _, rfl, .refl whole (mem_of_site site), fun _ field named => ?_,
      fun _ => ⟨rfl, rfl⟩⟩
    rcases unbound with none | unnamed
    · rw [bound] at none
      cases none
    · rw [unnamed] at named
      cases named
  · rw [bound] at mapped
    cases mapped
    obtain ⟨new, here, scope, same, reached, nested⟩ := reached_reconcile whole site made
    refine ⟨new, here, scope, same, reached, fun plain other known => ?_, fun unnamed => ?_⟩
    · rw [named] at known
      cases known
      rw [within_plain plain]
      exact nested
    · rw [named] at unnamed
      cases unnamed

end Settling

end Aggregations

end ScopedClauses
