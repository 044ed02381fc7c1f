import ScopedClauses.Proofs.Aggregation.Displacing
import ScopedClauses.Proofs.Aggregation.Names
import ScopedClauses.Proofs.Tree.Above

/-!
Requests built by any operations. A clause on a field stands in the scope of its field, or below
a clause that stands in any scope and that was moved together with what is below it.
-/

namespace ScopedClauses

namespace Aggregations

open Rose Tree

/-! ### Ways -/

def scopeOn (way : List (Entry AggNode)) : Option String :=
  (way.findSome? fun entry => entry.content.boundary?).bind Boundary.inside

theorem scopeOn_cons (entry : Entry AggNode) (outer : List (Entry AggNode)) :
    scopeOn (entry :: outer) = within (scopeOn outer) entry.content := by
  rw [scopeOn, List.findSome?_cons]
  cases marks : entry.content.boundary? with
  | some boundary => exact (within_boundary marks).symm
  | none => exact (within_plain marks).symm

theorem scopeOn_congr {front first second : List (Entry AggNode)}
    (same : scopeOn first = scopeOn second) : scopeOn (front ++ first) = scopeOn (front ++ second) := by
  induction front with
  | nil => exact same
  | cons entry rest ih => rw [List.cons_append, List.cons_append, scopeOn_cons, scopeOn_cons, ih]

theorem currentScope_eq_scopeOn (tree : Tree AggNode) (id : Nat) :
    tree.currentScope id = scopeOn (lineage id tree.branches) :=
  currentScope_eq_lineage tree id

def free (node : AggNode) : Bool := node.clause?.isSome && loose node

structure Orderly (mapping : Mapping) (way : List (Entry AggNode)) : Prop where
  rooted : ∀ last ∈ way.getLast?, last.content = .root
  placed : (∃ entry ∈ way, free entry.content = true) ∨
    ∀ entry ∈ way.head?, Placed mapping entry.content (scopeOn way)

section Orderly

variable {mapping : Mapping} {entry : Entry AggNode} {front outer further : List (Entry AggNode)}

theorem orderly_nil : Orderly mapping [] :=
  ⟨fun _ none => (by cases none), Or.inr fun _ none => (by cases none)⟩

theorem Orderly.cons (orderly : Orderly mapping outer) (more : outer ≠ [])
    (fits : Placed mapping entry.content (within (scopeOn outer) entry.content)) :
    Orderly mapping (entry :: outer) := by
  refine ⟨?_, Or.inr fun first here => ?_⟩
  · obtain ⟨next, rest, rfl⟩ := List.exists_cons_of_ne_nil more
    rw [List.getLast?_cons_cons]
    exact orderly.rooted
  · cases here
    rw [scopeOn_cons]
    exact fits

/-- A branch that is moved stays in order when its head is in order in its new place, and no
clause is lost that stands in any scope. -/
theorem Orderly.rehung (inside : Orderly mapping (front ++ entry :: outer))
    (top : Orderly mapping (entry :: outer)) (clause : entry.content.clause?.isSome = true)
    (orderly : Orderly mapping further) (more : further ≠ [])
    (cover : ∀ passed ∈ outer, free passed.content = true → passed ∈ further)
    (fits : Placed mapping entry.content (within (scopeOn further) entry.content)) :
    Orderly mapping (front ++ entry :: further) := by
  refine ⟨?_, ?_⟩
  · obtain ⟨next, rest, rfl⟩ := List.exists_cons_of_ne_nil more
    rw [List.getLast?_append, List.getLast?_cons_cons]
    cases last : (next :: rest).getLast? with
    | none => simp at last
    | some found => exact fun same here => orderly.rooted same (by rw [last]; exact here)
  · by_cases sheltered : ∃ passed ∈ front ++ entry :: outer, free passed.content = true
    · obtain ⟨passed, onWay, stands⟩ := sheltered
      refine Or.inl ⟨passed, ?_, stands⟩
      simp only [List.mem_append, List.mem_cons] at onWay ⊢
      rcases onWay with before | here | after
      · exact Or.inl before
      · exact Or.inr (Or.inl here)
      · exact Or.inr (Or.inr (cover passed after stands))
    · refine Or.inr fun first here => ?_
      have placed := inside.placed.resolve_left sheltered
      have start : (front ++ entry :: outer).head? = some first := by
        cases front <;> exact here
      -- the head is on a field or a marker: its scope is decided by it, before the move and after
      have same : scopeOn (entry :: outer) = scopeOn (entry :: further) := by
        rw [scopeOn_cons, scopeOn_cons]
        cases marks : entry.content.boundary? with
        | some boundary => rw [within_boundary marks, within_boundary marks]
        | none =>
            have bare : free entry.content ≠ true := fun stands =>
              sheltered ⟨entry, by simp, stands⟩
            cases named : entry.content.field? with
            | none => simp [free, loose, clause, named, marks] at bare
            | some field =>
                have apart : ¬∃ passed ∈ entry :: outer, free passed.content = true := by
                  rintro ⟨passed, onWay, stands⟩
                  exact sheltered ⟨passed, List.mem_append_right _ onWay, stands⟩
                have old := top.placed.resolve_left apart entry rfl marks field named
                have new := fits marks field named
                rw [scopeOn_cons] at old
                rw [old] at new
                exact Except.ok.inj new
      rw [← scopeOn_congr same]
      exact placed first start

end Orderly

/-! ### Requests in order -/

structure Ordered (mapping : Mapping) (aggs : Aggregations) : Prop where
  whole : Whole aggs.tree
  bound : aggs.mapping = some mapping
  orderly : ∀ number, Orderly mapping (lineage number aggs.tree.branches)

structure Carried (mapping : Mapping) (moved : List Nat) (aggs final : Aggregations) : Prop where
  ordered : Ordered mapping final
  keeps : ∀ number ∈ numbers aggs.tree.branches,
    (∀ entry ∈ lineage number aggs.tree.branches, entry.id ∉ moved) →
      lineage number final.tree.branches = lineage number aggs.tree.branches

theorem mem_numbers_of_lineage {number : Nat} {forest : List (Branch AggNode)}
    {entry : Entry AggNode} {outer : List (Entry AggNode)}
    (way : lineage number forest = entry :: outer) : number ∈ numbers forest :=
  Decidable.byContradiction fun absent => by
    rw [lineage_of_not_mem absent] at way
    cases way

theorem mem_numbers_of_same {number : Nat} {before after : List (Branch AggNode)}
    (same : lineage number after = lineage number before) (live : number ∈ numbers before) :
    number ∈ numbers after := by
  obtain ⟨entry, outer, way, _⟩ := lineage_head live
  exact mem_numbers_of_lineage (same.trans way)

section Steps

variable {mapping : Mapping} {aggs middle final : Aggregations} {moved later : List Nat}
  {parent id inner here : Nat} {content : AggClause} {name : String}

theorem Carried.refl (ordered : Ordered mapping aggs) : Carried mapping moved aggs aggs :=
  ⟨ordered, fun _ _ _ => rfl⟩

theorem Carried.trans (first : Carried mapping moved aggs middle)
    (second : Carried mapping later middle final) : Carried mapping (moved ++ later) aggs final := by
  refine ⟨second.ordered, fun number live apart => ?_⟩
  have same := first.keeps number live fun entry onWay listed =>
    apart entry onWay (List.mem_append_left _ listed)
  rw [second.keeps number (mem_numbers_of_same same live), same]
  rw [same]
  exact fun entry onWay listed => apart entry onWay (List.mem_append_right _ listed)

structure Passage (mapping : Mapping) (aggs : Aggregations) (parent : Nat) (final : Aggregations)
    (here : Nat) : Prop extends Carried mapping [] aggs final where
  way : ∃ passed, lineage here final.tree.branches =
    passed ++ lineage parent aggs.tree.branches

theorem Carried.kept (carried : Carried mapping [] aggs final) {number : Nat}
    (live : number ∈ numbers aggs.tree.branches) :
    lineage number final.tree.branches = lineage number aggs.tree.branches :=
  carried.keeps number live fun _ _ listed => by cases listed

theorem Passage.refl (ordered : Ordered mapping aggs) : Passage mapping aggs parent aggs parent :=
  ⟨.refl ordered, [], rfl⟩

theorem Passage.trans (first : Passage mapping aggs parent middle here)
    (second : Passage mapping middle here final inner) : Passage mapping aggs parent final inner := by
  obtain ⟨front, way⟩ := first.way
  obtain ⟨further, wayOn⟩ := second.way
  exact ⟨first.toCarried.trans second.toCarried, further ++ front, by
    rw [wayOn, way, List.append_assoc]⟩

theorem Ordered.insertNode (ordered : Ordered mapping aggs)
    (made : aggs.insertNode content parent name = .ok (id, final))
    (fits : Placed mapping (.clause content)
      (within (scopeOn (lineage parent aggs.tree.branches)) (AggNode.clause content))) :
    Passage mapping aggs parent final id ∧
      lineage id final.tree.branches =
        ⟨⟨some name, .clause content⟩, id⟩ :: lineage parent aggs.tree.branches := by
  have numbered := ordered.whole.numbered
  obtain ⟨holder, member, after, rfl, new, rfl, regrown⟩ := insertNode_ok numbered made
  have ways := regrown.lineage_bud numbered member new
  have more : lineage holder.id aggs.tree.branches ≠ [] := fun none =>
    (lineage_eq_nil_iff _).mp none (id_mem_numbers member)
  have here := ways id
  rw [if_pos rfl] at here
  refine ⟨⟨⟨⟨ordered.whole.regrown regrown member, ordered.bound, fun number => ?_⟩,
    fun number live _ => ?_⟩, [_], here⟩, here⟩
  · rw [tree_withTree, ways]
    split
    · exact (ordered.orderly holder.id).cons more fits
    · exact ordered.orderly number
  · rw [tree_withTree, ways, if_neg]
    rintro rfl
    have bound := numbered.bounded number live
    omega

theorem existingMarker?_way (numbered : aggs.tree.Numbered) {boundary : Boundary}
    (found : aggs.existingMarker? parent boundary = some id) :
    ∃ marker, lineage id aggs.tree.branches = marker :: lineage parent aggs.tree.branches ∧
      scopeOn (lineage id aggs.tree.branches) = boundary.inside := by
  cases holds : aggs.tree.find? parent with
  | none => simp [existingMarker?, findChild?, childBranches, holds] at found
  | some holder =>
      obtain ⟨member, rfl⟩ := live_of_find? holds
      obtain ⟨child, below, rfl, marks⟩ := existingMarker?_ok numbered member found
      have way := lineage_child numbered.distinct member below
      refine ⟨child.label, way, ?_⟩
      rw [way, scopeOn_cons]
      exact within_boundary marks

theorem Ordered.existing (ordered : Ordered mapping aggs) {boundary : Boundary}
    (found : aggs.existingMarker? parent boundary = some id) :
    Passage mapping aggs parent aggs id ∧
      scopeOn (lineage id aggs.tree.branches) = boundary.inside := by
  obtain ⟨marker, way, scope⟩ := existingMarker?_way ordered.whole.numbered found
  exact ⟨⟨.refl ordered, [marker], way⟩, scope⟩

theorem Ordered.reconcile (ordered : Ordered mapping aggs) {field : String} {autocorrect : Bool}
    (made : reconcile aggs parent field mapping autocorrect = .ok (id, final)) :
    Passage mapping aggs parent final id ∧
      mapping.nestedAt field = .ok (scopeOn (lineage id final.tree.branches)) := by
  let Holds := fun (scope : Option String) (reached : Aggregations) (position : Nat) =>
    Passage mapping aggs parent reached position ∧
      scopeOn (lineage position reached.tree.branches) = scope
  have ends : ∃ scope, Holds scope final id ∧ mapping.nestedAt field = .ok scope := by
    refine reconcile_along ?_ ?_ ?_ made
    · rintro scope boundary reached position next ⟨passage, _⟩ found
      obtain ⟨further, inside⟩ := passage.ordered.existing found
      exact ⟨passage.trans further, inside⟩
    · rintro scope boundary reached position next grown ⟨passage, _⟩ _ placed
      have marks : (AggNode.clause (AggClause.ofBoundary boundary)).boundary? = some boundary :=
        boundary?_ofBoundary boundary
      obtain ⟨further, way⟩ := passage.ordered.insertNode placed (placed_boundary marks _)
      exact ⟨passage.trans further, by rw [way, scopeOn_cons, within_boundary marks]⟩
    · exact ⟨.refl ordered, (currentScope_eq_scopeOn aggs.tree parent).symm⟩
  obtain ⟨scope, ⟨passage, rfl⟩, nested⟩ := ends
  exact ⟨passage, nested⟩

theorem Ordered.resettle (ordered : Ordered mapping aggs) {node : AggNode}
    (settled : aggs.resettle parent node = .ok (id, final)) :
    Passage mapping aggs parent final id ∧
      Placed mapping node (within (scopeOn (lineage id final.tree.branches)) node) := by
  rcases resettle_ok settled with ⟨rfl, rfl, unbound⟩ | ⟨own, field, mapped, named, made⟩
  · refine ⟨.refl ordered, fun _ field named => ?_⟩
    rw [ordered.bound] at unbound
    rw [unbound.resolve_left (by simp)] at named
    cases named
  · rw [ordered.bound] at mapped
    cases mapped
    obtain ⟨passage, nested⟩ := ordered.reconcile made
    refine ⟨passage, fun plain other known => ?_⟩
    rw [named] at known
    cases known
    rw [within_plain plain]
    exact nested

/-! ### Insertion -/

mutual

theorem Ordered.insertShape {aggs final : Aggregations} {parent id : Nat} :
    ∀ shape, Ordered mapping aggs → aggs.insertShape parent shape = .ok (id, final) →
      Carried mapping [] aggs final ∧ ∃ entry passed, lineage id final.tree.branches =
        entry :: (passed ++ lineage parent aggs.tree.branches)
  | .node entry below, ordered, made => by
      obtain ⟨name, content, position, settled, grown, _, _, _, settles, placed, rest⟩ :=
        insertShape_ok made
      obtain ⟨passage, fits⟩ := ordered.resettle (resettle_of_settle settles)
      obtain ⟨further, way⟩ := passage.ordered.insertNode placed fits
      have filled := Ordered.insertShapes below further.ordered rest
      obtain ⟨passed, wayHere⟩ := passage.way
      refine ⟨(passage.trans further).toCarried.trans filled,
        ⟨⟨some name, .clause content⟩, id⟩, passed, ?_⟩
      rw [filled.kept (mem_numbers_of_lineage way), way, wayHere]

theorem Ordered.insertShapes {aggs final : Aggregations} {parent : Nat} :
    ∀ shapes, Ordered mapping aggs → aggs.insertShapes parent shapes = .ok final →
      Carried mapping [] aggs final
  | [], ordered, made => by
      cases Result.pure_ok.mp made
      exact .refl ordered
  | shape :: rest, ordered, made => by
      obtain ⟨id, grown, first, later⟩ := insertShapes_ok made
      obtain ⟨carried, _⟩ := Ordered.insertShape shape ordered first
      exact carried.trans (Ordered.insertShapes rest carried.ordered later)

end

/-! ### Relocation -/

theorem outside_of_way {forest : List (Branch AggNode)} (distinct : (numbers forest).Nodup)
    {branch : Branch AggNode} (member : branch ∈ preorderAll forest) {number : Nat}
    (apart : ∀ entry ∈ lineage number forest, entry.id ∉ [branch.id]) :
    number ∉ numbers [branch] := by
  intro inside
  obtain ⟨entry, onWay, same⟩ := List.mem_map.mp ((passes_iff distinct member).mpr inside)
  exact apart entry onWay (List.mem_singleton.mpr same)

theorem Ordered.move (ordered : Ordered mapping aggs) {target : Nat} {after : Tree AggNode}
    (done : aggs.tree.move id target = (after, .ok ())) {entry : Entry AggNode}
    {outer : List (Entry AggNode)} (way : lineage id aggs.tree.branches = entry :: outer)
    (cover : ∀ passed ∈ outer, free passed.content = true →
      passed ∈ lineage target aggs.tree.branches)
    (fits : Placed mapping entry.content
      (within (scopeOn (lineage target aggs.tree.branches)) entry.content)) :
    Carried mapping [id] aggs (aggs.withTree after) := by
  have numbered := ordered.whole.numbered
  obtain ⟨branch, holder, rfl, rfl, moved⟩ := move_ok numbered ordered.whole.settled done
  have ways := moved.lineage numbered
  obtain ⟨outward, top, _⟩ := lineage_of_mem numbered.distinct moved.member
  obtain ⟨rfl, rfl⟩ := List.cons.inj (top.symm.trans way)
  have clause : branch.content.clause?.isSome = true := by
    cases held : branch.content with
    | clause content => rfl
    | root =>
        have taken := moved.taken
        rw [held] at taken
        cases holder.content <;> cases taken
  have liveHolder : holder.id ∈ numbers aggs.tree.branches :=
    (mem_pruneAt numbered.distinct moved.member (id_mem_numbers moved.outside)).1
  have more : lineage holder.id aggs.tree.branches ≠ [] := fun none =>
    (lineage_eq_nil_iff _).mp none liveHolder
  refine ⟨⟨⟨moved.numbered_after numbered, moved.settled⟩, ordered.bound, fun number => ?_⟩,
    fun number _ apart => ?_⟩
  · rw [tree_withTree, ways]
    split
    · rename_i inside
      have before := ordered.orderly number
      rw [lineage_inside numbered.distinct moved.member inside, way, List.tail_cons] at before
      obtain ⟨front, split⟩ := lineage_singleton inside
      rw [split, List.append_assoc, List.singleton_append] at before ⊢
      have topOrder := ordered.orderly branch.id
      rw [way] at topOrder
      exact before.rehung topOrder clause (ordered.orderly holder.id) more cover fits
    · exact ordered.orderly number
  · rw [tree_withTree, ways, if_neg (outside_of_way numbered.distinct moved.member apart)]

theorem Ordered.remove (ordered : Ordered mapping aggs) {removed after : Tree AggNode}
    (done : aggs.tree.remove id = .ok (removed, after)) :
    Carried mapping [id] aggs (aggs.withTree after) := by
  have numbered := ordered.whole.numbered
  obtain ⟨branch, member, rfl, branches, settled, next, _⟩ :=
    remove_ok numbered ordered.whole.settled done
  have pruned := distinct_pruneAt numbered.distinct member
  refine ⟨⟨⟨⟨by rw [tree_withTree, branches]; exact pruned, fun number present => ?_⟩, settled⟩,
    ordered.bound, fun number => ?_⟩, fun number _ apart => ?_⟩
  · rw [tree_withTree, branches] at present
    rw [tree_withTree, next]
    exact numbered.bounded number (mem_pruneAt numbered.distinct member present).1
  · rw [tree_withTree, branches]
    by_cases inside : number ∈ numbers [branch]
    · rw [lineage_of_not_mem fun present =>
        (mem_pruneAt numbered.distinct member present).2 inside]
      exact orderly_nil
    · rw [lineage_pruneAt numbered.distinct member inside]
      exact ordered.orderly number
  · rw [tree_withTree, branches]
    exact lineage_pruneAt numbered.distinct member
      (outside_of_way numbered.distinct member apart)

end Steps

structure Hanging (aggs : Aggregations) (target : Nat) (outer : List (Entry AggNode))
    (branches : List (Branch AggNode)) : Prop where
  distinct : (numbers branches).Nodup
  lines : ∀ number ∈ numbers branches,
    lineage number aggs.tree.branches = lineage number branches ++ outer
  off : ∀ branch ∈ branches, ∀ entry ∈ lineage target aggs.tree.branches, entry.id ≠ branch.id
  live : target ∈ numbers aggs.tree.branches
  cover : ∀ passed ∈ outer, free passed.content = true →
    passed ∈ lineage target aggs.tree.branches

section Relocating

variable {mapping : Mapping} {aggs middle final : Aggregations} {target : Nat}
  {outer : List (Entry AggNode)} {entry : Entry AggNode} {branch : Branch AggNode}
  {below rest : List (Branch AggNode)}

namespace Hanging

theorem distinct_head (hanging : Hanging aggs target outer (branch :: rest)) :
    (numbers [branch]).Nodup ∧ (numbers rest).Nodup ∧
      ∀ number ∈ numbers [branch], number ∉ numbers rest := by
  have distinct := hanging.distinct
  rw [numbers_cons_eq, List.nodup_append] at distinct
  exact ⟨distinct.1, distinct.2.1, fun number inside present =>
    distinct.2.2 number inside number present rfl⟩

theorem way_head (hanging : Hanging aggs target outer (branch :: rest)) :
    lineage branch.id aggs.tree.branches = branch.label :: outer := by
  obtain ⟨label, children⟩ := branch
  rw [id_node, hanging.lines label.id (by simp), lineage_here]
  rfl

theorem head (hanging : Hanging aggs target outer (branch :: rest)) :
    Hanging aggs target outer [branch] := by
  refine ⟨hanging.distinct_head.1, fun number inside => ?_, fun own listed => ?_, hanging.live,
    hanging.cover⟩
  · have known : number ∈ numbers (branch :: rest) := by
      rw [numbers_cons_eq]
      exact List.mem_append_left _ inside
    rw [hanging.lines number known, ← List.singleton_append, lineage_append_left rest inside]
  · rw [List.mem_singleton.mp listed]
    exact hanging.off branch (by simp)

theorem tail (hanging : Hanging aggs target outer (branch :: rest)) (whole : Whole aggs.tree)
    (keeps : ∀ number ∈ numbers aggs.tree.branches,
      (∀ entry ∈ lineage number aggs.tree.branches, entry.id ∉ [branch.id]) →
        lineage number middle.tree.branches = lineage number aggs.tree.branches) :
    Hanging middle target outer rest := by
  obtain ⟨_, distinct, apart⟩ := hanging.distinct_head
  have aside := keeps target hanging.live fun entry onWay listed =>
    hanging.off branch (by simp) entry onWay (List.mem_singleton.mp listed)
  refine ⟨distinct, fun number inside => ?_, fun own listed => ?_,
    mem_numbers_of_same aside hanging.live, fun passed onWay stands => ?_⟩
  · have absent : number ∉ numbers [branch] := fun present => apart number present inside
    have way : lineage number aggs.tree.branches = lineage number rest ++ outer := by
      rw [hanging.lines number (by rw [numbers_cons_eq]; exact List.mem_append_right _ inside),
        ← List.singleton_append, lineage_append_right rest absent]
    have live : number ∈ numbers aggs.tree.branches := by
      obtain ⟨entry, outward, start, _⟩ := lineage_head inside
      rw [start] at way
      exact mem_numbers_of_lineage way
    rw [keeps number live fun entry onWay listed => ?_, way]
    rw [List.mem_singleton] at listed
    rw [way] at onWay
    rcases List.mem_append.mp onWay with inRest | above
    · exact apart branch.id (id_mem_numbers (self_mem branch))
        (listed ▸ id_mem_of_mem_lineage inRest)
    · have once := lineage_nodup whole.numbered.distinct branch.id
      rw [hanging.way_head, List.map_cons, List.nodup_cons] at once
      exact once.1 (List.mem_map.mpr ⟨entry, above, listed⟩)
  · rw [aside]
    exact hanging.off own (List.mem_cons_of_mem _ listed)
  · rw [aside]
    exact hanging.cover passed onWay stands

theorem passes_above (hanging : Hanging aggs target outer [.node entry below])
    (whole : Whole aggs.tree) {child : Branch AggNode} (member : child ∈ below) {number : Nat}
    {passed : Entry AggNode} (onWay : passed ∈ lineage number aggs.tree.branches)
    (same : passed.id = child.id) : entry ∈ lineage number aggs.tree.branches := by
  have inside : child.id ∈ numbers below := id_mem_numbers (mem_preorderAll_of_mem member)
  have apart : entry.id ≠ child.id := fun here =>
    (distinct_cons hanging.distinct).1 (here ▸ inside)
  obtain ⟨front, back, way⟩ := List.append_of_mem onWay
  have rest := lineage_suffix whole.numbered.distinct way
  rw [same, hanging.lines child.id (by simp [inside]), lineage_below apart inside] at rest
  rw [way, ← rest]
  simp

theorem inner (hanging : Hanging aggs target outer [.node entry below]) (whole : Whole aggs.tree)
    (bare : free entry.content = false) : Hanging aggs target (entry :: outer) below := by
  obtain ⟨absent, _, distinct, _⟩ := distinct_cons hanging.distinct
  refine ⟨distinct, fun number inside => ?_, fun child member passed onWay same => ?_,
    hanging.live, fun passed onWay stands => ?_⟩
  · have apart : entry.id ≠ number := fun here => absent (here ▸ inside)
    rw [hanging.lines number (by simp [inside]), lineage_below apart inside]
    simp
  · exact hanging.off (.node entry below) (by simp) entry
      (hanging.passes_above whole member onWay same) rfl
  · rcases List.mem_cons.mp onWay with rfl | above
    · rw [bare] at stands
      cases stands
    · exact hanging.cover passed above stands

end Hanging

theorem free_of_isIdle {node : AggNode} (idle : aggs.isIdle target node = true) :
    free node = false := by
  unfold isIdle at idle
  split at idle
  · rename_i path marks
    simp [free, loose, marks]
  · cases idle

/-- A marker of the scope at the target: what it held is moved, and then the marker goes. -/
theorem Ordered.dissolve {emptied : Aggregations} {removed after : Tree AggNode}
    (ordered : Ordered mapping aggs) (hanging : Hanging aggs target outer [.node entry below])
    (emptying : Carried mapping (below.map Rose.id) aggs emptied)
    (done : emptied.tree.remove entry.id = .ok (removed, after)) :
    Carried mapping [entry.id] aggs (emptied.withTree after) := by
  have carried := emptying.trans (emptying.ordered.remove done)
  refine ⟨carried.ordered, fun number live apart => carried.keeps number live ?_⟩
  intro passed onWay listed
  -- a way past a child of the marker passes the marker
  rcases List.mem_append.mp listed with deeper | here
  · obtain ⟨child, member, same⟩ := List.mem_map.mp deeper
    refine apart entry (hanging.passes_above ordered.whole member onWay same.symm) ?_
    exact List.mem_singleton.mpr rfl
  · exact apart passed onWay here

theorem Ordered.relocateAll {branches : List (Branch AggNode)} (ordered : Ordered mapping aggs)
    (hanging : Hanging aggs target outer branches)
    (made : aggs.relocateAll target branches = .ok final) :
    Carried mapping (branches.map Rose.id) aggs final := by
  let Moves := fun (branches : List (Branch AggNode)) (first last : Aggregations) =>
    ∀ outer, Ordered mapping first → Hanging first target outer branches →
      Carried mapping (branches.map Rose.id) first last
  have moves : Moves branches aggs final := by
    refine relocateAll_along ?_ ?_ ?_ ?_ made
    · exact fun _ ordered _ => .refl ordered
    · intro branch rest first middle last moved others outer ordered hanging
      have moving := moved outer ordered hanging.head
      exact moving.trans (others outer moving.ordered (hanging.tail ordered.whole moving.keeps))
    · intro entry below first emptied removed after idle emptying done outer ordered hanging
      have inner := hanging.inner ordered.whole (free_of_isIdle idle)
      exact ordered.dissolve hanging (emptying _ ordered inner) done
    · intro entry below first destination settled after settles done outer ordered hanging
      have way := hanging.way_head
      obtain ⟨passage, fits⟩ := ordered.resettle settles
      obtain ⟨markers, wayOn⟩ := passage.way
      have live := mem_numbers_of_lineage way
      have stays := (passage.kept live).trans way
      refine passage.toCarried.trans (passage.ordered.move done stays ?_ fits)
      intro passed above stands
      rw [wayOn]
      exact List.mem_append_right _ (hanging.cover passed above stands)
  exact moves outer ordered hanging

end Relocating

/-! ### Displacement -/

theorem mem_takeWhile_before {ids front back : List Nat} {stop first second : Nat}
    (once : ids.Nodup) (split : ids = front ++ first :: second :: back)
    (listed : second ∈ ids.takeWhile (· ≠ stop) ++ [stop]) :
    first ∈ ids.takeWhile (· ≠ stop) := by
  induction ids generalizing front with
  | nil => simp at split
  | cons id rest ih =>
      obtain ⟨fresh, onceRest⟩ := List.nodup_cons.mp once
      by_cases here : id = stop
      · have stops : second = id := by simpa [here] using listed
        cases front with
        | nil =>
            obtain ⟨rfl, rfl⟩ := List.cons.inj split
            exact absurd (by simp [stops]) fresh
        | cons other front =>
            obtain ⟨rfl, rfl⟩ := List.cons.inj split
            exact absurd (by simp [stops]) fresh
      · have passes : (decide (id ≠ stop)) = true := by simpa using here
        rw [List.takeWhile_cons, if_pos passes] at listed ⊢
        cases front with
        | nil =>
            obtain ⟨rfl, _⟩ := List.cons.inj split
            exact List.mem_cons_self
        | cons other front =>
            obtain ⟨rfl, splitRest⟩ := List.cons.inj split
            have further : second ≠ id := fun same => fresh (by rw [splitRest]; simp [same])
            refine List.mem_cons_of_mem _ (ih onceRest splitRest ?_)
            rw [List.cons_append, List.mem_cons] at listed
            exact listed.resolve_left further

def Covered (way : List (Entry AggNode)) (holding : List Nat) (inserted : Nat) : Prop :=
  ∀ front back child holder, way = front ++ child :: holder :: back → holder.id ∈ holding →
    child.id ∈ holding ∨ child.id = inserted

theorem lineage_top {forest : List (Branch AggNode)} (distinct : (numbers forest).Nodup)
    {branch : Branch AggNode} (member : branch ∈ forest) :
    lineage branch.id forest = [branch.label] := by
  obtain ⟨front, back, rfl⟩ := List.append_of_mem member
  obtain ⟨label, children⟩ := branch
  rw [numbers_append, List.nodup_append] at distinct
  have absent : label.id ∉ numbers front := fun present =>
    distinct.2.2 label.id present label.id (by simp) rfl
  rw [id_node, lineage_append_right _ absent, lineage_here]
  rfl

section Displacing

variable {mapping : Mapping} {aggs final : Aggregations} {before holding : List Nat}
  {inserted : Nat} {way : List (Entry AggNode)}

theorem hanging_displaced (whole : Whole aggs.tree)
    (here : lineage inserted aggs.tree.branches = way) (live : way ≠ [])
    (covered : Covered way holding inserted) {holder : Nat} (listed : holder ∈ holding)
    (above : holder ∈ way.map Entry.id) :
    Hanging aggs inserted (lineage holder aggs.tree.branches)
      (displaced aggs.tree before holding inserted holder) := by
  have distinct := whole.numbered.distinct
  obtain ⟨entry, onWay, rfl⟩ := List.mem_map.mp above
  obtain ⟨front, back, split⟩ := List.append_of_mem onWay
  have rest := lineage_suffix distinct (here.trans split)
  obtain ⟨branch, member, same⟩ := exists_of_mem_numbers (mem_numbers_of_lineage rest)
  rw [← same]
  have children := childBranches_of_live whole.numbered member
  have part := (numbers_children_sublist branch).trans (sublist_numbers _ member)
  have once : (numbers (displaced aggs.tree before holding inserted branch.id)).Nodup := by
    rw [displaced, children]
    exact distinct.sublist ((numbers_filter_sublist _ _).trans part)
  have top : ∀ child ∈ displaced aggs.tree before holding inserted branch.id,
      child ∈ aggs.tree.live ∧
        lineage child.id aggs.tree.branches = child.label :: lineage branch.id aggs.tree.branches ∧
        Aside before holding inserted child.id := by
    intro child chosen
    obtain ⟨below, aside⟩ := mem_displaced.mp chosen
    rw [children] at below
    exact ⟨mem_preorderAll_trans _ member (mem_preorderAll_of_mem below),
      lineage_child distinct member below, aside⟩
  refine ⟨once, fun number inside => ?_, fun child chosen passed onWay same' => ?_, ?_,
    fun passed onOuter _ => ?_⟩
  · obtain ⟨deep, within, rfl⟩ := exists_of_mem_numbers inside
    obtain ⟨head, chosen, inHead⟩ := exists_top within
    obtain ⟨liveHead, wayHead, _⟩ := top head chosen
    have present := id_mem_numbers inHead
    rw [lineage_inside distinct liveHead present, wayHead,
      lineage_inside once (mem_preorderAll_of_mem chosen) present, lineage_top once chosen]
    simp
  · obtain ⟨_, wayChild, aside⟩ := top child chosen
    rw [here] at onWay
    obtain ⟨ahead, behind, parts⟩ := List.append_of_mem onWay
    have onward := lineage_suffix distinct (here.trans parts)
    rw [same', wayChild, same, rest] at onward
    obtain ⟨rfl, rfl⟩ := List.cons.inj onward
    -- a child on the way from the inserted clause is a holder itself, or the clause
    rcases covered ahead back child.label entry parts listed with holds | self
    · exact aside.off holds
    · exact aside.other self
  · refine Decidable.byContradiction fun absent => live ?_
    rw [← here, lineage_of_not_mem absent]
  · rw [same, rest] at onOuter
    rw [here, split]
    exact List.mem_append_right _ onOuter

theorem Ordered.displace (ordered : Ordered mapping aggs)
    (here : lineage inserted aggs.tree.branches = way) (live : way ≠ [])
    (covered : Covered way holding inserted) {rest : List Nat}
    (listed : ∀ holder ∈ rest, holder ∈ holding ∧ holder ∈ way.map Entry.id)
    (made : displace before holding inserted aggs rest = .ok final) : Ordered mapping final := by
  let Holds := fun (left : List Nat) (reached : Aggregations) => Ordered mapping reached ∧
    lineage inserted reached.tree.branches = way ∧
    ∀ holder ∈ left, holder ∈ holding ∧ holder ∈ way.map Entry.id
  have ends : Holds [] final := by
    refine displace_along ?_ ⟨ordered, here, listed⟩ made
    rintro holder rest reached middle ⟨ordered, here, listed⟩ first
    rw [List.forall_mem_cons] at listed
    have hanging : Hanging reached inserted (lineage holder reached.tree.branches)
        (displaced reached.tree before holding inserted holder) :=
      hanging_displaced ordered.whole here live covered listed.1.1 listed.1.2
    have carried := ordered.relocateAll hanging first
    refine ⟨carried.ordered, ?_, listed.2⟩
    rw [carried.keeps inserted hanging.live fun entry onWay moved => ?_, here]
    obtain ⟨child, chosen, same⟩ := List.mem_map.mp moved
    exact hanging.off child chosen entry onWay same.symm
  exact ends.1

theorem covered_holders {tree : Tree AggNode} (numbered : tree.Numbered) {parent : Nat}
    {entry : Entry AggNode} {outer : List (Entry AggNode)}
    (way : lineage inserted tree.branches = entry :: outer) :
    Covered (entry :: outer) (holders tree parent inserted) inserted := by
  have once := lineage_nodup numbered.distinct inserted
  have self : entry.id = inserted := by
    obtain ⟨first, others, start, same⟩ := lineage_head (mem_numbers_of_lineage way)
    rw [way] at start
    rw [(List.cons.inj start).1, same]
  rw [way, List.map_cons, List.nodup_cons] at once
  intro front back child above split listed
  rw [holders, ancestors_outside, way, List.tail_cons] at listed ⊢
  cases front with
  | nil => exact Or.inr ((congrArg Entry.id (List.cons.inj split).1).symm.trans self)
  | cons first front =>
      rw [List.cons_append] at split
      have later := congrArg (List.map Entry.id) (List.cons.inj split).2
      rw [show List.map Entry.id (front ++ _) = front.map Entry.id ++ child.id :: above.id ::
        back.map Entry.id by simp] at later
      exact Or.inl (List.mem_append_left _ (mem_takeWhile_before once.2 later listed))

theorem mem_way_of_holder {tree : Tree AggNode} {parent number : Nat}
    (above : parent ∈ (lineage inserted tree.branches).tail.map Entry.id)
    (listed : number ∈ holders tree parent inserted) :
    number ∈ (lineage inserted tree.branches).tail.map Entry.id := by
  rw [holders, ancestors_outside] at listed
  rcases List.mem_append.mp listed with before | last
  · exact (List.takeWhile_sublist _).subset before
  · rw [List.mem_singleton.mp last]
    exact above

theorem Ordered.insertBetween (ordered : Ordered mapping aggs) {parent : Nat}
    {shape : Shape AggNode} (made : aggs.insertBetween parent shape = .ok (inserted, final)) :
    Ordered mapping final := by
  obtain ⟨⟨holder, member, rfl⟩, grown, placed, displaces⟩ := insertBetween_ok made
  obtain ⟨carried, entry, passed, way⟩ := Ordered.insertShape shape ordered placed
  obtain ⟨outward, top, _⟩ := lineage_of_mem ordered.whole.numbered.distinct member
  have above : holder.id ∈ (lineage inserted grown.tree.branches).tail.map Entry.id := by
    rw [way, List.tail_cons, top]
    simp [Rose.id]
  refine carried.ordered.displace way (by simp)
    (covered_holders carried.ordered.whole.numbered way) (fun number listed => ⟨listed, ?_⟩) displaces
  have onWay := mem_way_of_holder above listed
  rw [way, List.tail_cons] at onWay
  exact List.mem_cons_of_mem _ onWay

theorem Ordered.insertChain (ordered : Ordered mapping aggs) {chain : List (Shape AggNode)}
    {parent last : Nat} (made : aggs.insertChain parent chain = .ok (last, final)) :
    Ordered mapping final := by
  let Holds := fun (_ : List (Shape AggNode)) (reached : Aggregations) (_ : Nat) =>
    Ordered mapping reached
  have ends : Holds [] final last :=
    insertChain_along (fun holds first => holds.insertBetween first) ordered made
  exact ends

end Displacing

/-! ### Operations -/

section Operations

variable {mapping : Mapping} {aggs final : Aggregations}

theorem ordered_empty (mapping : Mapping) (autocorrect : Bool) :
    Ordered mapping { mapping := some mapping, autocorrect := autocorrect } := by
  obtain ⟨sound, _⟩ := sound_empty (some mapping) autocorrect
  refine ⟨sound.toWhole, rfl, fun number => ?_⟩
  rw [branches_empty, lineage_cons]
  split
  · refine ⟨fun last here => ?_, Or.inr fun entry here _ field named => ?_⟩
    · cases here
      rfl
    · cases here
      cases named
  · exact orderly_nil

theorem ordered_apply (ordered : Ordered mapping aggs) {operation : Operation}
    (applied : operation.apply aggs = .ok final) : Ordered mapping final := by
  cases operation with
  | ofJson json =>
      rw [Operation.apply, ordered.bound] at applied
      obtain ⟨request, _, made⟩ := ofJson_ok applied
      exact (Ordered.insertShapes request.children (ordered_empty mapping true) made).ordered
  | add input below =>
      obtain ⟨request, target, _, _, made⟩ := add_ok applied
      exact (Ordered.insertShapes (clausesOf request) ordered made).ordered
  | groupBy input below =>
      obtain ⟨request, target, _, _, made⟩ := groupBy_ok applied
      rcases made with ⟨_, rfl⟩ | ⟨last, moved, made, rfl⟩
      · exact ordered
      · have chained := ordered.insertChain made
        exact ⟨chained.whole, chained.bound, chained.orderly⟩
  | groupedBy name =>
      obtain ⟨id, _, rfl⟩ := groupedBy_ok applied
      exact ⟨ordered.whole, ordered.bound, ordered.orderly⟩

theorem ordered_run (ordered : Ordered mapping aggs) (operations : List Operation)
    (ran : operations.foldlM Operation.apply aggs = .ok final) : Ordered mapping final := by
  induction operations generalizing aggs with
  | nil =>
      cases Result.pure_ok.mp ran
      exact ordered
  | cons operation rest ih =>
      rw [List.foldlM_cons] at ran
      obtain ⟨middle, applied, later⟩ := Result.bind_ok.mp ran
      exact ih (ordered_apply ordered applied) later

end Operations

end Aggregations

end ScopedClauses
