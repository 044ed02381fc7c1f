import ScopedClauses.Proofs.Aggregation.Adding

/-!
Gathering branches below a clause. A node of a branch that is moved keeps its number and what it
holds, and comes to lie below the clause; only markers of the scope at the clause go.
-/

namespace ScopedClauses

namespace Aggregations

open Rose Tree

def Dissolved (way : List (Entry AggNode)) (entry : Entry AggNode) : Prop :=
  ∃ path, entry.content.boundary? = some (.enter path) ∧ scopeOn way = some path

theorem dissolved_of_isIdle {aggs : Aggregations} {target : Nat} {entry : Entry AggNode}
    (idle : aggs.isIdle target entry.content = true) :
    Dissolved (lineage target aggs.tree.branches) entry := by
  unfold isIdle at idle
  split at idle
  · rename_i path marks
    refine ⟨path, marks, ?_⟩
    rw [← currentScope_eq_scopeOn]
    exact of_decide_eq_true idle
  · cases idle

/-- A request in which the branches under some numbers were moved to the end of a way. -/
structure Gathered (way : List (Entry AggNode)) (moved : List Nat) (aggs final : Aggregations) :
    Prop where
  same : final = aggs.withTree final.tree
  whole : Whole final.tree
  later : aggs.tree.next ≤ final.tree.next
  keeps : ∀ number ∈ numbers aggs.tree.branches,
    (∀ entry ∈ lineage number aggs.tree.branches, entry.id ∉ moved) →
      lineage number final.tree.branches = lineage number aggs.tree.branches
  takes : ∀ number entry outer, lineage number aggs.tree.branches = entry :: outer →
    (∃ passed ∈ entry :: outer, passed.id ∈ moved) →
      (∃ front, lineage number final.tree.branches = entry :: (front ++ way)) ∨
        (number ∉ numbers final.tree.branches ∧ Dissolved way entry)
  brings : ∀ number ∈ numbers final.tree.branches, number ∉ numbers aggs.tree.branches →
    aggs.tree.next ≤ number ∧ way <:+ lineage number final.tree.branches
  kinds : ∀ entry ∈ entries final.tree.branches,
    entry ∈ entries aggs.tree.branches ∨ Synthesized entry.toKeyed

section Gathered

variable {way : List (Entry AggNode)} {moved later : List Nat}
  {aggs middle final : Aggregations}

theorem Gathered.refl (whole : Whole aggs.tree) : Gathered way [] aggs aggs :=
  ⟨rfl, whole, Nat.le_refl _, fun _ _ _ => rfl,
    fun _ _ _ _ passes => (by obtain ⟨_, _, listed⟩ := passes; cases listed),
    fun _ present absent => absurd present absent, fun _ => Or.inl⟩

/-- What is gone stays gone, since numbers are not given out again. -/
theorem Gathered.gone (gathered : Gathered way moved aggs final) {number : Nat}
    (absent : number ∉ numbers aggs.tree.branches) (bound : number < aggs.tree.next) :
    number ∉ numbers final.tree.branches := fun present => by
  have fresh := (gathered.brings number present absent).1
  omega

theorem Gathered.stays (gathered : Gathered way moved aggs final) {number : Nat}
    {entry : Entry AggNode} {front : List (Entry AggNode)}
    (below : lineage number aggs.tree.branches = entry :: (front ++ way)) :
    (∃ front, lineage number final.tree.branches = entry :: (front ++ way)) ∨
      (number ∉ numbers final.tree.branches ∧ Dissolved way entry) := by
  by_cases passes : ∃ passed ∈ entry :: (front ++ way), passed.id ∈ moved
  · exact gathered.takes number entry _ below passes
  · refine Or.inl ⟨front, ?_⟩
    rw [gathered.keeps number (mem_numbers_of_lineage below), below]
    rw [below]
    exact fun passed onWay listed => passes ⟨passed, onWay, listed⟩

/-- A node lies below the way, or it was there and its way passes nothing that was moved. -/
theorem Gathered.sorted (gathered : Gathered way moved aggs final) {number : Nat}
    (present : number ∈ numbers final.tree.branches) :
    way <:+ lineage number final.tree.branches ∨
      (lineage number final.tree.branches = lineage number aggs.tree.branches ∧
        ∀ entry ∈ lineage number aggs.tree.branches, entry.id ∉ moved) := by
  by_cases live : number ∈ numbers aggs.tree.branches
  · by_cases passes : ∃ passed ∈ lineage number aggs.tree.branches, passed.id ∈ moved
    · obtain ⟨entry, outer, line, _⟩ := lineage_head live
      rw [line] at passes
      rcases gathered.takes number entry outer line passes with ⟨front, below⟩ | ⟨gone, _⟩
      · exact Or.inl ⟨entry :: front, by rw [below, List.cons_append]⟩
      · exact absurd present gone
    · have apart : ∀ entry ∈ lineage number aggs.tree.branches, entry.id ∉ moved :=
        fun entry onWay listed => passes ⟨entry, onWay, listed⟩
      exact Or.inr ⟨gathered.keeps number live apart, apart⟩
  · exact Or.inl (gathered.brings number present live).2

theorem Gathered.trans (first : Gathered way moved aggs middle)
    (second : Gathered way later middle final) (whole : Whole aggs.tree) :
    Gathered way (moved ++ later) aggs final := by
  exact {
    same := by
      rw [second.same, first.same]
      rfl
    whole := second.whole
    later := Nat.le_trans first.later second.later
    keeps := by
      intro number live apart
      have line := first.keeps number live fun entry onWay listed =>
        apart entry onWay (List.mem_append_left _ listed)
      rw [second.keeps number (mem_numbers_of_same line live), line]
      rw [line]
      exact fun entry onWay listed => apart entry onWay (List.mem_append_right _ listed)
    takes := by
      intro number entry outer line passes
      by_cases early : ∃ passed ∈ entry :: outer, passed.id ∈ moved
      · rcases first.takes number entry outer line early with ⟨front, below⟩ | ⟨gone, dissolved⟩
        · exact second.stays below
        · have bound := whole.numbered.bounded number (mem_numbers_of_lineage line)
          exact Or.inr ⟨second.gone gone (Nat.lt_of_lt_of_le bound first.later), dissolved⟩
      · have kept : lineage number middle.tree.branches = entry :: outer := by
          rw [first.keeps number (mem_numbers_of_lineage line), line]
          rw [line]
          exact fun passed onWay listed => early ⟨passed, onWay, listed⟩
        obtain ⟨passed, onWay, listed⟩ := passes
        refine second.takes number entry outer kept ⟨passed, onWay, ?_⟩
        exact (List.mem_append.mp listed).resolve_left fun before => early ⟨passed, onWay, before⟩
    brings := by
      intro number present absent
      by_cases between : number ∈ numbers middle.tree.branches
      · obtain ⟨fresh, below⟩ := first.brings number between absent
        refine ⟨fresh, ?_⟩
        rcases second.sorted present with lies | ⟨same, _⟩
        · exact lies
        · rw [same]
          exact below
      · obtain ⟨fresh, below⟩ := second.brings number present between
        exact ⟨Nat.le_trans first.later fresh, below⟩
    kinds := fun entry listed => (second.kinds entry listed).elim (first.kinds entry) Or.inr }

end Gathered

/-! ### Branches that can be gathered -/

structure Gatherable (aggs : Aggregations) (target : Nat) (outer : List (Entry AggNode))
    (branches : List (Branch AggNode)) : Prop extends Hanging aggs target outer branches where
  apart : target ∉ outer.map Entry.id
  complete : ∀ branch ∈ branches, ∀ number,
    Above aggs.tree.branches branch.id number → number ∈ numbers [branch]

section Gatherable

variable {aggs middle final : Aggregations} {target : Nat} {outer : List (Entry AggNode)}
  {entry : Entry AggNode} {branch : Branch AggNode} {branches below rest : List (Branch AggNode)}

theorem Hanging.way_of_mem (hanging : Hanging aggs target outer branches)
    (member : branch ∈ branches) :
    lineage branch.id aggs.tree.branches = branch.label :: outer := by
  rw [hanging.lines branch.id (id_mem_numbers (mem_preorderAll_of_mem member)),
    lineage_top hanging.distinct member, List.singleton_append]

theorem Hanging.beside (hanging : Hanging aggs target outer branches)
    (apart : target ∉ outer.map Entry.id) (distinct : (numbers aggs.tree.branches).Nodup)
    (member : branch ∈ branches) {number : Nat} (below : Above aggs.tree.branches target number) :
    ¬Above aggs.tree.branches branch.id number := by
  have off : ¬Above aggs.tree.branches branch.id target := fun above => by
    obtain ⟨passed, onWay, same⟩ := List.mem_map.mp above
    exact hanging.off branch member passed onWay same
  intro upper
  rcases below.total distinct upper with outside | inside
  · rw [Above, hanging.way_of_mem member, List.map_cons, List.mem_cons] at outside
    rcases outside with same | above
    · exact off (show Above _ branch.label.id target from same ▸ .self hanging.live)
    · exact apart above
  · exact off inside

namespace Gatherable

theorem head (gatherable : Gatherable aggs target outer (branch :: rest)) :
    Gatherable aggs target outer [branch] :=
  ⟨gatherable.toHanging.head, gatherable.apart, fun own listed =>
    gatherable.complete own (List.mem_singleton.mp listed ▸ List.mem_cons_self)⟩

theorem target_stays {way : List (Entry AggNode)} {moved : List Nat}
    (gatherable : Gatherable aggs target outer branches)
    (gathered : Gathered way moved aggs middle) (part : moved ⊆ branches.map Rose.id) :
    lineage target middle.tree.branches = lineage target aggs.tree.branches :=
  gathered.keeps target gatherable.live fun passed onWay listed => by
    obtain ⟨branch, member, same⟩ := List.mem_map.mp (part listed)
    exact gatherable.off branch member passed onWay same.symm

theorem tail (gatherable : Gatherable aggs target outer (branch :: rest))
    (whole : Whole aggs.tree)
    (gathered : Gathered (lineage target aggs.tree.branches) [branch.id] aggs middle) :
    Gatherable middle target outer rest := by
  have hanging := gatherable.toHanging.tail whole gathered.keeps
  have self : Above aggs.tree.branches target target := .self gatherable.live
  refine ⟨hanging, gatherable.apart, fun own listed number above => ?_⟩
  rcases gathered.sorted above.inner_mem with ⟨front, below⟩ | ⟨kept, _⟩
  · refine absurd above
      (hanging.beside gatherable.apart gathered.whole.numbered.distinct listed ?_)
    rw [Above, ← below, List.map_append]
    exact List.mem_append_right _ (Above.self gatherable.live)
  · exact gatherable.complete own (List.mem_cons_of_mem _ listed) number ((above_congr kept).mp above)

theorem way_marker (gatherable : Gatherable aggs target outer [.node entry below]) :
    lineage entry.id aggs.tree.branches = entry :: outer :=
  gatherable.way_head

theorem passes (gatherable : Gatherable aggs target outer [.node entry below])
    (whole : Whole aggs.tree) {number : Nat}
    (passes : ∃ passed ∈ lineage number aggs.tree.branches, passed.id ∈ below.map Rose.id) :
    entry ∈ lineage number aggs.tree.branches := by
  obtain ⟨passed, onWay, listed⟩ := passes
  obtain ⟨child, within, same⟩ := List.mem_map.mp listed
  exact gatherable.passes_above whole within onWay same.symm

theorem passes_child (gatherable : Gatherable aggs target outer [.node entry below]) {number : Nat}
    (inside : number ∈ numbers below) :
    ∃ passed ∈ lineage number aggs.tree.branches, passed.id ∈ below.map Rose.id := by
  obtain ⟨absent, _, distinct, _⟩ := distinct_cons gatherable.distinct
  obtain ⟨inner, within, rfl⟩ := exists_of_mem_numbers inside
  obtain ⟨child, member, holds⟩ := exists_top within
  obtain ⟨passed, onWay, same⟩ := List.mem_map.mp
    ((passes_iff distinct (mem_preorderAll_of_mem member)).mpr (id_mem_numbers holds))
  refine ⟨passed, ?_, same ▸ List.mem_map_of_mem member⟩
  have apart : entry.id ≠ inner.id := fun here => absent (here ▸ inside)
  rw [gatherable.lines inner.id (by simp [inside]), lineage_below apart inside, List.append_assoc]
  exact List.mem_append_left _ onWay

theorem only_marker (gatherable : Gatherable aggs target outer [.node entry below]) {number : Nat}
    {first : Entry AggNode} {outward : List (Entry AggNode)}
    (line : lineage number aggs.tree.branches = first :: outward)
    (passes : ∃ passed ∈ first :: outward, passed.id ∈ [entry.id])
    (none : ¬∃ passed ∈ first :: outward, passed.id ∈ below.map Rose.id) :
    number = entry.id ∧ first = entry := by
  obtain ⟨passed, onWay, listed⟩ := passes
  have inside : number ∈ numbers [.node entry below] := by
    refine gatherable.complete _ (List.mem_singleton_self _) number ?_
    rw [Above, line, id_node, ← List.mem_singleton.mp listed]
    exact List.mem_map_of_mem onWay
  rw [numbers_cons, numbers_nil, List.append_nil, List.mem_cons] at inside
  obtain rfl := inside.resolve_right fun within => none (line ▸ gatherable.passes_child within)
  rw [gatherable.way_marker] at line
  exact ⟨rfl, (List.cons.inj line).1.symm⟩

theorem not_above (gatherable : Gatherable aggs target outer [.node entry below])
    (whole : Whole aggs.tree) {child : Branch AggNode} (member : child ∈ below) :
    ¬Above aggs.tree.branches child.id entry.id := fun upper => by
  obtain ⟨first, rest, start, same⟩ := lineage_head upper.outer_mem
  have lower := gatherable.passes_above whole member (start ▸ List.mem_cons_self) same
  have alike := upper.antisymm whole.numbered.distinct (List.mem_map_of_mem lower)
  exact (distinct_cons gatherable.distinct).1
    (alike ▸ id_mem_numbers (mem_preorderAll_of_mem member))

theorem inner (gatherable : Gatherable aggs target outer [.node entry below])
    (whole : Whole aggs.tree) (bare : free entry.content = false) :
    Gatherable aggs target (entry :: outer) below := by
  have hanging := gatherable.toHanging.inner whole bare
  have off := gatherable.off _ (List.mem_singleton_self _)
  refine ⟨hanging, ?_, fun child member number above => ?_⟩
  · rw [List.map_cons, List.mem_cons, not_or]
    refine ⟨fun same => ?_, gatherable.apart⟩
    obtain ⟨passed, onWay, number⟩ := List.mem_map.mp (Above.self gatherable.live)
    exact off passed onWay (number.trans same)
  · have outside := gatherable.not_above whole member
    have around : entry ∈ lineage number aggs.tree.branches := by
      obtain ⟨passed, onWay, same⟩ := List.mem_map.mp above
      exact gatherable.passes_above whole member onWay same
    have inside := gatherable.complete _ (List.mem_singleton_self _) number
      (List.mem_map_of_mem around)
    rw [numbers_cons, numbers_nil, List.append_nil, List.mem_cons] at inside
    rcases inside with rfl | deeper
    · exact absurd above outside
    · rw [Above, hanging.lines number deeper, List.map_append, List.mem_append] at above
      refine (passes_iff hanging.distinct (mem_preorderAll_of_mem member)).mp
        (above.resolve_right fun further => outside ?_)
      rw [Above, gatherable.way_marker]
      exact further

end Gatherable

end Gatherable

/-! ### Relocation -/

section Steps

variable {aggs middle final : Aggregations} {target : Nat} {outer : List (Entry AggNode)}
  {entry : Entry AggNode} {below : List (Branch AggNode)}

theorem gathered_move {id destination : Nat} {settled : Aggregations}
    {passed opened : List (Entry AggNode)}
    (reached : Passed aggs target settled destination passed opened) {after : Tree AggNode}
    (done : settled.tree.move id destination = (after, .ok ())) :
    Gathered (lineage target aggs.tree.branches) [id] aggs (settled.withTree after) := by
  have numbered := reached.whole.numbered
  obtain ⟨branch, holder, rfl, rfl, moved⟩ := move_ok numbered reached.whole.settled done
  have ways := moved.lineage numbered
  have present : ∀ {number}, number ∈ numbers after.branches ↔
      number ∈ numbers settled.tree.branches := fun {number} => by
    rw [← map_id_entries, ← map_id_entries, ((moved.entries_perm numbered).map Entry.id).mem_iff]
  have inside : ∀ {number outward}, lineage number aggs.tree.branches = outward →
      number ∈ numbers aggs.tree.branches →
      ((∃ passed ∈ outward, passed.id ∈ [branch.id]) ↔ number ∈ numbers [branch]) := by
    rintro number _ rfl live
    rw [← passes_iff numbered.distinct moved.member, reached.added.lines number live]
    simp only [List.mem_singleton, List.mem_map]
  exact {
    same := by
      rw [reached.same]
      rfl
    whole := ⟨moved.numbered_after numbered, moved.settled⟩
    later := by
      rw [tree_withTree, moved.next]
      exact reached.added.later
    keeps := by
      intro number live apart
      have outside : number ∉ numbers [branch] := fun within => by
        obtain ⟨onWay, passes, listed⟩ := (inside rfl live).mpr within
        exact apart onWay passes listed
      rw [tree_withTree, ways, if_neg outside, reached.added.lines number live]
    takes := by
      intro number first outward line passes
      have live := mem_numbers_of_lineage line
      have within := (inside line live).mp passes
      obtain ⟨start, rest, begins, _⟩ := lineage_head within
      have same : start = first := by
        have whole := lineage_inside numbered.distinct moved.member within
        rw [reached.added.lines number live, line, begins] at whole
        exact (List.cons.inj whole).1.symm
      refine Or.inl ⟨rest ++ passed, ?_⟩
      rw [tree_withTree, ways, if_pos within, begins, same, reached.way]
      simp
    brings := by
      intro number there absent
      rw [tree_withTree, present] at there
      obtain ⟨found, listed, rfl⟩ := List.mem_map.mp
        ((reached.added.mem_numbers_iff.mp there).resolve_left absent)
      refine ⟨reached.added.fresh found listed, ?_⟩
      rw [tree_withTree, ways]
      split
      · rw [reached.way, ← List.append_assoc]
        exact List.suffix_append _ _
      · obtain ⟨front, back, split⟩ := List.append_of_mem (reached.opened found listed).2
        have line := reached.way
        rw [split, List.append_assoc, List.cons_append] at line
        rw [lineage_suffix numbered.distinct line, ← List.cons_append]
        exact List.suffix_append _ _
    kinds := by
      intro entry listed
      have settles := (moved.entries_perm numbered).subset listed
      exact (List.mem_append.mp (reached.added.entries.subset settles)).imp_right fun new =>
        (reached.opened entry new).1 }

section Emptied

variable (whole : Whole aggs.tree)
  (gatherable : Gatherable aggs target outer [.node entry below])
  (emptied : Gathered (lineage target aggs.tree.branches) (below.map Rose.id) aggs middle)

include whole gatherable emptied

theorem hanging_emptied : Hanging middle target outer [.node entry []] := by
  have off := gatherable.off _ (List.mem_singleton_self _)
  have stays : lineage target middle.tree.branches = lineage target aggs.tree.branches :=
    emptied.keeps target gatherable.live fun passed onWay listed =>
      off entry (gatherable.passes whole ⟨passed, onWay, listed⟩) rfl
  have way := gatherable.way_marker
  have marker : lineage entry.id middle.tree.branches = entry :: outer := by
    rw [emptied.keeps entry.id (mem_numbers_of_lineage way), way]
    intro passed onWay listed
    obtain ⟨child, member, same⟩ := List.mem_map.mp listed
    exact gatherable.not_above whole member (List.mem_map.mpr ⟨passed, onWay, same.symm⟩)
  refine ⟨by simp, fun number inside => ?_, fun own listed => ?_,
    mem_numbers_of_same stays gatherable.live, fun passed onWay stands => ?_⟩
  · rw [numbers_cons, numbers_nil, List.append_nil, List.mem_singleton] at inside
    rw [inside, marker, lineage_here]
    rfl
  · rw [List.mem_singleton.mp listed, stays]
    exact off
  · rw [stays]
    exact gatherable.cover passed onWay stands

theorem gathered_remove (dissolved : Dissolved (lineage target aggs.tree.branches) entry)
    {removed after : Tree AggNode} (done : middle.tree.remove entry.id = .ok (removed, after)) :
    Gathered (lineage target aggs.tree.branches) [entry.id] aggs (middle.withTree after) := by
  have numbered := emptied.whole.numbered
  have hanging := hanging_emptied whole gatherable emptied
  obtain ⟨branch, member, sameBranch, branches, settled, next, _⟩ :=
    remove_ok numbered emptied.whole.settled done
  rw [← sameBranch] at branches
  have remains : ∀ {number}, number ∈ numbers after.branches →
      number ∈ numbers middle.tree.branches ∧ number ∉ numbers [branch] := fun present => by
    rw [branches] at present
    exact mem_pruneAt numbered.distinct member present
  have kept : ∀ {number}, number ∉ numbers [branch] →
      lineage number after.branches = lineage number middle.tree.branches := fun outside => by
    rw [branches]
    exact lineage_pruneAt numbered.distinct member outside
  -- what was moved out of the marker does not lie below it any more
  have beside : ∀ {number front}, lineage number middle.tree.branches =
      front ++ lineage target aggs.tree.branches → number ∉ numbers [branch] := by
    intro number front line inside
    have above : Above middle.tree.branches target number := by
      rw [Above, line, List.map_append]
      exact List.mem_append_right _ (Above.self gatherable.live)
    refine hanging.beside gatherable.apart numbered.distinct (List.mem_singleton_self _) above ?_
    rw [show Rose.id (.node entry []) = branch.id from sameBranch.symm]
    exact (passes_iff numbered.distinct member).mpr inside
  exact {
    same := by
      rw [emptied.same]
      rfl
    whole := by
      refine ⟨⟨?_, fun number present => ?_⟩, settled⟩
      · rw [tree_withTree, branches]
        exact distinct_pruneAt numbered.distinct member
      · rw [tree_withTree, next]
        exact numbered.bounded number (remains present).1
    later := by
      rw [tree_withTree, next]
      exact emptied.later
    keeps := by
      intro number live around
      have same := emptied.keeps number live fun passed onWay listed =>
        around entry (gatherable.passes whole ⟨passed, onWay, listed⟩) (by simp)
      rw [tree_withTree, kept, same]
      rw [← same, ← sameBranch] at around
      exact outside_of_way numbered.distinct member around
    takes := by
      intro number first outward line passes
      by_cases deeper : ∃ passed ∈ first :: outward, passed.id ∈ below.map Rose.id
      · rcases emptied.takes number first outward line deeper with ⟨front, lies⟩ | ⟨lost, stands⟩
        · refine Or.inl ⟨front, ?_⟩
          have line : lineage number middle.tree.branches =
            (first :: front) ++ lineage target aggs.tree.branches := lies
          rw [tree_withTree, kept (beside line), lies]
        · exact Or.inr ⟨fun present => lost (remains present).1, stands⟩
      · obtain ⟨rfl, rfl⟩ := gatherable.only_marker line passes deeper
        refine Or.inr ⟨fun present => (remains present).2 ?_, dissolved⟩
        rw [← sameBranch]
        exact id_mem_numbers (self_mem branch)
    brings := by
      intro number present absent
      obtain ⟨fresh, front, lies⟩ := emptied.brings number (remains present).1 absent
      refine ⟨fresh, front, ?_⟩
      rw [tree_withTree, kept (remains present).2, lies]
    kinds := by
      intro entry listed
      rw [tree_withTree, branches] at listed
      exact emptied.kinds entry ((entries_pruneAt _ numbered.distinct member).subset
        (List.mem_append_left _ listed)) }

end Emptied

theorem gathered_relocateAll {branches : List (Branch AggNode)} (whole : Whole aggs.tree)
    (gatherable : Gatherable aggs target outer branches)
    (made : aggs.relocateAll target branches = .ok final) :
    Gathered (lineage target aggs.tree.branches) (branches.map Rose.id) aggs final := by
  let Moves := fun (branches : List (Branch AggNode)) (first last : Aggregations) =>
    ∀ outer, Whole first.tree → Gatherable first target outer branches →
      Gathered (lineage target first.tree.branches) (branches.map Rose.id) first last
  have moves : Moves branches aggs final := by
    refine relocateAll_along ?_ ?_ ?_ ?_ made
    · exact fun _ whole _ => .refl whole
    · intro branch rest first middle last moved others outer whole gatherable
      have moving := moved outer whole gatherable.head
      have ends := others outer moving.whole (gatherable.tail whole moving)
      rw [gatherable.head.target_stays moving (List.Subset.refl _)] at ends
      exact moving.trans ends whole
    -- a marker of the scope at the target gives up its children before it goes
    · intro entry below first emptied removed after idle emptying done outer whole gatherable
      have inner := gatherable.inner whole (free_of_isIdle idle)
      exact gathered_remove whole gatherable (emptying _ whole inner) (dissolved_of_isIdle idle) done
    · intro entry below first destination settled after settles done outer whole _
      obtain ⟨passed, opened, reached⟩ := passed_resettle whole settles
      exact gathered_move reached done
  exact moves outer whole gatherable

end Steps

end Aggregations

end ScopedClauses
