import ScopedClauses.Proofs.Aggregation.Relocating

/-!
Displacing the children of the nodes above a clause: those that were there before the clause,
and do not lead to it, are moved below it.
-/

namespace ScopedClauses

namespace Aggregations

open Rose Tree

structure Aside (before holding : List Nat) (inserted number : Nat) : Prop where
  old : number ∈ before
  off : number ∉ holding
  other : number ≠ inserted

theorem mem_displaced {tree : Tree AggNode} {before holding : List Nat} {inserted holder : Nat}
    {child : Branch AggNode} : child ∈ displaced tree before holding inserted holder ↔
      child ∈ tree.childBranches holder ∧ Aside before holding inserted child.id := by
  simp only [displaced, List.mem_filter, Bool.and_eq_true, List.contains_iff_mem,
    Bool.not_eq_true', decide_eq_true_eq, Bool.eq_false_iff, ne_eq]
  exact and_congr_right fun _ =>
    ⟨fun ⟨⟨old, off⟩, other⟩ => ⟨old, off, other⟩, fun aside => ⟨⟨aside.old, aside.off⟩, aside.other⟩⟩

theorem numbers_filter_sublist (keep : Branch AggNode → Bool) (forest : List (Branch AggNode)) :
    (numbers (forest.filter keep)).Sublist (numbers forest) := by
  induction forest with
  | nil => exact List.Sublist.refl _
  | cons branch rest ih =>
      rw [numbers_cons_eq branch rest, List.filter_cons]
      split
      · rw [numbers_cons_eq]
        exact (List.Sublist.refl _).append ih
      · exact ih.trans (List.sublist_append_right _ _)

/-- A request in which the children of some nodes can be moved below `target`: these nodes stand
above `target`, and the children that are displaced lie beside it and are older. -/
structure Displaceable (mapping : Mapping) (tree : Tree AggNode) (before holding : List Nat)
    (target : Branch AggNode) : Prop where
  member : target ∈ tree.live
  above : ∀ holder ∈ tree.live, holder.id ∈ holding → target.id ∈ numbers holder.children
  beside : ∀ child ∈ tree.live, Aside before holding target.id child.id →
    target.id ∉ numbers [child]
  older : ∀ child ∈ tree.live, Aside before holding target.id child.id →
    (∃ holder ∈ tree.live, holder.id ∈ holding ∧ child ∈ holder.children) →
    ∀ number ∈ numbers [child], number < target.id
  firm : ∀ holder ∈ tree.live, holder.id ∈ holding → ∀ child ∈ holder.children,
    Aside before holding target.id child.id →
      Adrift mapping child.shape ∨ Firm mapping child.shape

section Displacing

variable {mapping : Mapping} {around : Option String} {base current : Aggregations}
  {before holding gone more : List Nat} {target new holder : Branch AggNode}

namespace Displaceable

variable (whole : Whole base.tree)
  (displaceable : Displaceable mapping base.tree before holding target)
  (sunk : Sunk mapping around base target gone more current new) (live : holder ∈ base.tree.live)
  (listed : holder.id ∈ holding)

include whole displaceable live listed

theorem apart {child : Branch AggNode} (below : child ∈ holder.children)
    (aside : Aside before holding target.id child.id) :
    ∀ number ∈ numbers [child], number ∉ numbers [target] :=
  apart_of_child whole.numbered.distinct displaceable.member live below
    (displaceable.above holder live listed)
    (displaceable.beside child
      (mem_preorderAll_trans _ live (mem_preorderAll_of_mem below)) aside)

include sunk

theorem childBranches :
    current.tree.childBranches holder.id =
      updateAt target.id (fun _ => new) (cutOff gone holder.children) :=
  childBranches_of_live sunk.whole.numbered (sunk.live_around whole displaceable.member live
    (displaceable.above holder live listed))

theorem mem_displaced_iff {child : Branch AggNode} :
    child ∈ displaced current.tree before holding target.id holder.id ↔
      ∃ old ∈ holder.children, old.id ∉ gone ∧ Aside before holding target.id old.id ∧
        child = trimmed gone old := by
  have unchanged : ∀ old ∈ holder.children, Aside before holding target.id old.id →
      .node (trimmed gone old).label
        (updateAt target.id (fun _ => new) (trimmed gone old).children) = trimmed gone old := by
    intro old below aside
    have member := mem_preorderAll_trans _ live (mem_preorderAll_of_mem below)
    have free := displaceable.beside old member aside
    have absent : target.id ∉ numbers (trimmed gone old).children := fun inside =>
      free ((numbers_trimmed_sublist gone old).subset
        ((numbers_children_sublist (trimmed gone old)).subset inside))
    rw [updateAt_of_not_mem _ _ absent, node_eta]
  rw [mem_displaced, displaceable.childBranches whole sunk live listed]
  constructor
  · rintro ⟨below, aside⟩
    obtain ⟨kept, present, _, rfl⟩ := exists_of_mem_updateAt below fun same =>
      aside.other (by rw [same, sunk.id_eq])
    obtain ⟨old, inHolder, stays, rfl⟩ := exists_of_mem_cutOff present
    exact ⟨old, inHolder, stays, aside, unchanged old inHolder aside⟩
  · rintro ⟨old, below, stays, aside, rfl⟩
    refine ⟨?_, aside⟩
    rw [← unchanged old below aside]
    exact mem_updateAt_top (mem_cutOff_top below stays) aside.other

theorem movable :
    Movable mapping current.tree new
      (displaced current.tree before holding target.id holder.id) := by
  have distinct := whole.numbered.distinct
  have inside := displaceable.above holder live listed
  have liveHolder := sunk.live_around whole displaceable.member live inside
  have parts := displaceable.childBranches whole sunk live listed
  have liveNew : new ∈ current.tree.live := by
    rw [Tree.live, sunk.branches]
    exact mem_updateAt _ (distinct_cutOff distinct) (sunk.mem_cut displaceable.member)
      (self_mem new)
  have holds : new.id ∈ numbers (updateAt target.id (fun _ => new) (cutOff gone holder.children)) := by
    obtain ⟨inner, within, same⟩ := exists_of_mem_numbers inside
    obtain rfl := eq_of_id distinct (mem_preorderAll_trans _ live within) displaceable.member same
    have stays := mem_cutOff holder.children within fun head present cut =>
      sunk.away head (mem_preorderAll_trans _ live present) cut
    rw [trimmed_of_apart (sunk.intact displaceable.member)] at stays
    refine id_mem_numbers (mem_updateAt _ (distinct_cutOff ?_) stays (self_mem new))
    exact distinct.sublist
      ((numbers_children_sublist holder).trans (sublist_numbers base.tree.branches live))
  have below : ∀ child ∈ displaced current.tree before holding target.id holder.id,
      child ∈ updateAt target.id (fun _ => new) (cutOff gone holder.children) := by
    intro child chosen
    rw [← parts]
    exact (mem_displaced.mp chosen).1
  refine ⟨fun child chosen => ?_, ?_, fun number within => ?_, fun child chosen => ?_⟩
  · exact mem_preorderAll_trans _ liveHolder (mem_preorderAll_of_mem (below child chosen))
  · refine List.Nodup.sublist (numbers_filter_sublist _ _) ?_
    rw [parts]
    exact sunk.whole.numbered.distinct.sublist
      ((numbers_children_sublist (.node holder.label _)).trans (sublist_numbers _ liveHolder))
  · obtain ⟨deep, inList, rfl⟩ := exists_of_mem_numbers within
    obtain ⟨top, chosen, inTop⟩ := exists_top inList
    obtain ⟨old, inHolder, _, aside, rfl⟩ :=
      (displaceable.mem_displaced_iff whole sunk live listed).mp chosen
    have free := displaceable.beside old
      (mem_preorderAll_trans _ live (mem_preorderAll_of_mem inHolder)) aside
    refine apart_of_child sunk.whole.numbered.distinct liveNew liveHolder (below _ chosen) holds ?_
      deep.id (id_mem_numbers inTop)
    rw [sunk.id_eq]
    exact fun present => free ((numbers_trimmed_sublist gone old).subset present)
  · obtain ⟨old, inHolder, _, aside, rfl⟩ :=
      (displaceable.mem_displaced_iff whole sunk live listed).mp chosen
    exact (displaceable.firm holder live listed old inHolder aside).imp
      (fun adrift => adrift_trimmed adrift gone) fun firm => firm_trimmed firm gone

end Displaceable

/-- The children of one holder are displaced. -/
theorem sunk_displaced {middle : Aggregations} (whole : Whole base.tree)
    (bound : base.mapping = some mapping) (site : (target, around) ∈ sites none base.tree.branches)
    (displaceable : Displaceable mapping base.tree before holding target)
    (live : holder ∈ base.tree.live) (listed : holder.id ∈ holding)
    (sunk : Sunk mapping around base target gone more current new)
    (made : current.relocateAll target.id
      (displaced current.tree before holding target.id holder.id) = .ok middle) :
    ∃ moved added mid, Sunk mapping around base target (gone ++ moved) (more ++ added) middle mid ∧
      (∀ child ∈ holder.children, Aside before holding target.id child.id →
        child.id ∈ gone ++ moved) ∧ ∀ number ∈ added, number < target.id := by
  have chosen : ∀ child, child ∈ displaced current.tree before holding target.id holder.id ↔ _ :=
    fun _ => displaceable.mem_displaced_iff whole sunk live listed
  have movable := displaceable.movable whole sunk live listed
  generalize displaced current.tree before holding target.id holder.id = branches
    at made chosen movable
  have below : ∀ child ∈ holder.children, child ∈ base.tree.live := fun child inside =>
    mem_preorderAll_trans _ live (mem_preorderAll_of_mem inside)
  rw [← sunk.id_eq] at made
  obtain ⟨added, mid, second, _, came⟩ := lowered_relocateAll
    ⟨sunk.whole, by rw [sunk.same]; exact bound, sunk.site whole site, movable⟩ made
  refine ⟨branches.map Rose.id, added, mid, second.trans sunk whole site ?_, ?_, ?_⟩
  · intro head headLive moved
    obtain ⟨child, present, same⟩ := List.mem_map.mp moved
    obtain ⟨old, inside, _, aside, rfl⟩ := (chosen child).mp present
    obtain rfl := eq_of_id whole.numbered.distinct headLive (below old inside) same.symm
    exact fun number inTarget within =>
      displaceable.apart whole live listed inside aside number within inTarget
  · intro child inside aside
    refine List.mem_append.mpr ?_
    by_cases early : child.id ∈ gone
    · exact Or.inl early
    · exact Or.inr (List.mem_map.mpr
        ⟨trimmed gone child, (chosen _).mpr ⟨child, inside, early, aside, rfl⟩, rfl⟩)
  · intro number now
    obtain ⟨deep, inList, rfl⟩ := exists_of_mem_numbers (came number now)
    obtain ⟨top, taken, inTop⟩ := exists_top inList
    obtain ⟨old, inside, _, aside, rfl⟩ := (chosen top).mp taken
    refine displaceable.older old (below old inside) aside ⟨holder, live, listed, inside⟩ _ ?_
    exact (numbers_trimmed_sublist gone old).subset (id_mem_numbers inTop)

theorem sunk_displace {final : Aggregations} (whole : Whole base.tree)
    (bound : base.mapping = some mapping) (site : (target, around) ∈ sites none base.tree.branches)
    (displaceable : Displaceable mapping base.tree before holding target)
    (live : ∀ number ∈ holding, ∃ holder ∈ base.tree.live, holder.id = number)
    (made : displace before holding target.id base holding = .ok final) :
    ∃ gone more new, Sunk mapping around base target gone more final new ∧
      (∀ holder ∈ base.tree.live, holder.id ∈ holding → ∀ child ∈ holder.children,
        Aside before holding target.id child.id → child.id ∈ gone) ∧
      ∀ number ∈ more, number < target.id := by
  -- the children of each holder are gone, unless it is still to come
  let Holds := fun (left : List Nat) (reached : Aggregations) => left ⊆ holding ∧
    ∃ gone more new, Sunk mapping around base target gone more reached new ∧
      (∀ holder ∈ base.tree.live, holder.id ∈ holding → holder.id ∈ left ∨
        ∀ child ∈ holder.children, Aside before holding target.id child.id → child.id ∈ gone) ∧
      ∀ number ∈ more, number < target.id
  have ends : Holds [] final := by
    refine displace_along ?_ ?_ made
    · rintro number rest current middle ⟨part, gone, more, new, sunk, covers, early⟩ done
      have listed := part (List.mem_cons_self ..)
      obtain ⟨holder, above, rfl⟩ := live number listed
      obtain ⟨moved, added, mid, joined, covered, fresh⟩ :=
        sunk_displaced whole bound site displaceable above listed sunk done
      refine ⟨List.Subset.trans (List.subset_cons_self ..) part, _, _, mid, joined, ?_, ?_⟩
      · intro other otherLive present
        rcases covers other otherLive present with next | passed
        · rcases List.mem_cons.mp next with same | further
          · obtain rfl := eq_of_id whole.numbered.distinct otherLive above same
            exact Or.inr covered
          · exact Or.inl further
        · exact Or.inr fun child below aside =>
            List.mem_append_left _ (passed child below aside)
      · exact fun number present =>
          (List.mem_append.mp present).elim (early number) (fresh number)
    · exact ⟨List.Subset.refl _, [], [], target, .refl whole (mem_of_site site),
        fun _ _ listed => Or.inl listed, fun _ none => by cases none⟩
  obtain ⟨_, gone, more, new, sunk, covers, early⟩ := ends
  refine ⟨gone, more, new, sunk, fun holder above listed => ?_, early⟩
  exact (covers holder above listed).resolve_left fun none => by cases none

end Displacing

end Aggregations

end ScopedClauses
