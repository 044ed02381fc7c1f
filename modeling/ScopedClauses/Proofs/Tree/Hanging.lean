import ScopedClauses.Proofs.Scope.Growing

/-!
Ways in trees that change by a node, a move or a removal. A way that does not pass what is moved
or removed stays the same; a way from what is moved leads on from the new place.
-/

namespace ScopedClauses

namespace Rose

variable {N : Type} {forest : List (Branch N)}

theorem lineage_pruneAt (distinct : (numbers forest).Nodup) {branch : Branch N}
    (member : branch ∈ preorderAll forest) {number : Nat} (outside : number ∉ numbers [branch]) :
    lineage number (pruneAt branch.id forest) = lineage number forest := by
  induction forest using forestInduction with
  | nil => simp at member
  | cons label children rest ihBelow ihBeside =>
      obtain ⟨notBelow, notBeside, below, beside, apart⟩ := distinct_cons distinct
      simp only [preorderAll_cons, List.mem_cons, List.mem_append] at member
      rcases member with rfl | within | later
      · simp only [numbers_cons, numbers_nil, List.append_nil, List.mem_cons, not_or] at outside
        rw [id_node, pruneAt_here distinct, lineage_beside (Ne.symm outside.1) outside.2]
      · have live := id_mem_numbers within
        have step := ihBelow below within
        have members : number ∈ numbers (pruneAt branch.id children) ↔
            number ∈ numbers children := by
          have absent : number ∉ numbers (pruneAt branch.id children) ↔
              number ∉ numbers children := by
            rw [← lineage_eq_nil_iff, ← lineage_eq_nil_iff, step]
          exact Decidable.not_iff_not.mp absent
        rw [pruneAt_below distinct live, lineage_cons, lineage_cons, step]
        simp only [members]
      · rw [pruneAt_beside distinct (id_mem_numbers later), lineage_cons, lineage_cons,
          ihBeside beside later]

theorem lineage_hung (distinct : (numbers forest).Nodup) {holder child : Branch N}
    (member : holder ∈ preorderAll forest)
    (fresh : ∀ number ∈ numbers [child], number ∉ numbers forest) (number : Nat) :
    lineage number (updateAt holder.id (fun _ => Tree.extended holder child) forest) =
      if number ∈ numbers [child] then lineage number [child] ++ lineage holder.id forest
      else lineage number forest := by
  have part := (sublist_numbers forest member).subset
  have known : ∀ found ∈ numbers [Tree.extended holder child], found ∈ numbers forest →
      found ∈ numbers [holder] := by
    intro found inside present
    rw [Tree.numbers_extended] at inside
    exact (List.mem_append.mp inside).resolve_right fun new => fresh found new present
  split
  · rename_i inside
    have absent : number ∉ numbers [holder] := fun old => fresh number inside (part old)
    have present : number ∈ numbers [Tree.extended holder child] := by
      rw [Tree.numbers_extended]
      exact List.mem_append_right _ inside
    obtain ⟨outward, way, _⟩ := lineage_of_mem distinct member
    rw [lineage_replaced distinct member known present, lineage_extended inside absent, way]
    simp
  · rename_i outside
    by_cases old : number ∈ numbers [holder]
    · have present : number ∈ numbers [Tree.extended holder child] := by
        rw [Tree.numbers_extended]
        exact List.mem_append_left _ old
      rw [lineage_replaced distinct member known present,
        lineage_extended_of_mem child old, ← lineage_inside distinct member old]
    · have same : (Tree.extended holder child).label = holder.label := rfl
      refine lineage_updateAt_of_not_mem distinct member same old ?_
      rw [Tree.numbers_extended, List.mem_append]
      exact fun either => either.elim old outside

end Rose

namespace Tree

open Rose

variable {N : Type} {before after : Tree N}

theorem Moved.lineage [NodeRules N] {branch holder : Branch N}
    (moved : Moved before branch holder after) (numbered : before.Numbered) (number : Nat) :
    lineage number after.branches =
      if number ∈ numbers [branch] then
        lineage number [branch] ++ lineage holder.id before.branches
      else lineage number before.branches := by
  have pruned := distinct_pruneAt numbered.distinct moved.member
  have fresh : ∀ inside ∈ numbers [branch], inside ∉ numbers (pruneAt branch.id before.branches) :=
    fun inside within present => (mem_pruneAt numbered.distinct moved.member present).2 within
  have outside : holder.id ∉ numbers [branch] :=
    (mem_pruneAt numbered.distinct moved.member (id_mem_numbers moved.outside)).2
  rw [moved.branches, lineage_hung pruned moved.outside fresh,
    lineage_pruneAt numbered.distinct moved.member outside]
  split
  · rfl
  · rename_i apart
    exact lineage_pruneAt numbered.distinct moved.member apart

theorem Regrown.lineage_bud {holder : Branch N} {key : Option String} {content : N} {id : Nat}
    (regrown : Regrown before holder (extended holder (bud key content id)) after)
    (numbered : before.Numbered) (member : holder ∈ before.live) (new : id = before.next)
    (number : Nat) :
    lineage number after.branches =
      if number = id then ⟨⟨key, content⟩, id⟩ :: lineage holder.id before.branches
      else lineage number before.branches := by
  have only : numbers [bud key content id] = [id] := by simp [bud]
  have fresh : ∀ inside ∈ numbers [bud key content id], inside ∉ numbers before.branches := by
    intro inside within present
    rw [only, List.mem_singleton] at within
    have bound := numbered.bounded inside present
    omega
  rw [regrown.branches, lineage_hung numbered.distinct member fresh, only]
  simp only [List.mem_singleton]
  split
  · rename_i same
    rw [same, Rose.lineage_bud]
    rfl
  · rfl

end Tree

end ScopedClauses
