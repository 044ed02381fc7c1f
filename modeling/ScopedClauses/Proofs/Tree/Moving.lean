import ScopedClauses.Proofs.Result
import ScopedClauses.Proofs.Tree.Lineage
import ScopedClauses.Proofs.Tree.Numbering

/-!
Moving branches within a tree and removing them. A move that succeeds prunes the tree at the
branch and lets another node have it as its last child; no node is lost or changed by it.
-/

namespace ScopedClauses

namespace Tree

open Rose

variable {N : Type} {tree after : Tree N}

theorem ancestors_self (tree : Tree N) (id : Nat) :
    tree.ancestors id true = (lineage id tree.branches).map Entry.id := by
  simp only [ancestors, ancestry, lineage, pathTo?, if_true, List.drop_zero, List.map_map]
  rfl

theorem ancestors_outside (tree : Tree N) (id : Nat) :
    tree.ancestors id false = (lineage id tree.branches).tail.map Entry.id := by
  simp only [ancestors, ancestry, lineage, pathTo?, Bool.false_eq_true, if_false,
    ← List.map_tail, List.drop_one, List.map_map]
  rfl

theorem mem_ancestors_iff (numbered : tree.Numbered) {branch : Branch N}
    (member : branch ∈ tree.live) {id : Nat} :
    branch.id ∈ tree.ancestors id true ↔ id ∈ numbers [branch] := by
  rw [ancestors_self]
  exact passes_iff numbered.distinct member

theorem attach_ok [NodeRules N] {id target : Nat} (attached : tree.attach id target = .ok after) :
    target ∈ numbers tree.branches ∧ id ∉ tree.ancestors target true := by
  simp only [attach, Result.bind_ok] at attached
  obtain ⟨branch, _, attached⟩ := attached
  split at attached
  · cases attached
  · split at attached
    · cases attached
    · rename_i notAbove
      obtain ⟨holder, found, _⟩ := Result.bind_ok.mp attached
      obtain ⟨member, rfl⟩ := live_of_find? (find?_of_find found)
      exact ⟨id_mem_numbers member, by simpa using notAbove⟩

structure Moved [NodeRules N] (before : Tree N) (branch holder : Branch N) (after : Tree N) :
    Prop where
  member : branch ∈ before.live
  outside : holder ∈ preorderAll (pruneAt branch.id before.branches)
  taken : NodeRules.checkChild holder.content branch.content holder.children.length = .ok ()
  branches : after.branches =
    updateAt holder.id (fun _ => extended holder branch) (pruneAt branch.id before.branches)
  settled : after.detached = []
  next : after.next = before.next

theorem mem_pruneAt {forest : List (Branch N)} {number : Nat} {branch : Branch N}
    (distinct : (numbers forest).Nodup) (member : branch ∈ preorderAll forest)
    (inside : number ∈ numbers (pruneAt branch.id forest)) :
    number ∈ numbers forest ∧ number ∉ numbers [branch] := by
  have trade := numbers_pruneAt forest distinct member
  refine ⟨trade.subset (List.mem_append_left _ inside), fun within => ?_⟩
  exact (List.nodup_append.mp (trade.nodup_iff.mpr distinct)).2.2 _ inside _ within rfl

theorem distinct_pruneAt {forest : List (Branch N)} {branch : Branch N}
    (distinct : (numbers forest).Nodup) (member : branch ∈ preorderAll forest) :
    (numbers (pruneAt branch.id forest)).Nodup :=
  (List.nodup_append.mp ((numbers_pruneAt forest distinct member).nodup_iff.mpr distinct)).1

theorem moved_of_attach [NodeRules N] (numbered : tree.Numbered) (settled : tree.detached = [])
    {label : Entry N} {front back : List (Branch N)} {branch : Branch N}
    (below : .node label (front ++ branch :: back) ∈ tree.live) {target : Nat}
    (attached : (tree.cutChild label (front ++ back) branch).attach branch.id target = .ok after) :
    ∃ holder, holder.id = target ∧ Moved tree branch holder after := by
  have numberedCut := numbered_cutChild numbered settled below
  have parts := branches_cutChild numbered settled below
  obtain ⟨reached, outside⟩ := attach_ok attached
  obtain ⟨holder, found, rfl⟩ := exists_of_mem_numbers reached
  have cutLive : branch ∈ (tree.cutChild label (front ++ back) branch).live :=
    mem_preorderAll_of_mem (by simp [parts])
  have elsewhere : holder.id ∉ numbers [branch] := fun inside =>
    outside ((mem_ancestors_iff numberedCut cutLive).mpr inside)
  have pruned : holder ∈ preorderAll (pruneAt branch.id tree.branches) := by
    rw [parts, preorderAll_append, List.mem_append] at found
    exact found.resolve_right fun inside => elsewhere (id_mem_numbers inside)
  have rootCut : (tree.cutChild label (front ++ back) branch).root.toList =
      pruneAt branch.id tree.branches := by
    rw [root_cutChild settled, pruneAt_child tree.branches numbered.distinct below]
  have node : holder ∈ (tree.cutChild label (front ++ back) branch).nodes := by
    rw [nodes, rootCut]
    exact pruned
  have member : branch ∈ tree.live :=
    mem_preorderAll_trans tree.branches below (mem_preorderAll_of_mem (by simp))
  rw [attach_detached numberedCut rfl node] at attached
  cases taken : NodeRules.checkChild holder.content branch.content holder.children.length with
  | error error => simp [taken, Except.map] at attached
  | ok _ =>
      rw [taken] at attached
      cases attached
      refine ⟨holder, rfl, member, pruned, taken, ?_, rfl, rfl⟩
      rw [← rootCut]
      simp only [branches, List.append_nil]
      cases (tree.cutChild label (front ++ back) branch).root <;> rfl

theorem move_ok [NodeRules N] (numbered : tree.Numbered) (settled : tree.detached = [])
    {id target : Nat} (moved : tree.move id target = (after, .ok ())) :
    ∃ branch holder, branch.id = id ∧ holder.id = target ∧ Moved tree branch holder after := by
  simp only [move] at moved
  split at moved
  · cases congrArg (·.2) moved
  · rename_i notAbove
    split at moved
    · rename_i branch cut found detached
      split at moved
      · rename_i result attached
        cases moved
        obtain ⟨member, rfl⟩ := live_of_find? (find?_of_find found)
        rcases top_or_child tree.branches member with top | ⟨parent, above, below⟩
        · -- Whatever the root could move below lies inside it.
          have rooted : tree.root = some branch := by simpa [branches, settled] using top
          rw [detach_root numbered settled rooted] at detached
          cases detached
          have whole : tree.branches = [branch] := by simp [branches, rooted, settled]
          have inside : target ∈ numbers [branch] := by
            simpa [branches] using (attach_ok attached).1
          have above := (mem_ancestors_iff numbered member).mpr inside
          simp [above] at notAbove
        · obtain ⟨label, children⟩ := parent
          obtain ⟨front, back, rfl⟩ := List.append_of_mem below
          rw [detach_child numbered settled above] at detached
          cases detached
          obtain ⟨holder, same, shifted⟩ := moved_of_attach numbered settled above attached
          exact ⟨branch, holder, rfl, same, shifted⟩
      · cases congrArg (·.2) moved
    · cases congrArg (·.2) moved
    · cases congrArg (·.2) moved

namespace Moved

variable [NodeRules N] {before : Tree N} {branch holder : Branch N}
  (moved : Moved before branch holder after) (numbered : before.Numbered)

include moved numbered

theorem entries_perm : (entries after.branches).Perm (entries before.branches) := by
  have pruned := entries_pruneAt before.branches numbered.distinct moved.member
  have grown := entries_updateAt _ (distinct_pruneAt numbered.distinct moved.member)
    (extended holder branch) moved.outside
  rw [entries_extended, ← moved.branches] at grown
  have swapped := grown.trans (List.perm_append_comm.append_left _)
  rw [← List.append_assoc] at swapped
  exact ((List.perm_append_right_iff _).mp swapped).trans pruned

theorem numbered_after : after.Numbered := by
  have same := (moved.entries_perm numbered).map Entry.id
  rw [map_id_entries, map_id_entries] at same
  refine ⟨same.nodup_iff.mpr numbered.distinct, fun number present => ?_⟩
  rw [moved.next]
  exact numbered.bounded number (same.subset present)

omit numbered in
theorem rootId? (settled : before.detached = []) : after.rootId? = before.rootId? := by
  have branches := moved.branches
  have outside := moved.outside
  rw [Tree.branches, moved.settled, List.append_nil] at branches
  rw [Tree.branches, settled, List.append_nil] at branches outside
  rw [Tree.rootId?, Tree.rootId?]
  cases bare : before.root with
  | none => simp [bare] at outside
  | some root =>
      obtain ⟨label, children⟩ := root
      rw [bare, Option.toList_some, pruneAt_cons] at branches outside
      by_cases top : label.id = branch.id
      · simp [top] at outside
      · rw [if_neg top, pruneAt_nil, updateAt_cons, updateAt_nil] at branches
        cases grown : after.root with
        | none => simp [grown] at branches
        | some root =>
            rw [grown, Option.toList_some, List.cons.injEq] at branches
            rw [branches.1]
            split
            · rename_i here
              rw [Option.map_some, Option.map_some, id_node, here]
              rfl
            · rfl

end Moved

theorem remove_ok (numbered : tree.Numbered) (settled : tree.detached = []) {id : Nat}
    {removed : Tree N} (done : tree.remove id = .ok (removed, after)) :
    ∃ branch ∈ tree.live, branch.id = id ∧ after.branches = pruneAt id tree.branches ∧
      after.detached = [] ∧ after.next = tree.next ∧
      (after.branches = [] ∨ after.rootId? = tree.rootId?) := by
  simp only [remove, Result.bind_ok, Result.pure_ok, Prod.mk.injEq] at done
  obtain ⟨_, _, cut, detached, _, rfl⟩ := done
  cases found : tree.find id with
  | error error =>
      rw [detach, found] at detached
      cases detached
  | ok branch =>
      obtain ⟨member, rfl⟩ := live_of_find? (find?_of_find found)
      refine ⟨branch, member, rfl, ?_⟩
      rcases top_or_child tree.branches member with top | ⟨parent, above, below⟩
      · have rooted : tree.root = some branch := by simpa [branches, settled] using top
        have whole : tree.branches = [branch] := by simp [branches, rooted, settled]
        rw [detach_root numbered settled rooted] at detached
        cases detached
        have distinct := numbered.distinct
        rw [whole] at distinct ⊢
        obtain ⟨label, children⟩ := branch
        rw [id_node, pruneAt_here distinct]
        simp [discard, branches]
      · obtain ⟨label, children⟩ := parent
        obtain ⟨front, back, rfl⟩ := List.append_of_mem below
        rw [detach_child numbered settled above] at detached
        cases detached
        have rootCut := root_cutChild settled label (front ++ back) branch
        refine ⟨?_, by simp [discard, cutChild], rfl, Or.inr ?_⟩
        · rw [pruneAt_child tree.branches numbered.distinct above, ← rootCut]
          simp [discard, cutChild, branches]
        · cases bare : tree.root with
          | none => simp [discard, cutChild, rootId?, bare]
          | some root =>
              obtain ⟨entry, below⟩ := root
              simp only [discard, cutChild, rootId?, bare, Option.map_some, Rose.update,
                decide_eq_true_eq]
              split
              · rename_i here
                simp [here]
              · rfl

end Tree

end ScopedClauses
