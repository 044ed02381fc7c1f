import ScopedClauses.Proofs.Tree.Keeping

/-!
How much an operation adds to what a view shows of the nodes of a tree. Nodes that move or go add
nothing; a node that comes or changes adds what the view shows of it.
-/

namespace ScopedClauses

variable {N : Type} {α : Type}

namespace Tree

open Rose

variable {view : Keyed N → Option α} {tree before middle after : Tree N} {new more : Multiset α}

structure Gains (view : Keyed N → Option α) (before : Tree N) (new : Multiset α) (after : Tree N) :
    Prop where
  numbered : after.Numbered
  le : shown view (shapes after.branches) ≤ shown view (shapes before.branches) + new

theorem Keeps.gains (keeps : Keeps view before new after) : Gains view before new after :=
  ⟨keeps.numbered, keeps.shows.le⟩

namespace Gains

theorem refl (numbered : tree.Numbered) : Gains view tree 0 tree :=
  (Keeps.refl numbered).gains

theorem trans (first : Gains view before new middle) (second : Gains view middle more after) :
    Gains view before (new + more) after := by
  refine ⟨second.numbered, second.le.trans ?_⟩
  rw [← add_assoc]
  exact add_le_add first.le le_rfl

theorem mono (gains : Gains view before new after) (le : new ≤ more) :
    Gains view before more after :=
  ⟨gains.numbered, gains.le.trans (add_le_add le_rfl le)⟩

theorem of_part (numbered : after.Numbered) (gone : List (Branch N))
    (trade : (entries after.branches ++ entries gone).Perm (entries before.branches)) :
    Gains view before 0 after := by
  have same : shown view (shapes after.branches) + shown view (shapes gone) =
      shown view (shapes before.branches) + shown view (shapes []) :=
    shown_trade (by simpa using trade)
  refine ⟨numbered, ?_⟩
  rw [shapes_nil, shown_nil] at same
  rw [← same]
  exact Multiset.le_add_right _ _

theorem of_perm (numbered : after.Numbered)
    (same : (entries after.branches).Perm (entries before.branches)) : Gains view before 0 after :=
  of_part numbered [] (by simpa using same)

theorem of_regrown {old grown : Branch N} (regrown : Regrown before old grown after)
    (numbered : before.Numbered) (member : old ∈ before.live)
    (le : shown view [grown.shape] ≤ shown view [old.shape] + new) :
    Gains view before new after := by
  have trade : shown view (shapes after.branches) + shown view (shapes [old]) =
      shown view (shapes before.branches) + shown view (shapes [grown]) :=
    shown_trade (regrown.entries_perm numbered member)
  rw [shapes_cons_eq, shapes_cons_eq, shapes_nil] at trade
  refine ⟨regrown.numbered numbered member, ?_⟩
  refine le_of_add_le_add_right (a := shown view [old.shape]) ?_
  rw [trade, add_assoc, add_comm new]
  exact add_le_add le_rfl le

theorem rooted (gains : Gains view before new after) (settled : before.detached = []) :
    shown view after.shape?.toList ≤ shown view before.shape?.toList + new := by
  have le := gains.le
  rw [branches, branches, settled, List.append_nil, shapes_append, shown_append, shapes_root,
    shapes_root] at le
  exact (Multiset.le_add_right _ _).trans le

end Gains

theorem gains_insertRoot (numbered : tree.Numbered) {content : N} {key : Option String} {id : Nat}
    (inserted : tree.insertRoot content key = .ok (id, after)) :
    Gains view tree (seen view ⟨key, content⟩) after :=
  (keeps_insertRoot numbered inserted).gains

theorem gains_insert [NodeRules N] (numbered : tree.Numbered) {content : N} {parent id : Nat}
    {key : Option String} (inserted : tree.insert content parent key = .ok (id, after)) :
    Gains view tree (seen view ⟨key, content⟩) after :=
  (keeps_insert numbered inserted).gains

theorem gains_detach (numbered : tree.Numbered) {id : Nat} (done : tree.detach id = .ok after) :
    Gains view tree 0 after :=
  .of_perm (renewed_detach numbered done).numbered (entries_detach numbered done)

theorem gains_attach [NodeRules N] (numbered : tree.Numbered) {id parent : Nat}
    (done : tree.attach id parent = .ok after) : Gains view tree 0 after := by
  have renewed := renewed_attach numbered done
  obtain ⟨branch, cut, holder, member, outside, rfl⟩ := attached numbered done
  exact .of_perm renewed.numbered (entries_rehang numbered cut member outside)

theorem gains_move [NodeRules N] (numbered : tree.Numbered) {id target : Nat}
    (moved : tree.move id target = (after, .ok ())) : Gains view tree 0 after := by
  simp only [move] at moved
  split at moved
  · cases congrArg (·.2) moved
  · split at moved
    · rename_i branch cut found detached
      split at moved
      · rename_i result attached
        cases moved
        have first : Gains view tree 0 cut := gains_detach numbered detached
        simpa using first.trans (gains_attach first.numbered attached)
      · cases congrArg (·.2) moved
    · cases congrArg (·.2) moved
    · cases congrArg (·.2) moved

theorem gains_remove (numbered : tree.Numbered) {id : Nat} {removed : Tree N}
    (done : tree.remove id = .ok (removed, after)) :
    Gains view tree 0 after ∧ entries after.branches ⊆ entries tree.branches := by
  have renewed := renewed_remove numbered done
  simp only [remove, Result.bind_ok, Result.pure_ok, Prod.mk.injEq] at done
  obtain ⟨_, _, cut, detached, _, rfl⟩ := done
  have first := renewed_detach numbered detached
  obtain ⟨branch, _, rfl, inCut, _, _, _⟩ := detach_ok detached
  have trade := (entries_discard first.numbered inCut).trans (entries_detach numbered detached)
  exact ⟨.of_part renewed.numbered [branch] trade,
    fun entry kept => trade.subset (List.mem_append_left _ kept)⟩

theorem gains_removals (numbered : tree.Numbered) {ids : List Nat}
    (done : ids.foldlM (fun tree id => (·.2) <$> tree.remove id) tree = .ok after) :
    Gains view tree 0 after ∧ entries after.branches ⊆ entries tree.branches := by
  induction ids generalizing tree with
  | nil =>
      cases Result.pure_ok.mp done
      exact ⟨.refl numbered, List.Subset.refl _⟩
  | cons number rest ih =>
      rw [List.foldlM_cons] at done
      obtain ⟨middle, here, done⟩ := Result.bind_ok.mp done
      obtain ⟨⟨removed, cut⟩, removes, rfl⟩ := Result.map_ok.mp here
      obtain ⟨first, kept⟩ : Gains view tree 0 cut ∧ entries cut.branches ⊆ entries tree.branches :=
        gains_remove numbered removes
      obtain ⟨others, left⟩ := ih first.numbered done
      exact ⟨by simpa using first.trans others, fun entry inside => kept (left inside)⟩

end Tree

end ScopedClauses
