import Mathlib.Algebra.Order.Group.Multiset
import Mathlib.Data.Multiset.Filter
import ScopedClauses.Proofs.Tree.Running

/-!
What a view shows of the nodes of a tree, each node counted, and trees that keep their nodes:
whatever comes to stand above, between or after the nodes that were there, these keep their order,
and what is shown of the others is new.
-/

namespace ScopedClauses

variable {N : Type} {α : Type}

namespace Rose

def seen (view : Keyed N → Option α) (label : Keyed N) : Multiset α :=
  ((view label).toList : List α)

def shown (view : Keyed N → Option α) (forest : List (Shape N)) : Multiset α :=
  Multiset.filterMap view ((preorderAll forest).map label : List (Keyed N))

variable (view : Keyed N → Option α)

@[simp] theorem shown_nil : shown view [] = 0 := rfl

theorem shown_append (front back : List (Shape N)) :
    shown view (front ++ back) = shown view front + shown view back := by
  rw [shown, preorderAll_append, List.map_append, ← Multiset.coe_add, Multiset.filterMap_add]
  rfl

theorem shown_cons (shape : Shape N) (rest : List (Shape N)) :
    shown view (shape :: rest) = shown view [shape] + shown view rest :=
  shown_append view [shape] rest

theorem shown_node (label : Keyed N) (children : List (Shape N)) :
    shown view [.node label children] = seen view label + shown view children := by
  rw [shown, shown, seen, Multiset.filterMap_coe, Multiset.filterMap_coe, Multiset.coe_add]
  cases viewed : view label <;> simp [viewed]

theorem shown_leaf (label : Keyed N) :
    shown view [.node label []] = seen view label := by
  rw [shown_node, shown_nil, add_zero]

theorem shown_shapes (forest : List (Branch N)) :
    shown view (shapes forest) =
      Multiset.filterMap view ((entries forest).map Entry.toKeyed : List (Keyed N)) := by
  rw [shown, preorderAll_shapes, entries, List.map_map, List.map_map]
  congr 2
  exact List.map_congr_left fun branch _ => label_shape branch

variable {view}

theorem seen_none {label : Keyed N} (unseen : view label = none) : seen view label = 0 := by
  rw [seen, unseen]
  rfl

theorem shown_trade {after taken before added : List (Branch N)}
    (trade : (entries after ++ entries taken).Perm (entries before ++ entries added)) :
    shown view (shapes after) + shown view (shapes taken) =
      shown view (shapes before) + shown view (shapes added) := by
  rw [← shown_append, ← shown_append, ← shapes_append, ← shapes_append, shown_shapes, shown_shapes,
    entries_append, entries_append, Multiset.coe_eq_coe.mpr (trade.map Entry.toKeyed)]

theorem entries_cons_eq (branch : Branch N) (rest : List (Branch N)) :
    entries (branch :: rest) = entries [branch] ++ entries rest :=
  entries_append [branch] rest

theorem sublist_entries_updateAt {old new : Branch N}
    (kept : (entries [old]).Sublist (entries [new])) (forest : List (Branch N))
    (only : ∀ branch ∈ preorderAll forest, branch.id = old.id → branch = old) :
    (entries forest).Sublist (entries (updateAt old.id (fun _ => new) forest)) := by
  induction forest using forestInduction with
  | nil => exact List.Sublist.refl _
  | cons label children rest ihBelow ihBeside =>
      rw [preorderAll_cons, List.forall_mem_cons, List.forall_mem_append] at only
      obtain ⟨here, below, beside⟩ := only
      rw [updateAt_cons, entries_cons_eq, entries_cons_eq _ (updateAt _ _ rest)]
      refine List.Sublist.append ?_ (ihBeside beside)
      split
      · rename_i same
        rwa [here same]
      · rw [entries_cons, entries_cons, entries_nil, List.append_nil, List.append_nil]
        exact (ihBelow below).cons_cons label

end Rose

namespace Tree

open Rose

variable {view : Keyed N → Option α} {tree before middle after : Tree N} {new more : Multiset α}

structure Keeps (view : Keyed N → Option α) (before : Tree N) (new : Multiset α) (after : Tree N) :
    Prop where
  numbered : after.Numbered
  kept : (entries before.branches).Sublist (entries after.branches)
  shows : shown view (shapes after.branches) = shown view (shapes before.branches) + new

namespace Keeps

theorem refl (numbered : tree.Numbered) : Keeps view tree 0 tree :=
  ⟨numbered, List.Sublist.refl _, (add_zero _).symm⟩

theorem trans (first : Keeps view before new middle) (second : Keeps view middle more after) :
    Keeps view before (new + more) after :=
  ⟨second.numbered, first.kept.trans second.kept, by rw [second.shows, first.shows, add_assoc]⟩

theorem of_regrown {old grown : Branch N} (regrown : Regrown before old grown after)
    (numbered : before.Numbered) (member : old ∈ before.live)
    (kept : (entries [old]).Sublist (entries [grown]))
    (shows : shown view [grown.shape] = shown view [old.shape] + new) :
    Keeps view before new after := by
  have trade : shown view (shapes after.branches) + shown view (shapes [old]) =
      shown view (shapes before.branches) + shown view (shapes [grown]) :=
    shown_trade (regrown.entries_perm numbered member)
  rw [shapes_cons_eq, shapes_cons_eq, shapes_nil, shows] at trade
  refine ⟨regrown.numbered numbered member, ?_, ?_⟩
  · rw [regrown.branches]
    exact sublist_entries_updateAt kept before.branches fun branch live same =>
      eq_of_id numbered.distinct live member same
  · refine add_right_cancel (b := shown view [old.shape]) ?_
    rw [trade, add_assoc, add_comm new]

theorem of_top {old grown : Branch N} (numbered : after.Numbered) (only : before.branches = [old])
    (grew : after.branches = [grown]) (kept : (entries [old]).Sublist (entries [grown]))
    (shows : shown view [grown.shape] = shown view [old.shape] + new) :
    Keeps view before new after := by
  refine ⟨numbered, ?_, ?_⟩
  · rwa [only, grew]
  · rwa [only, grew, shapes_cons_eq, shapes_cons_eq, shapes_nil]

theorem shown_others (keeps : Keeps view before new after) :
    Multiset.filterMap view (((entries after.branches).filter
      (·.id ∉ numbers before.branches)).map Entry.toKeyed : List (Keyed N)) = new := by
  obtain ⟨others, parts⟩ := keeps.kept.exists_perm_append
  have distinct : ((entries before.branches ++ others).map Entry.id).Nodup := by
    rw [← (parts.map Entry.id).nodup_iff, map_id_entries]
    exact keeps.numbered.distinct
  rw [List.map_append, map_id_entries, List.nodup_append] at distinct
  have old : (entries before.branches).filter (·.id ∉ numbers before.branches) = [] := by
    refine List.filter_eq_nil_iff.mpr fun entry listed => ?_
    simpa [← map_id_entries] using ⟨entry, listed, rfl⟩
  have fresh : others.filter (·.id ∉ numbers before.branches) = others := by
    refine List.filter_eq_self.mpr fun entry listed => decide_eq_true fun again => ?_
    exact distinct.2.2 _ again _ (List.mem_map_of_mem listed) rfl
  have same := (parts.filter (·.id ∉ numbers before.branches)).map Entry.toKeyed
  rw [List.filter_append, old, fresh, List.nil_append] at same
  have total := keeps.shows
  rw [shown_shapes, shown_shapes, Multiset.coe_eq_coe.mpr (parts.map Entry.toKeyed),
    List.map_append, ← Multiset.coe_add, Multiset.filterMap_add] at total
  rw [Multiset.coe_eq_coe.mpr same]
  exact add_left_cancel total

end Keeps

theorem keeps_insertRoot (numbered : tree.Numbered) {content : N} {key : Option String} {id : Nat}
    (inserted : tree.insertRoot content key = .ok (id, after)) :
    Keeps view tree (seen view ⟨key, content⟩) after := by
  have renewed := renewed_insertRoot numbered inserted
  unfold insertRoot at inserted
  split at inserted
  · cases inserted
  · rename_i bare
    cases Result.pure_ok.mp inserted
    have old : tree.branches = tree.detached := by simp [branches, bare]
    refine ⟨renewed.numbered, ?_, ?_⟩
    · rw [old, branches, Option.toList_some, entries_append]
      exact List.sublist_append_right _ _
    · rw [old, branches, Option.toList_some, shapes_append, shown_append, shapes_cons, shapes_nil,
        shown_leaf, add_comm]

theorem keeps_insert [NodeRules N] (numbered : tree.Numbered) {content : N} {parent id : Nat}
    {key : Option String} (inserted : tree.insert content parent key = .ok (id, after)) :
    Keeps view tree (seen view ⟨key, content⟩) after := by
  obtain ⟨holder, member, _, _, _, regrown⟩ := insert_ok numbered inserted
  refine .of_regrown regrown numbered member ?_ ?_
  · rw [entries_extended]
    exact List.sublist_append_left _ _
  · obtain ⟨label, children⟩ := holder
    rw [extended, shape_node, shape_node, shown_node, shown_node, children_node, shapes_append,
      shown_append, bud, shapes_cons, shapes_nil, shown_leaf, add_assoc]
    rfl

end Tree

end ScopedClauses
