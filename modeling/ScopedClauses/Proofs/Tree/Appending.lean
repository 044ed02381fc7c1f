import ScopedClauses.Proofs.Tree.Numbering

/-!
Shapes that are added below a node. They are numbered in pre-order from the next number on, in one
piece or one after the other.
-/

namespace ScopedClauses

namespace Tree

open Rose

variable {N : Type}

theorem numberAll_append (first : Nat) (front back : List (Shape N)) :
    numberAll first (front ++ back) =
      numberAll first front ++ numberAll (first + sizeAll front) back := by
  induction front generalizing first with
  | nil => rfl
  | cons shape rest ih => simp [numberAll, sizeAll, ih, Nat.add_assoc]

theorem sizeAll_append (front back : List (Shape N)) :
    sizeAll (front ++ back) = sizeAll front + sizeAll back := by
  induction front with
  | nil => simp [sizeAll]
  | cons shape rest ih => simp [sizeAll, ih, Nat.add_assoc]

structure Appended (before : Tree N) (holder : Branch N) (shapes : List (Shape N))
    (after : Tree N) : Prop where
  grew : Regrown before holder
    (.node holder.label (holder.children ++ numberAll before.next shapes)) after
  next : after.next = before.next + sizeAll shapes

namespace Appended

variable {before middle after : Tree N} {holder : Branch N} (numbered : before.Numbered)
  (member : holder ∈ before.live)

include numbered member

theorem nil : Appended before holder [] before := by
  refine ⟨?_, rfl⟩
  rw [numberAll, List.append_nil, node_eta]
  exact Regrown.refl numbered member

theorem append {front back : List (Shape N)} (first : Appended before holder front middle)
    (second : Appended middle
      (.node holder.label (holder.children ++ numberAll before.next front)) back after) :
    Appended before holder (front ++ back) after := by
  refine ⟨?_, ?_⟩
  · have grew := first.grew.trans second.grew numbered member
    rwa [children_node, label_node, first.next, List.append_assoc, ← numberAll_append] at grew
  · rw [second.next, first.next, sizeAll_append, Nat.add_assoc]

theorem live_bud {label : Keyed N} (first : Appended before holder [.node label []] middle) :
    bud label.key label.content before.next ∈ middle.live :=
  first.grew.live_of_new numbered member (mem_preorderAll_trans _ (self_mem _)
    (mem_preorderAll_of_mem (by simp [numberAll, Rose.number, bud])))

theorem nest {label : Keyed N} {inner : List (Shape N)}
    (first : Appended before holder [.node label []] middle)
    (second : Appended middle (bud label.key label.content before.next) inner after) :
    Appended before holder [.node label inner] after := by
  have next : middle.next = before.next + 1 := first.next
  refine ⟨?_, ?_⟩
  · have numberedMiddle := first.grew.numbered numbered member
    have live := first.grew.live_new numbered member
    have inside := second.grew.child holder.children [] numberedMiddle live
    have grew := first.grew.trans inside numbered member
    rwa [next] at grew
  · rw [second.next, next]
    simp [sizeAll, size, Nat.add_assoc, Nat.add_comm 1]

theorem entries_perm {shapes : List (Shape N)} (appended : Appended before holder shapes after) :
    (entries after.branches).Perm
      (entries before.branches ++ entries (numberAll before.next shapes)) := by
  have grown := entries_updateAt before.branches numbered.distinct
    (.node holder.label (holder.children ++ numberAll before.next shapes)) member
  rw [← appended.grew.branches] at grown
  have split : entries [.node holder.label (holder.children ++ numberAll before.next shapes)] =
      entries [holder] ++ entries (numberAll before.next shapes) := by
    obtain ⟨label, children⟩ := holder
    simp [entries_append]
  rw [split] at grown
  refine (List.perm_append_right_iff (entries [holder])).mp (grown.trans ?_)
  rw [List.append_assoc]
  exact List.perm_append_comm.append_left _

end Appended

theorem Appended.eq_ofShape {label : Keyed N} {shapes : List (Shape N)} {after : Tree N}
    (appended : Appended (ofShape (.node label [])) (.node ⟨label, 0⟩ []) shapes after) :
    after = ofShape (.node label shapes) := by
  refine eq_of_branches ?_ ?_ ?_
  · rw [appended.grew.branches]
    simp [branches, ofShape, Rose.number, numberAll, updateAt_cons, size, sizeAll]
  · rw [appended.grew.rooted]
    rfl
  · rw [appended.next]
    simp [ofShape, size, sizeAll, Nat.add_comm]

end Tree

end ScopedClauses
