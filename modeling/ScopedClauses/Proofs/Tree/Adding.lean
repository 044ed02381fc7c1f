import Mathlib.Data.List.Find
import ScopedClauses.Proofs.Tree.Above

/-!
Trees that are only added to. A node that was there keeps its way outwards, and the nodes that are
put below it come after the children that it had.
-/

namespace ScopedClauses

namespace Rose

variable {N : Type}

theorem map_id_updateAt {number : Nat} {new : Branch N} (same : new.id = number)
    (forest : List (Branch N)) :
    (updateAt number (fun _ => new) forest).map Rose.id = forest.map Rose.id := by
  induction forest with
  | nil => rfl
  | cons branch rest ih =>
      obtain ⟨label, children⟩ := branch
      rw [updateAt_cons, List.map_cons, List.map_cons, ih]
      split
      · rename_i here
        rw [same, ← here]
        rfl
      · rfl

end Rose

namespace Tree

open Rose

variable {N : Type} {before middle after : Tree N} {new more : List (Entry N)}

theorem children_of_dead {tree : Tree N} {id : Nat} (dead : id ∉ numbers tree.branches) :
    tree.children id = [] := by
  rw [children, childBranches, find?, ancestry,
    show pathAny? _ tree.branches = none from (pathTo?_eq_none_iff _).mpr dead]
  rfl

theorem id_extended (holder child : Branch N) : (extended holder child).id = holder.id := rfl

theorem children_replaced {old new : Branch N} (numbered : before.Numbered)
    (numberedAfter : after.Numbered) (member : old ∈ before.live)
    (branches : after.branches = updateAt old.id (fun _ => new) before.branches)
    (same : new.id = old.id)
    (keeps : ∀ branch ∈ preorderAll old.children, branch ∈ preorderAll new.children) {number : Nat}
    (present : number ∈ numbers before.branches) (other : number ≠ old.id) :
    after.children number = before.children number := by
  obtain ⟨branch, live, rfl⟩ := exists_of_mem_numbers present
  rw [children_of_live numbered live]
  by_cases within : branch.id ∈ numbers [old]
  -- below the branch nothing changes
  · have inside := branch_of_mem_numbers numbered.distinct member live within
    have below : branch ∈ preorderAll old.children := by
      rw [← node_eta old, preorderAll_cons, preorderAll_nil, List.append_nil, List.mem_cons] at inside
      refine inside.resolve_left fun here => other ?_
      rw [here]
      rfl
    have kept : branch ∈ preorderAll [new] := by
      rw [← node_eta new, preorderAll_cons]
      simp [keeps branch below]
    refine children_of_live numberedAfter ?_
    rw [Tree.live, branches]
    exact mem_updateAt before.branches numbered.distinct member kept
  · have around : .node branch.label (updateAt old.id (fun _ => new) branch.children) ∈
        after.live := by
      rw [Tree.live, branches]
      exact mem_updateAt_around before.branches live fun head headLive here => by
        rwa [eq_of_id numbered.distinct headLive member here]
    have kept := children_of_live numberedAfter around
    rwa [id_node, children_node, map_id_updateAt same] at kept

theorem Regrown.children_elsewhere {old new : Branch N} (regrown : Regrown before old new after)
    (numbered : before.Numbered) (member : old ∈ before.live) (same : new.id = old.id)
    (keeps : ∀ branch ∈ preorderAll old.children, branch ∈ preorderAll new.children) {number : Nat}
    (present : number ∈ numbers before.branches) (other : number ≠ old.id) :
    after.children number = before.children number :=
  children_replaced numbered (regrown.numbered numbered member) member regrown.branches same keeps
    present other

theorem Regrown.children_bud {holder : Branch N} {key : Option String} {content : N} {id : Nat}
    (regrown : Regrown before holder (extended holder (bud key content id)) after)
    (numbered : before.Numbered) (member : holder ∈ before.live) (new : id = before.next)
    (number : Nat) :
    after.children number =
      if number = holder.id then before.children number ++ [id] else before.children number := by
  have numberedAfter := regrown.numbered numbered member
  split
  · rename_i here
    have grown := children_of_live numberedAfter (regrown.live_new numbered member)
    rw [id_extended] at grown
    rw [here, children_of_live numbered member, grown, extended, children_node, List.map_append]
    rfl
  · rename_i elsewhere
    by_cases present : number ∈ numbers before.branches
    · refine regrown.children_elsewhere numbered member (id_extended holder _) (fun branch below => ?_)
        present elsewhere
      rw [extended, children_node, preorderAll_append]
      exact List.mem_append_left _ below
    · rw [children_of_dead present]
      by_cases own : number = id
      · subst own
        have inside : bud key content number ∈
            preorderAll [extended holder (bud key content number)] :=
          mem_preorderAll_trans _ (mem_preorderAll_of_mem (List.mem_singleton_self _))
            (mem_preorderAll_of_mem (by simp [extended]))
        exact children_of_live numberedAfter (regrown.live_of_new numbered member inside)
      · refine children_of_dead ((lineage_eq_nil_iff _).mp ?_)
        rw [regrown.lineage_bud numbered member new, if_neg own]
        exact (lineage_eq_nil_iff _).mpr present

structure Added (before after : Tree N) (new : List (Entry N)) : Prop where
  numbered : after.Numbered
  later : before.next ≤ after.next
  fresh : ∀ entry ∈ new, before.next ≤ entry.id
  entries : (entries after.branches).Perm (entries before.branches ++ new)
  lines : ∀ number ∈ numbers before.branches,
    lineage number after.branches = lineage number before.branches
  children : ∀ number, before.children number <+: after.children number

namespace Added

theorem refl (numbered : before.Numbered) : Added before before [] :=
  ⟨numbered, Nat.le_refl _, fun _ none => (by cases none), by rw [List.append_nil],
    fun _ _ => rfl, fun _ => List.prefix_refl _⟩

theorem mem_numbers_iff (added : Added before after new) {number : Nat} :
    number ∈ numbers after.branches ↔
      number ∈ numbers before.branches ∨ number ∈ new.map Entry.id := by
  rw [← map_id_entries, ← map_id_entries, (added.entries.map Entry.id).mem_iff, List.map_append,
    List.mem_append]

theorem trans (first : Added before middle new) (second : Added middle after more) :
    Added before after (new ++ more) := by
  refine ⟨second.numbered, Nat.le_trans first.later second.later, fun entry listed => ?_, ?_,
    fun number present => ?_, fun number => ?_⟩
  · rcases List.mem_append.mp listed with early | late
    · exact first.fresh entry early
    · exact Nat.le_trans first.later (second.fresh entry late)
  · rw [← List.append_assoc]
    exact second.entries.trans (first.entries.append_right more)
  · rw [second.lines number (first.mem_numbers_iff.mpr (Or.inl present)),
      first.lines number present]
  · exact (first.children number).trans (second.children number)

theorem bud {holder : Branch N} {key : Option String} {content : N} {id : Nat}
    (regrown : Regrown before holder (extended holder (Tree.bud key content id)) after)
    (numbered : before.Numbered) (member : holder ∈ before.live) (new : id = before.next) :
    Added before after [⟨⟨key, content⟩, id⟩] := by
  refine ⟨regrown.numbered numbered member, regrown.later, ?_, ?_, fun number present => ?_,
    fun number => ?_⟩
  · simp [new]
  · exact (regrown.entries_bud numbered member).trans (List.perm_append_singleton _ _).symm
  · have bound := numbered.bounded number present
    rw [regrown.lineage_bud numbered member new, if_neg (by omega)]
  · rw [regrown.children_bud numbered member new]
    split
    · exact List.prefix_append _ _
    · exact List.prefix_refl _

theorem nodes_perm (added : Added before after new) (settled : before.detached = [])
    (settledAfter : after.detached = []) :
    (after.nodes.map label).Perm (before.nodes.map label ++ new) := by
  rw [nodes_eq_live settled, nodes_eq_live settledAfter]
  exact added.entries

theorem parent?_eq (added : Added before after new) {id : Nat}
    (present : id ∈ numbers before.branches) : after.parent? id = before.parent? id := by
  rw [parent?_eq_lineage, parent?_eq_lineage, added.lines id present]

end Added

/-! ### A node more -/

structure Planted (before : Tree N) (parent id : Nat) (content : N) (after : Tree N) : Prop where
  numbered : after.Numbered
  holder : ∃ node, before.get? parent = some node
  new : before.get? id = none
  root : after.rootId? = before.rootId?
  ways : ∀ number, number ≠ id →
    lineage number after.branches = lineage number before.branches
  contents : ∀ number, after.get? number = if number = id then some content else before.get? number
  children : ∀ number, after.children number =
    if number = parent then before.children number ++ [id] else before.children number

theorem planted_insert [NodeRules N] (numbered : before.Numbered) {content : N} {parent id : Nat}
    {key : Option String} (inserted : before.insert content parent key = .ok (id, after)) :
    Planted before parent id content after := by
  obtain ⟨holder, member, rfl, new, _, regrown⟩ := insert_ok numbered inserted
  have ways := regrown.lineage_bud numbered member new
  refine ⟨regrown.numbered numbered member, ⟨holder.content, ?_⟩, ?_,
    regrown.rootId? (id_extended holder _), fun number other => by rw [ways, if_neg other], fun number => ?_,
    regrown.children_bud numbered member new⟩
  · rw [get?, find?_of_live numbered member]
    rfl
  · have dead : id ∉ numbers before.branches := fun present => by
      have bound := numbered.bounded id present
      omega
    rw [get?_eq_lineage, lineage_of_not_mem dead]
    rfl
  · rw [get?_eq_lineage, ways]
    split
    · rfl
    · exact (get?_eq_lineage before number).symm

theorem mem_numbers_of_get? {tree : Tree N} {number : Nat} {node : N}
    (got : tree.get? number = some node) : number ∈ numbers tree.branches := by
  obtain ⟨branch, found, _⟩ := Option.map_eq_some_iff.mp got
  obtain ⟨member, rfl⟩ := live_of_find? found
  exact id_mem_numbers member

theorem known_of_child {tree : Tree N} (numbered : tree.Numbered) {parent child : Nat}
    (below : child ∈ tree.children parent) :
    (∃ node, tree.get? parent = some node) ∧ ∃ node, tree.get? child = some node := by
  rw [children, childBranches] at below
  split at below
  · rename_i holder found
    obtain ⟨member, rfl⟩ := live_of_find? found
    obtain ⟨branch, inside, rfl⟩ := List.mem_map.mp below
    have live := mem_preorderAll_trans _ member (mem_preorderAll_of_mem inside)
    rw [get?, get?, found, find?_of_live numbered live]
    exact ⟨⟨_, rfl⟩, _, rfl⟩
  · cases below

theorem parent?_of_mem_children {tree : Tree N} (numbered : tree.Numbered) {parent child : Nat}
    (below : child ∈ tree.children parent) : tree.parent? child = some parent := by
  obtain ⟨node, got⟩ := (known_of_child numbered below).1
  have present := (contains_iff numbered).mpr (mem_numbers_of_get? got)
  exact ((numbered.linked.children present).2 child below).2

theorem findChild?_eq {tree : Tree N} (numbered : tree.Numbered) (parent : Nat) (wanted : N → Bool) :
    tree.findChild? parent (fun node _ => wanted node) =
      (tree.children parent).find? fun child => (tree.get? child).any wanted := by
  rw [findChild?, children, childBranches]
  split
  · rename_i holder found
    obtain ⟨member, rfl⟩ := live_of_find? found
    rw [List.find?_map]
    congr 1
    refine List.find?_congr fun child below => ?_
    have live := mem_preorderAll_trans _ member (mem_preorderAll_of_mem below)
    rw [Function.comp_apply, get?, find?_of_live numbered live]
    rfl
  · rfl

theorem find?_of_prefix {first second : List α} {wanted other : α → Bool} {found : α}
    (longer : first <+: second) (same : ∀ item ∈ first, other item = wanted item)
    (here : first.find? wanted = some found) : second.find? other = some found := by
  rw [← List.find?_congr same] at here
  exact longer.find?_eq_some here

theorem findChild?_kept (numbered : before.Numbered) (numberedAfter : after.Numbered) {parent id : Nat}
    {wanted : N → Bool}
    (contents : ∀ number node, before.get? number = some node → after.get? number = some node)
    (children : before.children parent <+: after.children parent)
    (found : before.findChild? parent (fun node _ => wanted node) = some id) :
    after.findChild? parent (fun node _ => wanted node) = some id := by
  rw [findChild?_eq numbered] at found
  rw [findChild?_eq numberedAfter]
  refine find?_of_prefix children (fun child below => ?_) found
  obtain ⟨node, got⟩ := (known_of_child numbered below).2
  rw [got, contents child node got]

namespace Planted

variable {parent id : Nat} {content : N}

theorem kept (planted : Planted before parent id content after) {number : Nat} {node : N}
    (got : before.get? number = some node) : after.get? number = some node := by
  rw [planted.contents, if_neg, got]
  rintro rfl
  rw [planted.new] at got
  cases got

theorem currentScope [Scoped N] (planted : Planted before parent id content after) {number : Nat}
    {node : N} (got : before.get? number = some node) :
    after.currentScope number = before.currentScope number := by
  have other : number ≠ id := by
    rintro rfl
    rw [planted.new] at got
    cases got
  rw [currentScope_eq_lineage, currentScope_eq_lineage, planted.ways number other]

theorem prefix_children (planted : Planted before parent id content after) (number : Nat) :
    before.children number <+: after.children number := by
  rw [planted.children]
  split
  · exact List.prefix_append _ _
  · exact List.prefix_refl _

theorem findChild? (planted : Planted before parent id content after) (numbered : before.Numbered)
    (holder : Nat) (wanted : N → Bool) :
    after.findChild? holder (fun node _ => wanted node) =
      (before.findChild? holder fun node _ => wanted node).or
        (if holder = parent ∧ wanted content = true then some id else none) := by
  have others : (before.children holder).find? (fun child => (after.get? child).any wanted) =
      (before.children holder).find? fun child => (before.get? child).any wanted := by
    refine List.find?_congr fun child below => ?_
    obtain ⟨node, got⟩ := (known_of_child numbered below).2
    rw [got, planted.kept got]
  rw [findChild?_eq planted.numbered, findChild?_eq numbered, planted.children]
  split
  · rename_i here
    rw [List.find?_append, others, List.find?_singleton, planted.contents, if_pos rfl,
      Option.any_some]
    simp [here]
  · rename_i elsewhere
    simp [others, elsewhere]

end Planted

end Tree

end ScopedClauses
