import ScopedClauses.Proofs.Tree.Forest

/-!
Trees whose numbers are each given out once. Every way to grow or rearrange such a tree trades
one branch for another whose numbers are old or new to the whole tree.
-/

namespace ScopedClauses

namespace Tree

open Rose

variable {N : Type}

def live (tree : Tree N) : List (Branch N) := preorderAll tree.branches

structure Numbered (tree : Tree N) : Prop where
  distinct : (numbers tree.branches).Nodup
  bounded : ∀ number ∈ numbers tree.branches, number < tree.next

theorem numbered_empty : Numbered ({} : Tree N) :=
  ⟨List.nodup_nil, fun _ absent => absurd absent List.not_mem_nil⟩

theorem live_of_branches {tree : Tree N} {branch inner : Branch N} (member : branch ∈ tree.live)
    (inside : inner ∈ preorderAll [branch]) : inner ∈ tree.live :=
  mem_preorderAll_of_branch tree.branches member inside

theorem nodes_eq_live {tree : Tree N} (settled : tree.detached = []) : tree.nodes = tree.live := by
  simp [nodes, live, branches, settled]

/-! ### Looking nodes up -/

theorem ancestry_of_live {tree : Tree N} (numbered : tree.Numbered) {branch : Branch N}
    (member : branch ∈ tree.live) :
    ∃ outward, tree.ancestry branch.id = branch :: outward ∧
      ∀ child ∈ branch.children, tree.ancestry child.id = child :: branch :: outward := by
  obtain ⟨outward, path, paths⟩ := pathTo?_of_mem tree.branches numbered.distinct member
  refine ⟨outward, ?_, fun child below => ?_⟩
  · simp only [ancestry]
    rw [show pathAny? _ _ = _ from path]
    rfl
  · simp only [ancestry]
    rw [show pathAny? _ _ = _ from paths child below]
    rfl

theorem find?_of_live {tree : Tree N} (numbered : tree.Numbered) {branch : Branch N}
    (member : branch ∈ tree.live) : tree.find? branch.id = some branch := by
  obtain ⟨_, path, _⟩ := ancestry_of_live numbered member
  rw [find?, path]
  rfl

theorem childBranches_of_live {tree : Tree N} (numbered : tree.Numbered) {branch : Branch N}
    (member : branch ∈ tree.live) : tree.childBranches branch.id = branch.children := by
  rw [childBranches, find?_of_live numbered member]

theorem children_of_live {tree : Tree N} (numbered : tree.Numbered) {branch : Branch N}
    (member : branch ∈ tree.live) : tree.children branch.id = branch.children.map Rose.id := by
  rw [children, childBranches_of_live numbered member]

theorem live_of_find? {tree : Tree N} {id : Nat} {branch : Branch N}
    (found : tree.find? id = some branch) : branch ∈ tree.live ∧ branch.id = id := by
  simp only [find?, ancestry] at found
  cases way : pathAny? (fun entry : Entry N => decide (entry.id = id)) tree.branches with
  | none => simp [way] at found
  | some path =>
      obtain ⟨first, outward, rfl, same, passes⟩ := pathTo?_some tree.branches way
      simp only [way, Option.getD_some, List.head?_cons, Option.some.injEq] at found
      subst found
      exact ⟨passes first (by simp), same⟩

theorem find_of_find? {tree : Tree N} {id : Nat} {branch : Branch N}
    (found : tree.find? id = some branch) : tree.find id = .ok branch := by
  rw [find, found]
  rfl

theorem find?_of_find {tree : Tree N} {id : Nat} {branch : Branch N}
    (found : tree.find id = .ok branch) : tree.find? id = some branch := by
  unfold find at found
  split at found
  · simp_all [pure, Except.pure]
  · cases found

theorem parent?_of_child {tree : Tree N} (numbered : tree.Numbered) {parent child : Branch N}
    (member : parent ∈ tree.live) (below : child ∈ parent.children) :
    tree.parent? child.id = some parent.id := by
  obtain ⟨_, _, paths⟩ := ancestry_of_live numbered member
  rw [parent?, paths child below]
  rfl

theorem ancestry_of_top {tree : Tree N} (numbered : tree.Numbered) {branch : Branch N}
    (top : branch ∈ tree.branches) : tree.ancestry branch.id = [branch] := by
  have path := pathTo?_of_top tree.branches numbered.distinct top
  rw [ancestry, show pathAny? _ _ = _ from path]
  rfl

theorem parent?_of_top {tree : Tree N} (numbered : tree.Numbered) {branch : Branch N}
    (top : branch ∈ tree.branches) : tree.parent? branch.id = none := by
  rw [parent?, ancestry_of_top numbered top]
  rfl

theorem live_of_root {tree : Tree N} {root : Branch N} (rooted : tree.root = some root) :
    root ∈ tree.live :=
  mem_preorderAll_of_mem (by simp [branches, rooted])

theorem ancestry_of_root {tree : Tree N} (numbered : tree.Numbered) {root : Branch N}
    (rooted : tree.root = some root) : tree.ancestry root.id = [root] :=
  ancestry_of_top numbered (by simp [branches, rooted])

/-- The way outwards from below a branch passes the branch. -/
theorem ancestry_of_below {tree : Tree N} (numbered : tree.Numbered) {outer inner : Branch N}
    (member : outer ∈ tree.live) (below : inner ∈ preorderAll outer.children) :
    ∃ between, tree.ancestry inner.id = inner :: (between ++ tree.ancestry outer.id) := by
  have passes : ∀ node ∈ preorderAll outer.children, node ∈ tree.live ∧
      ∃ between, tree.ancestry node.id = node :: (between ++ tree.ancestry outer.id) := by
    refine forall_preorderAll (fun top listed => ?_) ?_
    · obtain ⟨outward, way, ways⟩ := ancestry_of_live numbered member
      refine ⟨mem_preorderAll_trans _ member (mem_preorderAll_of_mem listed), [], ?_⟩
      rw [ways top listed, way, List.nil_append]
    · rintro node ⟨live, between, passed⟩ child listed
      obtain ⟨outward, way, ways⟩ := ancestry_of_live numbered live
      refine ⟨mem_preorderAll_trans _ live (mem_preorderAll_of_mem listed), node :: between, ?_⟩
      rw [ways child listed, ← way, passed, List.cons_append]
  exact (passes inner below).2

theorem ancestry_of_child {tree : Tree N} (numbered : tree.Numbered) {parent child : Branch N}
    (member : parent ∈ tree.live) (listed : child ∈ parent.children) :
    tree.ancestry child.id = child :: tree.ancestry parent.id := by
  obtain ⟨outward, way, ways⟩ := ancestry_of_live numbered member
  rw [ways child listed, way]

theorem ancestry_pairwise {tree : Tree N} (numbered : tree.Numbered) {branch : Branch N}
    (member : branch ∈ tree.live) :
    (tree.ancestry branch.id).Pairwise fun inner outer => inner ∈ preorderAll outer.children := by
  have nested : ∀ node ∈ preorderAll tree.branches, node ∈ tree.live ∧
      (tree.ancestry node.id).Pairwise fun inner outer => inner ∈ preorderAll outer.children := by
    refine forall_preorderAll (fun top listed => ?_) ?_
    · rw [ancestry_of_top numbered listed]
      exact ⟨mem_preorderAll_of_mem listed, List.pairwise_singleton _ top⟩
    · rintro node ⟨live, nested⟩ child listed
      refine ⟨mem_preorderAll_trans _ live (mem_preorderAll_of_mem listed), ?_⟩
      rw [ancestry_of_child numbered live listed]
      refine List.pairwise_cons.mpr ⟨fun outer passed => ?_, nested⟩
      obtain ⟨outward, way, _⟩ := ancestry_of_live numbered live
      rw [way] at passed nested
      rcases List.mem_cons.mp passed with rfl | further
      · exact mem_preorderAll_of_mem listed
      · have inside := (List.pairwise_cons.mp nested).1 outer further
        exact mem_preorderAll_trans _ inside (mem_preorderAll_of_mem listed)
  exact (nested branch member).2

theorem parent_unique {tree : Tree N} (numbered : tree.Numbered) {first second child : Branch N}
    (memberFirst : first ∈ tree.live) (memberSecond : second ∈ tree.live)
    (inFirst : child ∈ first.children) (inSecond : child ∈ second.children) : first = second := by
  obtain ⟨_, _, waysFirst⟩ := ancestry_of_live numbered memberFirst
  obtain ⟨_, _, waysSecond⟩ := ancestry_of_live numbered memberSecond
  have same := (waysFirst child inFirst).symm.trans (waysSecond child inSecond)
  simp only [List.cons.injEq] at same
  exact same.2.1

theorem child_unique {tree : Tree N} (numbered : tree.Numbered) {parent first second inner : Branch N}
    (member : parent ∈ tree.live) (listedFirst : first ∈ parent.children)
    (listedSecond : second ∈ parent.children) (inFirst : inner ∈ preorderAll [first])
    (inSecond : inner ∈ preorderAll [second]) : first = second := by
  have passes : ∀ {child : Branch N}, child ∈ parent.children → inner ∈ preorderAll [child] →
      ∃ front, tree.ancestry inner.id = (front ++ [child]) ++ tree.ancestry parent.id := by
    intro child listed inside
    have live : child ∈ tree.live := mem_preorderAll_trans _ member (mem_preorderAll_of_mem listed)
    have way := ancestry_of_child numbered member listed
    obtain ⟨label, children⟩ := child
    rw [preorderAll_cons, preorderAll_nil, List.append_nil] at inside
    rcases List.mem_cons.mp inside with rfl | below
    · exact ⟨[], way⟩
    · obtain ⟨between, passed⟩ := ancestry_of_below numbered live below
      exact ⟨inner :: between, by rw [passed, way]; simp⟩
  obtain ⟨front, way⟩ := passes listedFirst inFirst
  obtain ⟨otherFront, otherWay⟩ := passes listedSecond inSecond
  rw [way] at otherWay
  exact List.singleton_inj.mp (List.append_inj' (List.append_cancel_right otherWay) rfl).2

theorem child_of_parent? {tree : Tree N} (numbered : tree.Numbered) {branch : Branch N}
    (member : branch ∈ tree.live) {id : Nat} (found : tree.parent? branch.id = some id) :
    ∃ parent ∈ tree.live, parent.id = id ∧ branch ∈ parent.children := by
  rcases top_or_child tree.branches member with top | ⟨parent, above, below⟩
  · rw [parent?_of_top numbered top] at found
    cases found
  · rw [parent?_of_child numbered above below] at found
    exact ⟨parent, above, Option.some.inj found, below⟩

theorem preorder_of_live {tree : Tree N} (numbered : tree.Numbered) {branch : Branch N}
    (member : branch ∈ tree.live) : tree.preorder branch.id = numbers [branch] := by
  rw [preorder, find?_of_live numbered member]
  rfl

theorem descendants_of_live {tree : Tree N} (numbered : tree.Numbered) {branch : Branch N}
    (member : branch ∈ tree.live) : tree.descendants branch.id = numbers branch.children := by
  obtain ⟨label, children⟩ := branch
  rw [descendants, preorder_of_live numbered member, numbers_cons, numbers_nil, List.append_nil]
  rfl

theorem live_of_get {tree : Tree N} {id : Nat} {node : N} (got : tree.get id = .ok node) :
    ∃ branch ∈ tree.live, branch.id = id ∧ branch.content = node := by
  cases found : tree.find id with
  | error error => simp [get, found, Functor.map, Except.map] at got
  | ok branch =>
      obtain ⟨member, number⟩ := live_of_find? (find?_of_find found)
      refine ⟨branch, member, number, ?_⟩
      simpa [get, found, Functor.map, Except.map] using got

/-! ### Changing a branch -/

theorem branches_update (tree : Tree N) (id : Nat) (change : Branch N → Branch N) :
    (tree.update id change).branches = updateAt id change tree.branches := by
  simp only [branches, update, updateAt_append]
  congr 1
  cases tree.root <;> rfl

theorem eq_of_branches {first second : Tree N} (same : first.branches = second.branches)
    (rooted : first.root.isSome = second.root.isSome) (next : first.next = second.next) :
    first = second := by
  obtain ⟨root, detached, _⟩ := first
  obtain ⟨otherRoot, otherDetached, _⟩ := second
  simp only [branches] at same rooted next
  subst next
  cases root <;> cases otherRoot <;> simp_all

theorem nodup_of_trade {before after taken added : List Nat}
    (trade : (after ++ taken).Perm (before ++ added)) (distinct : before.Nodup)
    (part : ∀ number ∈ taken, number ∈ before) (addedDistinct : added.Nodup)
    (fresh : ∀ number ∈ added, number ∈ taken ∨ number ∉ before) : after.Nodup := by
  rw [List.nodup_iff_count]
  intro number
  have total := trade.count_eq number
  rw [List.count_append, List.count_append, distinct.count, addedDistinct.count] at total
  by_cases gone : number ∈ taken
  · have positive := List.count_pos_iff.mpr gone
    rw [if_pos (part number gone)] at total
    split at total <;> omega
  · by_cases new : number ∈ added
    · have unknown := (fresh number new).resolve_left gone
      rw [if_neg unknown, if_pos new] at total
      omega
    · rw [if_neg new] at total
      split at total <;> omega

/-- The tree `after` is the tree `before` with the branch `new` where `old` was. -/
structure Regrown (before : Tree N) (old new : Branch N) (after : Tree N) : Prop where
  branches : after.branches = updateAt old.id (fun _ => new) before.branches
  rooted : after.root.isSome = before.root.isSome
  later : before.next ≤ after.next
  distinct : (numbers [new]).Nodup
  fresh : ∀ number ∈ numbers [new],
    number ∈ numbers [old] ∨ before.next ≤ number ∧ number < after.next

namespace Regrown

variable {before middle after : Tree N} {old mid new : Branch N}

theorem refl (numbered : before.Numbered) (member : old ∈ before.live) :
    Regrown before old old before :=
  ⟨(updateAt_self before.branches numbered.distinct member).symm, rfl, Nat.le_refl _,
    numbered.distinct.sublist (sublist_numbers before.branches member), fun _ => Or.inl⟩

theorem parts (regrown : Regrown before old new after) :
    after.root.toList = updateAt old.id (fun _ => new) before.root.toList ∧
      after.detached = updateAt old.id (fun _ => new) before.detached := by
  have same := regrown.branches
  have rooted := regrown.rooted
  rw [Tree.branches, Tree.branches, updateAt_append] at same
  refine List.append_inj same ?_
  cases bare : before.root <;> cases grown : after.root <;> simp_all [updateAt, updateAll]

theorem rootId? (regrown : Regrown before old new after) (same : new.id = old.id) :
    after.rootId? = before.rootId? := by
  have parts := regrown.parts.1
  rw [Tree.rootId?, Tree.rootId?]
  cases bare : before.root with
  | none =>
      rw [bare] at parts
      cases grown : after.root with
      | none => rfl
      | some root => simp [grown] at parts
  | some root =>
      obtain ⟨label, children⟩ := root
      rw [bare, Option.toList_some, updateAt_cons] at parts
      cases grown : after.root with
      | none => simp [grown] at parts
      | some root =>
          rw [grown, Option.toList_some, List.cons.injEq] at parts
          rw [parts.1]
          split
          · rename_i here
            simp [same, here]
          · rfl

theorem settled (regrown : Regrown before old new after) (settled : before.detached = []) :
    after.detached = [] := by
  rw [regrown.parts.2, settled, updateAt_nil]

theorem entries_perm (regrown : Regrown before old new after) (numbered : before.Numbered)
    (member : old ∈ before.live) :
    (entries after.branches ++ entries [old]).Perm (entries before.branches ++ entries [new]) := by
  rw [regrown.branches]
  exact entries_updateAt before.branches numbered.distinct new member

theorem numbers_perm (regrown : Regrown before old new after) (numbered : before.Numbered)
    (member : old ∈ before.live) :
    (numbers after.branches ++ numbers [old]).Perm (numbers before.branches ++ numbers [new]) := by
  rw [regrown.branches]
  exact numbers_updateAt before.branches numbered.distinct new member

theorem numbered (regrown : Regrown before old new after) (numbered : before.Numbered)
    (member : old ∈ before.live) : after.Numbered := by
  have trade := regrown.numbers_perm numbered member
  have part : ∀ number ∈ numbers [old], number ∈ numbers before.branches := by
    intro number inside
    obtain ⟨branch, found, rfl⟩ := exists_of_mem_numbers inside
    exact id_mem_numbers (live_of_branches member found)
  constructor
  · refine nodup_of_trade trade numbered.distinct part regrown.distinct fun number inside => ?_
    refine (regrown.fresh number inside).imp_right fun bounds present => ?_
    have bound := numbered.bounded number present
    omega
  · intro number present
    have later := regrown.later
    have found := trade.subset (List.mem_append_left _ present)
    rcases List.mem_append.mp found with kept | added
    · have bound := numbered.bounded number kept
      omega
    · rcases regrown.fresh number added with kept | ⟨_, bound⟩
      · have bound := numbered.bounded number (part number kept)
        omega
      · exact bound

theorem live_of_new (regrown : Regrown before old new after) (numbered : before.Numbered)
    (member : old ∈ before.live) {branch : Branch N} (inside : branch ∈ preorderAll [new]) :
    branch ∈ after.live := by
  rw [live, regrown.branches]
  exact mem_updateAt before.branches numbered.distinct member inside

theorem live_new (regrown : Regrown before old new after) (numbered : before.Numbered)
    (member : old ∈ before.live) : new ∈ after.live :=
  regrown.live_of_new numbered member (mem_preorderAll_of_mem (by simp))

theorem trans (first : Regrown before old mid middle) (second : Regrown middle mid new after)
    (numbered : before.Numbered) (member : old ∈ before.live) : Regrown before old new after := by
  have stays : mid.id ∈ numbers before.branches → mid.id ∈ numbers [old] := by
    intro present
    refine (first.fresh mid.id (id_mem_numbers (mem_preorderAll_of_mem (by simp)))).resolve_right
      fun bounds => ?_
    have bound := numbered.bounded mid.id present
    omega
  have swapped : Rose.update (·.id = mid.id) (fun _ => new) mid = new := by
    obtain ⟨label, children⟩ := mid
    simp [Rose.update]
  have firstLater := first.later
  have secondLater := second.later
  refine ⟨?_, second.rooted.trans first.rooted, by omega, second.distinct, ?_⟩
  · rw [second.branches, first.branches,
      updateAt_updateAt before.branches numbered.distinct mid member stays, swapped]
  · intro number inside
    rcases second.fresh number inside with kept | ⟨lower, upper⟩
    · exact (first.fresh number kept).imp_right fun bounds => ⟨bounds.1, by omega⟩
    · exact Or.inr ⟨by omega, upper⟩

theorem child {label : Entry N} (regrown : Regrown before old new after)
    (front back : List (Branch N)) (numbered : before.Numbered)
    (member : .node label (front ++ old :: back) ∈ before.live) :
    Regrown before (.node label (front ++ old :: back)) (.node label (front ++ new :: back))
      after := by
  have trade : (numbers [.node label (front ++ new :: back)] ++ numbers [old]).Perm
      (numbers [.node label (front ++ old :: back)] ++ numbers [new]) := by
    have split : ∀ middle : Branch N, numbers [.node label (front ++ middle :: back)] =
        label.id :: numbers front ++ (numbers [middle] ++ numbers back) := by
      intro middle
      rw [numbers_cons, numbers_append, numbers_cons_eq middle back]
      simp
    rw [split, split]
    exact perm_around List.perm_append_comm _ _
  have whole : (numbers [.node label (front ++ old :: back)]).Nodup := by
    have sublist := sublist_numbers before.branches member
    exact numbered.distinct.sublist sublist
  have part : ∀ number ∈ numbers [old],
      number ∈ numbers [.node label (front ++ old :: back)] := by
    intro number inside
    rw [numbers_cons, numbers_append, numbers_cons_eq old back]
    simp [inside]
  refine ⟨?_, regrown.rooted, regrown.later, ?_, ?_⟩
  · rw [regrown.branches, updateAt_child before.branches numbered.distinct new member]
    rfl
  · refine nodup_of_trade trade whole part regrown.distinct fun number inside => ?_
    refine (regrown.fresh number inside).imp_right fun bounds present => ?_
    have bound := numbered.bounded number (sublist_numbers before.branches member |>.subset present)
    omega
  · intro number inside
    rcases List.mem_append.mp (trade.subset (List.mem_append_left _ inside)) with kept | added
    · exact Or.inl kept
    · exact (regrown.fresh number added).imp_left (part number)

end Regrown

/-! ### Inserting -/

def bud (key : Option String) (content : N) (id : Nat) : Branch N := .node ⟨⟨key, content⟩, id⟩ []

def extended (branch child : Branch N) : Branch N :=
  .node branch.label (branch.children ++ [child])

theorem entries_extended (branch child : Branch N) :
    entries [extended branch child] = entries [branch] ++ entries [child] := by
  obtain ⟨label, children⟩ := branch
  simp [extended, entries_append]

theorem numbers_extended (branch child : Branch N) :
    numbers [extended branch child] = numbers [branch] ++ numbers [child] := by
  obtain ⟨label, children⟩ := branch
  simp [extended, numbers_append]

theorem numbers_update_extended {branch holder : Branch N} (distinct : (numbers [branch]).Nodup)
    (inside : holder ∈ preorderAll [branch]) (child : Branch N) :
    (numbers [Rose.update (·.id = holder.id) (fun _ => extended holder child) branch]).Perm
      (numbers [branch] ++ numbers [child]) := by
  have trade := numbers_updateAt [branch] distinct (extended holder child) inside
  rw [numbers_extended] at trade
  have swapped := trade.trans (List.perm_append_comm.append_left (numbers [branch]))
  rw [← List.append_assoc] at swapped
  exact (List.perm_append_right_iff _).mp swapped

theorem insert_of_live [NodeRules N] {tree : Tree N} (numbered : tree.Numbered)
    {holder : Branch N} (member : holder ∈ tree.live) (content : N) (key : Option String) :
    tree.insert content holder.id key =
      (NodeRules.checkChild holder.content content holder.children.length).map fun _ =>
        (tree.next, { tree.append holder.id (bud key content tree.next) with
          next := tree.next + 1 }) := by
  rw [insert, find_of_find? (find?_of_live numbered member)]
  rfl

theorem regrown_append {tree : Tree N} (numbered : tree.Numbered) {holder : Branch N}
    (member : holder ∈ tree.live) (content : N) (key : Option String) :
    Regrown tree holder (extended holder (bud key content tree.next))
      { tree.append holder.id (bud key content tree.next) with next := tree.next + 1 } := by
  have whole := numbered.distinct.sublist (sublist_numbers tree.branches member)
  have known : ∀ number ∈ numbers [holder], number < tree.next := fun number inside =>
    numbered.bounded number ((sublist_numbers tree.branches member).subset inside)
  have more : numbers [extended holder (bud key content tree.next)] =
      numbers [holder] ++ [tree.next] := numbers_extended holder _
  refine ⟨?_, ?_, by simp, ?_, ?_⟩
  · rw [← updateAt_eq_const tree.branches numbered.distinct
      (fun branch => extended branch (bud key content tree.next)) member]
    exact branches_update tree holder.id _
  · simp [append, update]
  · rw [more, List.nodup_append]
    refine ⟨whole, by simp, fun first inside second last => ?_⟩
    have bound := known first inside
    have same := List.mem_singleton.mp last
    omega
  · rw [more]
    intro number inside
    rcases List.mem_append.mp inside with kept | last
    · exact Or.inl kept
    · have same := List.mem_singleton.mp last
      exact Or.inr ⟨by omega, by simp only; omega⟩

theorem Regrown.entries_bud {tree after : Tree N} {holder : Branch N} {key : Option String}
    {content : N} {id : Nat}
    (regrown : Regrown tree holder (extended holder (bud key content id)) after)
    (numbered : tree.Numbered) (member : holder ∈ tree.live) :
    (entries after.branches).Perm (⟨⟨key, content⟩, id⟩ :: entries tree.branches) := by
  have trade := regrown.entries_perm numbered member
  rw [entries_extended] at trade
  have swapped := trade.trans (List.perm_append_comm.append_left _)
  rw [← List.append_assoc] at swapped
  exact ((List.perm_append_right_iff _).mp swapped).trans List.perm_append_comm

theorem insert_taken [NodeRules N] {tree : Tree N} (numbered : tree.Numbered)
    {holder : Branch N} (member : holder ∈ tree.live) {content : N} (key : Option String)
    (taken : NodeRules.checkChild holder.content content holder.children.length = .ok ()) :
    ∃ after, tree.insert content holder.id key = .ok (tree.next, after) ∧
      Regrown tree holder (extended holder (bud key content tree.next)) after ∧
      after.next = tree.next + 1 := by
  have inserted := insert_of_live numbered member content key
  rw [taken] at inserted
  exact ⟨_, inserted, regrown_append numbered member content key, rfl⟩

theorem insert_ok [NodeRules N] {tree after : Tree N} (numbered : tree.Numbered)
    {content : N} {parent id : Nat} {key : Option String}
    (inserted : tree.insert content parent key = .ok (id, after)) :
    ∃ holder ∈ tree.live, holder.id = parent ∧ id = tree.next ∧
      NodeRules.checkChild holder.content content holder.children.length = .ok () ∧
      Regrown tree holder (extended holder (bud key content id)) after := by
  cases found : tree.find parent with
  | error error => simp [insert, found, bind, Except.bind] at inserted
  | ok holder =>
      obtain ⟨member, rfl⟩ := live_of_find? (find?_of_find found)
      rw [insert_of_live numbered member] at inserted
      cases checked : NodeRules.checkChild holder.content content holder.children.length with
      | error error => simp [checked, Except.map] at inserted
      | ok _ =>
          simp only [checked, Except.map, Except.ok.injEq, Prod.mk.injEq] at inserted
          obtain ⟨rfl, rfl⟩ := inserted
          exact ⟨holder, member, rfl, rfl, checked, regrown_append numbered member content key⟩

/-! ### Detaching and attaching -/

theorem find?_of_detached {tree : Tree N} (numbered : tree.Numbered) {branch : Branch N}
    (cut : tree.detached = [branch]) : tree.find? branch.id = some branch := by
  refine find?_of_live numbered (mem_preorderAll_of_mem ?_)
  simp [branches, cut]

def cutChild (tree : Tree N) (label : Entry N) (rest : List (Branch N)) (child : Branch N) :
    Tree N :=
  { tree with
    root := tree.root.map (Rose.update (·.id = label.id) fun _ => .node label rest)
    detached := [child] }

theorem detach_child {tree : Tree N} (numbered : tree.Numbered) (settled : tree.detached = [])
    {label : Entry N} {front back : List (Branch N)} {child : Branch N}
    (member : .node label (front ++ child :: back) ∈ tree.live) :
    tree.detach child.id = .ok (tree.cutChild label (front ++ back) child) := by
  have below : child ∈ Rose.children (.node label (front ++ child :: back)) := by simp
  have live : child ∈ tree.live :=
    mem_preorderAll_trans tree.branches member (mem_preorderAll_of_mem below)
  have pruned := pruneAt_child tree.branches numbered.distinct member
  rw [detach, find_of_find? (find?_of_live numbered live)]
  cases bare : tree.root with
  | none => simp [Tree.live, branches, bare, settled] at member
  | some root =>
      simp only [branches, bare, settled, List.append_nil, Option.toList_some] at pruned
      simp only [bind, Except.bind, pure, Except.pure, settled, cutChild, bare, Option.bind_some,
        Option.map_some, Except.ok.injEq, Tree.mk.injEq, and_true]
      refine ⟨?_, rfl⟩
      simp only [pruneAt, pruneAll, updateAt, updateAll] at pruned
      split at pruned
      · rename_i kept found
        rw [found]
        simpa using pruned
      · simp at pruned

theorem detach_root {tree : Tree N} (numbered : tree.Numbered) (settled : tree.detached = [])
    {root : Branch N} (rooted : tree.root = some root) :
    tree.detach root.id = .ok { tree with root := none, detached := [root] } := by
  have live : root ∈ tree.live :=
    mem_preorderAll_of_mem (by simp [branches, rooted])
  rw [detach, find_of_find? (find?_of_live numbered live)]
  obtain ⟨label, children⟩ := root
  simp [bind, Except.bind, pure, Except.pure, settled, rooted, prune?, pruneAll]

theorem attach_detached [NodeRules N] {tree : Tree N} (numbered : tree.Numbered)
    {branch holder : Branch N} (cut : tree.detached = [branch]) (member : holder ∈ tree.nodes) :
    tree.attach branch.id holder.id =
      (NodeRules.checkChild holder.content branch.content holder.children.length).map fun _ =>
        { tree with
          root := tree.root.map (Rose.update (·.id = holder.id) fun _ => extended holder branch)
          detached := [] } := by
  cases bare : tree.root with
  | none => simp [nodes, bare] at member
  | some root =>
      have parts : tree.branches = root :: [branch] := by simp [branches, bare, cut]
      have inside : holder ∈ preorderAll [root] := by simpa [nodes, bare] using member
      have live : holder ∈ tree.live := by
        rw [Tree.live, parts, ← List.singleton_append, preorderAll_append]
        exact List.mem_append_left _ inside
      have top : tree.parent? branch.id = none :=
        parent?_of_top numbered (by simp [parts])
      have distinct := numbered.distinct
      rw [parts, numbers_cons_eq, List.nodup_append] at distinct
      obtain ⟨distinctRoot, _, apart⟩ := distinct
      have elsewhere : ∀ number ∈ numbers [root], number ≠ branch.id := fun number present =>
        apart number present branch.id (id_mem_numbers (mem_preorderAll_of_mem (by simp)))
      have notRoot : tree.rootId? ≠ some branch.id := by
        rw [rootId?, bare]
        intro same
        exact elsewhere root.id (id_mem_numbers (mem_preorderAll_of_mem (by simp)))
          (Option.some.inj same)
      have notAbove : branch.id ∉ tree.ancestors holder.id true := by
        intro above
        simp only [ancestors, if_true, List.drop_zero, ancestry, parts] at above
        rw [show pathAny? _ _ = _ from
          pathTo?_front [branch] (id_mem_numbers inside)] at above
        obtain ⟨outward, path, _⟩ := pathTo?_of_mem [root] distinctRoot inside
        obtain ⟨_, _, _, _, passes⟩ := pathTo?_some [root] path
        rw [path] at above
        obtain ⟨passed, onPath, same⟩ := List.mem_map.mp above
        exact elsewhere passed.id (id_mem_numbers (passes passed onPath)) same
      have changed := updateAt_eq_const [root] distinctRoot (fun old => extended old branch) inside
      simp only [updateAt, updateAll, List.cons.injEq, and_true] at changed
      rw [attach, find_of_find? (find?_of_detached numbered cut),
        find_of_find? (find?_of_live numbered live)]
      simp only [top, Option.isSome_none, notRoot, List.contains_eq_mem, notAbove, decide_false,
        Bool.false_or, Bool.false_eq_true, if_false, bind, Except.bind, pure, Except.pure]
      cases NodeRules.checkChild holder.content branch.content holder.children.length with
      | error error => rfl
      | ok _ =>
          simp only [Except.map, Except.ok.injEq]
          simp only [append, discard, update, cut, bare, Option.map_some, Tree.mk.injEq, and_true]
          refine ⟨congrArg some changed, by simp [updateAll]⟩

theorem branches_cutChild {tree : Tree N} (numbered : tree.Numbered)
    (settled : tree.detached = []) {label : Entry N} {front back : List (Branch N)}
    {child : Branch N} (member : .node label (front ++ child :: back) ∈ tree.live) :
    (tree.cutChild label (front ++ back) child).branches =
      pruneAt child.id tree.branches ++ [child] := by
  rw [pruneAt_child tree.branches numbered.distinct member]
  simp only [branches, cutChild, settled, List.append_nil]
  cases tree.root <;> rfl

theorem numbered_cutChild {tree : Tree N} (numbered : tree.Numbered)
    (settled : tree.detached = []) {label : Entry N} {front back : List (Branch N)}
    {child : Branch N} (member : .node label (front ++ child :: back) ∈ tree.live) :
    (tree.cutChild label (front ++ back) child).Numbered := by
  have live : child ∈ tree.live :=
    mem_preorderAll_trans tree.branches member (mem_preorderAll_of_mem (by simp))
  have trade := numbers_pruneAt tree.branches numbered.distinct live
  rw [← numbers_append, ← branches_cutChild numbered settled member] at trade
  exact ⟨trade.nodup_iff.mpr numbered.distinct,
    fun number present => numbered.bounded number (trade.subset present)⟩

theorem root_cutChild {tree : Tree N} (settled : tree.detached = []) (label : Entry N)
    (rest : List (Branch N)) (child : Branch N) :
    (tree.cutChild label rest child).root.toList =
      updateAt label.id (fun _ => .node label rest) tree.branches := by
  simp only [cutChild, branches, settled, List.append_nil]
  cases tree.root <;> rfl

section Reattaching

variable {before middle : Tree N} {label : Entry N} {front back : List (Branch N)}
  {child grown holder : Branch N} (numbered : before.Numbered) (settled : before.detached = [])
  (member : .node label (front ++ child :: back) ∈ before.live)

include numbered settled member

theorem mem_cutChild : .node label (front ++ back) ∈
    preorderAll (before.cutChild label (front ++ back) child).root.toList := by
  rw [root_cutChild settled]
  exact mem_updateAt before.branches numbered.distinct member (mem_preorderAll_of_mem (by simp))

theorem live_cutChild :
    .node label (front ++ back) ∈ (before.cutChild label (front ++ back) child).live := by
  rw [live, branches, preorderAll_append]
  exact List.mem_append_left _ (mem_cutChild numbered settled member)

variable (regrown : Regrown (before.cutChild label (front ++ back) child)
  (.node label (front ++ back)) grown middle)

include regrown

theorem root_of_cut :
    middle.root.toList = updateAt label.id (fun _ => grown) before.branches := by
  have stays : label.id ∈ numbers before.branches →
      label.id ∈ numbers [.node label (front ++ child :: back)] := fun _ => by simp
  have replaced : Rose.update (·.id = label.id) (fun _ => grown)
      (.node label (front ++ back)) = grown := by simp [Rose.update]
  have twice := updateAt_updateAt before.branches numbered.distinct (.node label (front ++ back))
    member stays (fun _ => grown)
  simp only [id_node, replaced] at twice
  rw [regrown.parts.1, root_cutChild settled]
  exact twice

theorem detached_of_cut : middle.detached = [child] := by
  have distinct := (numbered_cutChild numbered settled member).distinct
  rw [branches, numbers_append] at distinct
  have known := id_mem_numbers (mem_cutChild numbered settled member)
  rw [regrown.parts.2]
  refine updateAt_of_not_mem _ _ fun below => ?_
  exact (List.nodup_append.mp distinct).2.2 _ known _ below rfl

omit settled in
/-- Where a node is cut off from, nothing grows that has one of its numbers. -/
theorem numbers_of_cut {number : Nat} (inside : number ∈ numbers [grown]) :
    (number ∈ numbers [.node label (front ++ child :: back)] ∧ number ∉ numbers [child]) ∨
      (before.next ≤ number ∧ number < middle.next) := by
  have split : numbers [.node label (front ++ child :: back)] =
      label.id :: (numbers front ++ (numbers [child] ++ numbers back)) := by
    rw [numbers_cons, numbers_append, numbers_cons_eq child back]
    simp
  have whole := numbered.distinct.sublist (sublist_numbers before.branches member)
  refine (regrown.fresh number inside).imp_left fun kept => ?_
  rw [split] at whole ⊢
  simp only [numbers_cons, numbers_append, numbers_nil, List.append_nil] at kept
  grind [List.nodup_cons, List.nodup_append]

/-- Cutting a child off, growing its former parent and attaching the child in what has grown
there. -/
theorem reattach [NodeRules N] (inside : holder ∈ preorderAll [grown]) (new : before.next ≤ holder.id)
    (allowed : NodeRules.checkChild holder.content child.content holder.children.length = .ok ()) :
    ∃ after, middle.attach child.id holder.id = .ok after ∧
      Regrown before (.node label (front ++ child :: back))
        (Rose.update (·.id = holder.id) (fun _ => extended holder child) grown) after := by
  have numberedCut := numbered_cutChild numbered settled member
  have liveCut := live_cutChild numbered settled member
  have rootMiddle := root_of_cut numbered settled member regrown
  have holderNode : holder ∈ middle.nodes := by
    rw [nodes, rootMiddle]
    exact mem_updateAt before.branches numbered.distinct member inside
  have attached := attach_detached (regrown.numbered numberedCut liveCut)
    (detached_of_cut numbered settled member regrown) holderNode
  rw [allowed] at attached
  have absent : holder.id ∉ numbers before.branches := fun present => by
    have bound := numbered.bounded holder.id present
    omega
  have total := numbers_update_extended regrown.distinct inside child
  have live : child ∈ before.live :=
    mem_preorderAll_trans before.branches member (mem_preorderAll_of_mem (by simp))
  have part := sublist_numbers before.branches live
  refine ⟨_, attached, ?_, ?_, regrown.later, ?_, ?_⟩
  · have grew := updateAt_updateAt before.branches numbered.distinct grown member
      (fun present => absurd present absent) (fun _ => extended holder child)
    rw [id_node, ← rootMiddle] at grew
    rw [id_node, ← grew]
    simp only [branches, List.append_nil]
    cases middle.root <;> rfl
  · have rooted := regrown.rooted
    simp only [cutChild] at rooted
    simp only [Option.isSome_map] at rooted ⊢
    exact rooted
  · refine total.nodup_iff.mpr (List.nodup_append.mpr
      ⟨regrown.distinct, numbered.distinct.sublist part, ?_⟩)
    rintro number inGrown other inChild rfl
    rcases numbers_of_cut numbered member regrown inGrown with ⟨_, apart⟩ | ⟨lower, _⟩
    · exact apart inChild
    · have bound := numbered.bounded number (part.subset inChild)
      omega
  · intro number inside
    rcases List.mem_append.mp (total.subset inside) with inGrown | inChild
    · exact (numbers_of_cut numbered member regrown inGrown).imp_left And.left
    · refine Or.inl ?_
      rw [numbers_cons, numbers_append, numbers_cons_eq child back]
      simp [inChild]

end Reattaching

end Tree

end ScopedClauses
