import ScopedClauses.Proofs.Tree.Refining

/-!
Operations that edit links one by one. Between two edits the links of an arena disagree; after each
operation it holds the tree that the operation on trees makes.
-/

namespace ScopedClauses

namespace Rose

variable {N : Type}

theorem id_update (number : Nat) {change : Branch N → Branch N}
    (keeps : ∀ branch, (change branch).id = branch.id) (branch : Branch N) :
    (update (·.id = number) change branch).id = branch.id := by
  obtain ⟨label, children⟩ := branch
  rw [update]
  split
  · exact keeps _
  · rfl

theorem numbers_relabelled (number : Nat) {change : Entry N → Entry N}
    (keeps : ∀ entry, (change entry).id = entry.id) (forest : List (Branch N)) :
    numbers (updateAt number (fun branch => .node (change branch.label) branch.children) forest) =
      numbers forest := by
  induction forest using forestInduction with
  | nil => rfl
  | cons label children rest ihBelow ihBeside =>
      rw [updateAt_cons]
      split <;> simp [ihBelow, ihBeside, keeps]

theorem lineage_relabelled (number : Nat) {change : Entry N → Entry N}
    (keeps : ∀ entry, (change entry).id = entry.id) (forest : List (Branch N)) (id : Nat) :
    lineage id (updateAt number (fun branch => .node (change branch.label) branch.children) forest) =
      (lineage id forest).map fun entry => if entry.id = number then change entry else entry := by
  induction forest using forestInduction with
  | nil => rfl
  | cons label children rest ihBelow ihBeside =>
      have below := numbers_relabelled number keeps children
      rw [updateAt_cons]
      split
      · rename_i here
        rw [lineage_cons, lineage_cons, label_node, children_node, keeps, below, ihBelow, ihBeside]
        split
        · simp [here]
        · split <;> simp [here]
      · rename_i other
        rw [lineage_cons, lineage_cons, below, ihBelow, ihBeside]
        split
        · simp [other]
        · split <;> simp [other]

end Rose

namespace Tree

open Rose

variable {N : Type} {tree cut after : Tree N}

/-! ### What a change of links leaves -/

theorem rootId?_append (tree : Tree N) (parent : Nat) (child : Branch N) :
    (tree.append parent child).rootId? = tree.rootId? := by
  rw [rootId?, rootId?, append, update, Option.map_map]
  cases tree.root with
  | none => rfl
  | some root =>
      have keeps : ∀ branch : Branch N,
          (Rose.node branch.label (branch.children ++ [child])).id = branch.id := fun _ => rfl
      exact congrArg some (id_update parent keeps root)

theorem cell?_perm (numbered : tree.Numbered) (numberedAfter : after.Numbered)
    (same : tree.branches.Perm after.branches) (number : Nat) :
    after.cell? number = tree.cell? number := by
  have lines := lineage_perm same numbered.distinct number
  refine cell?_congr ?_ ?_ (children_perm numbered numberedAfter same number)
  · rw [label?_eq_lineage, label?_eq_lineage, lines]
  · rw [parent?_eq_lineage, parent?_eq_lineage, lines]

/-! ### Cutting a branch off -/

theorem children_detach (numbered : tree.Numbered) {id : Nat} (done : tree.detach id = .ok cut)
    (number : Nat) : cut.children number = (tree.children number).filter (· ≠ id) := by
  obtain ⟨branch, member, rfl, inCut, parts, _⟩ := detach_ok done
  have numberedCut := (renewed_detach numbered done).numbered
  by_cases present : number ∈ numbers tree.branches
  · obtain ⟨node, live, rfl⟩ := exists_of_mem_numbers present
    rw [children_of_live numbered live]
    by_cases within : node.id ∈ numbers [branch]
    -- what lies in the branch goes with it
    · have inside := branch_of_mem_numbers numbered.distinct member live within
      have stays : node ∈ cut.live := by
        refine live_of_branches (mem_preorderAll_of_mem ?_) inside
        rw [branches]
        exact List.mem_append_right _ inCut
      rw [children_of_live numberedCut stays]
      refine (List.filter_eq_self.mpr fun child listed => decide_eq_true ?_).symm
      rintro rfl
      obtain ⟨own, below, same⟩ := List.mem_map.mp listed
      have deep : branch.id ∈ numbers node.children :=
        same ▸ id_mem_numbers (mem_preorderAll_of_mem below)
      exact not_both_inside numbered.distinct live member deep within
    · rw [← children_of_live numbered live]
      refine children_pruned numbered numberedCut member live within fun inner inside => ?_
      rw [Tree.live, parts, preorderAll_append]
      exact List.mem_append_left _ inside
  · have gone : number ∉ numbers cut.branches := fun later =>
      present ((numbers_detach numbered done).subset later)
    rw [children_of_dead present, children_of_dead gone]
    rfl

theorem parent?_detach (numbered : tree.Numbered) {id : Nat} (done : tree.detach id = .ok cut)
    (number : Nat) : cut.parent? number = if number = id then none else tree.parent? number := by
  have numberedCut := (renewed_detach numbered done).numbered
  refine Option.ext fun parent => ?_
  rw [parent?_iff numberedCut, children_detach numbered done, List.mem_filter,
    ← parent?_iff numbered]
  by_cases here : number = id <;> simp [here]

theorem cell?_detach (numbered : tree.Numbered) {id : Nat} (done : tree.detach id = .ok cut)
    (number : Nat) : cut.cell? number = (tree.label? number).map fun label =>
      ⟨label, if number = id then none else tree.parent? number,
        (tree.children number).filter (· ≠ id)⟩ := by
  have numberedCut := (renewed_detach numbered done).numbered
  rw [cell?_eq, label?_perm numbered numberedCut (entries_detach numbered done),
    parent?_detach numbered done, children_detach numbered done]

theorem filter_children (numbered : tree.Numbered) {id number : Nat}
    (elsewhere : tree.parent? id ≠ some number) :
    (tree.children number).filter (· ≠ id) = tree.children number := by
  refine List.filter_eq_self.mpr fun child listed => decide_eq_true ?_
  rintro rfl
  exact elsewhere ((parent?_iff numbered).mpr listed)

section Detach

variable (numbered : tree.Numbered) {branch : Branch N} (member : branch ∈ tree.live)
  (done : tree.detach branch.id = .ok cut)

include numbered member done

theorem detach_top_arena (above : tree.parent? branch.id = none) :
    tree.arena.detach branch.id = .ok cut.arena := by
  have numberedCut := (renewed_detach numbered done).numbered
  obtain ⟨_, _, _, _, _, next, unrooted⟩ := detach_ok done
  have kept : ∀ number, cut.cell? number = tree.arena.cell? number := by
    intro number
    rw [cell?_detach numbered done, filter_children numbered (by simp [above]),
      cell?_arena numbered, cell?_eq]
    by_cases here : number = branch.id
    · rw [if_pos here, here, above]
    · rw [if_neg here]
  rw [Arena.detach, Arena.cell_of_cell? (cell_of_live numbered member), Result.ok_bind]
  simp only [cellOf, above]
  refine congrArg Except.ok ?_
  split
  · rename_i rooted
    refine eq_arena numberedCut ((size_arena tree).trans next.symm) ?_
      fun number => (kept number).symm
    rw [rootId?, unrooted rooted]
    rfl
  · rename_i other
    exact eq_arena numberedCut ((size_arena tree).trans next.symm)
      ((rootId?_detach done).2 other).1.symm fun number => (kept number).symm

theorem detach_child_arena {parent : Nat} (above : tree.parent? branch.id = some parent) :
    tree.arena.detach branch.id = .ok cut.arena := by
  have numberedCut := (renewed_detach numbered done).numbered
  obtain ⟨_, _, _, _, _, next, _⟩ := detach_ok done
  have notRoot : tree.rootId? ≠ some branch.id := fun rooted => by
    rw [(numbered.linked.root rooted).2] at above
    cases above
  have holds : tree.arena.contains parent = true :=
    (contains_arena numbered parent).trans (numbered.linked.parent above).1
  have present : tree.arena.contains branch.id = true :=
    (contains_arena numbered branch.id).trans (contains_of_live numbered member)
  rw [Arena.detach, Arena.cell_of_cell? (cell_of_live numbered member), Result.ok_bind]
  simp only [cellOf, above]
  rw [Arena.edit_of_contains holds, Result.ok_bind, Arena.setParent,
    Arena.edit_of_contains (by rwa [Arena.contains_modify])]
  refine congrArg Except.ok
    (eq_arena numberedCut (by simp [next]) ((rootId?_detach done).2 notRoot).1.symm fun number => ?_)
  rw [cell?_detach numbered done, Arena.cell?_modify, Arena.cell?_modify, cell?_arena numbered,
    cell?_eq]
  by_cases holder : number = parent
  · rw [if_pos holder]
    split <;> cases tree.label? number <;> rfl
  · rw [if_neg holder, filter_children numbered (by simp [above, Ne.symm holder])]
    split <;> cases tree.label? number <;> rfl

end Detach

theorem detach_arena (numbered : tree.Numbered) (id : Nat) :
    tree.arena.detach id = arena <$> tree.detach id := by
  cases done : tree.detach id with
  | error error =>
      rw [Arena.detach, cell_arena numbered]
      rw [detach] at done
      cases found : tree.find id <;> rw [found] at done <;> cases done
      rfl
  | ok cut =>
      obtain ⟨branch, member, rfl, _⟩ := detach_ok done
      cases above : tree.parent? branch.id with
      | none => exact detach_top_arena numbered member done above
      | some parent => exact detach_child_arena numbered member done above

/-! ### Hanging a branch below a node -/

section Discard

variable {branch : Branch N} (numbered : tree.Numbered) (inCut : branch ∈ tree.detached)

include numbered inCut

theorem perm_discard : tree.branches.Perm (branch :: (tree.discard branch.id).branches) := by
  obtain ⟨front, back, split, parts⟩ := discard_split numbered inCut
  rw [split, parts]
  exact List.perm_middle

theorem numbered_discard : (tree.discard branch.id).Numbered :=
  (Renewed.of_part numbered (numbers [branch]) (numbers_discard numbered inCut) rfl).numbered

theorem live_discard {node : Branch N} :
    node ∈ (tree.discard branch.id).live ↔ node ∈ tree.live ∧ node.id ∉ numbers [branch] := by
  have distinct := (numbers_discard numbered inCut).nodup_iff.mpr numbered.distinct
  have parts := (preorderAll_perm (perm_discard numbered inCut)).mem_iff (a := node)
  rw [← List.singleton_append, preorderAll_append, List.mem_append] at parts
  rw [live, live, parts]
  constructor
  · intro member
    exact ⟨Or.inr member, fun inside =>
      (List.nodup_append.mp distinct).2.2 _ (id_mem_numbers member) _ inside rfl⟩
  · rintro ⟨inside | member, outside⟩
    · exact absurd (id_mem_numbers inside) outside
    · exact member

theorem numbers_discard_iff {number : Nat} : number ∈ numbers (tree.discard branch.id).branches ↔
    number ∈ numbers tree.branches ∧ number ∉ numbers [branch] := by
  constructor
  · intro present
    obtain ⟨node, member, rfl⟩ := exists_of_mem_numbers present
    obtain ⟨old, outside⟩ := (live_discard numbered inCut).mp member
    exact ⟨id_mem_numbers old, outside⟩
  · rintro ⟨present, outside⟩
    obtain ⟨node, member, rfl⟩ := exists_of_mem_numbers present
    exact id_mem_numbers ((live_discard numbered inCut).mpr ⟨member, outside⟩)

theorem children_discard {number : Nat} (outside : number ∉ numbers [branch]) :
    (tree.discard branch.id).children number = tree.children number :=
  children_of_kept numbered (numbered_discard numbered inCut)
    (fun _ member here => (live_discard numbered inCut).mpr ⟨member, here ▸ outside⟩)
    fun present => ((numbers_discard_iff numbered inCut).mp present).1

end Discard

section Rehung

variable {branch holder : Branch N} (numbered : tree.Numbered) (inCut : branch ∈ tree.detached)
  (member : holder ∈ tree.live) (outside : holder.id ∉ numbers [branch])

include numbered inCut member outside

theorem numbered_rehung : ((tree.discard branch.id).append holder.id branch).Numbered :=
  (Renewed.of_perm numbered (numbers_rehang numbered inCut member outside) rfl).numbered

theorem children_rehung (number : Nat) :
    ((tree.discard branch.id).append holder.id branch).children number =
      if number = holder.id then tree.children number ++ [branch.id] else tree.children number := by
  have numberedLeft := numbered_discard numbered inCut
  have numberedAfter := numbered_rehung numbered inCut member outside
  have stays := (live_discard numbered inCut).mpr ⟨member, outside⟩
  have parts : ((tree.discard branch.id).append holder.id branch).branches =
      updateAt holder.id (fun _ => extended holder branch) (tree.discard branch.id).branches := by
    rw [← updateAt_eq_const _ numberedLeft.distinct (fun old => extended old branch) stays]
    exact branches_update _ _ _
  have grown : ∀ {node}, node ∈ preorderAll [extended holder branch] →
      node ∈ ((tree.discard branch.id).append holder.id branch).live := fun inside => by
    rw [live, parts]
    exact mem_updateAt _ numberedLeft.distinct stays inside
  split
  · rename_i here
    have now := children_of_live numberedAfter (grown (self_mem _))
    rw [id_extended] at now
    rw [here, now, children_of_live numbered member, extended, children_node, List.map_append]
    rfl
  · rename_i elsewhere
    by_cases within : number ∈ numbers [branch]
    -- what lies in the branch comes with it
    · obtain ⟨node, inside, rfl⟩ := exists_of_mem_numbers within
      have old : node ∈ tree.live := by
        refine live_of_branches (mem_preorderAll_of_mem ?_) inside
        rw [branches]
        exact List.mem_append_right _ inCut
      have below : branch ∈ Rose.children (extended holder branch) := by simp [extended]
      rw [children_of_live numbered old]
      refine children_of_live numberedAfter (grown ?_)
      exact mem_preorderAll_of_branch _ (mem_preorderAll_trans _ (self_mem _)
        (mem_preorderAll_of_mem below)) inside
    · rw [← children_discard numbered inCut within]
      by_cases present : number ∈ numbers (tree.discard branch.id).branches
      · refine children_replaced numberedLeft numberedAfter stays parts (id_extended holder _)
          (fun node below => ?_) present elsewhere
        rw [extended, children_node, preorderAll_append]
        exact List.mem_append_left _ below
      · have gone : number ∉ numbers ((tree.discard branch.id).append holder.id branch).branches :=
          fun later => present ((numbers_discard_iff numbered inCut).mpr
            ⟨(numbers_rehang numbered inCut member outside).subset later, within⟩)
        rw [children_of_dead present, children_of_dead gone]

theorem parent?_rehung (number : Nat) :
    ((tree.discard branch.id).append holder.id branch).parent? number =
      if number = branch.id then some holder.id else tree.parent? number := by
  have top : tree.parent? branch.id = none := parent?_of_top numbered (by simp [branches, inCut])
  refine Option.ext fun parent => ?_
  rw [parent?_iff (numbered_rehung numbered inCut member outside),
    children_rehung numbered inCut member outside]
  by_cases here : number = branch.id
  · rw [if_pos here, here]
    have none : ∀ other, branch.id ∉ tree.children other := fun other listed => by
      rw [(parent?_iff numbered).mpr listed] at top
      cases top
    split
    · rename_i same
      simp [same]
    · rename_i other
      simp [none parent, Ne.symm other]
  · rw [if_neg here, parent?_iff numbered]
    split <;> simp [here]

/-- The two edits that link a branch and the node above it. -/
theorem link_arena : tree.arena.link branch.id holder.id =
    .ok ((tree.discard branch.id).append holder.id branch).arena := by
  have numberedAfter := numbered_rehung numbered inCut member outside
  have live : branch ∈ tree.live := mem_preorderAll_of_mem (by simp [branches, inCut])
  have holds : tree.arena.contains holder.id = true :=
    (contains_arena numbered holder.id).trans (contains_of_live numbered member)
  have present : tree.arena.contains branch.id = true :=
    (contains_arena numbered branch.id).trans (contains_of_live numbered live)
  rw [Arena.link, Arena.pushChild, Arena.edit_of_contains holds, Result.ok_bind, Arena.setParent,
    Arena.edit_of_contains (by rwa [Arena.contains_modify])]
  refine congrArg Except.ok (eq_arena numberedAfter ?_ ?_ fun number => ?_)
  · simp [append, update, discard]
  · rw [rootId?_append]
    rfl
  · rw [Arena.cell?_modify, Arena.cell?_modify, cell?_arena numbered, cell?_eq, cell?_eq,
      label?_perm numbered numberedAfter (entries_rehang numbered inCut member outside),
      parent?_rehung numbered inCut member outside, children_rehung numbered inCut member outside]
    cases tree.label? number
    · split <;> split <;> rfl
    · split <;> split <;> rfl

end Rehung

theorem attach_arena [NodeRules N] (numbered : tree.Numbered) (id parent : Nat) :
    tree.arena.attach id parent = some (arena <$> tree.attach id parent) := by
  rw [Arena.attach, cell_arena numbered, attach]
  cases found : tree.find id with
  | error error => rfl
  | ok branch =>
      obtain ⟨member, rfl⟩ := live_of_find? (find?_of_find found)
      have detached : tree.parent? branch.id = none → tree.rootId? ≠ some branch.id →
          branch ∈ tree.detached := mem_detached numbered member
      simp only [Functor.map, Except.map, Result.ok_bind, cellOf]
      rw [root_arena]
      by_cases fixed : ((tree.parent? branch.id).isSome || tree.rootId? = some branch.id) = true
      · rw [if_pos fixed, if_pos fixed]
        rfl
      · have inCut : branch ∈ tree.detached := by
          simp only [Bool.or_eq_true, decide_eq_true_eq, not_or, Bool.not_eq_true,
            Option.isSome_eq_false_iff, Option.isNone_iff_eq_none] at fixed
          exact detached fixed.1 fixed.2
        rw [if_neg fixed, if_neg fixed, ancestors_arena numbered, Option.bind_eq_bind,
          Option.bind_some]
        by_cases above : (tree.ancestors parent true).contains branch.id = true
        · rw [if_pos above, if_pos above]
          rfl
        · rw [if_neg above, if_neg above, cell_arena numbered]
          cases aimed : tree.find parent with
          | error error => rfl
          | ok holder =>
              obtain ⟨live, rfl⟩ := live_of_find? (find?_of_find aimed)
              have outside : holder.id ∉ numbers [branch] := fun inside =>
                above (List.contains_iff_mem.mpr ((mem_ancestors_iff numbered member).mpr inside))
              have linked := link_arena numbered inCut live outside
              simp only [Functor.map, Except.map, Result.ok_bind, cellOf, List.length_map, linked,
                content]
              refine congrArg some ?_
              cases NodeRules.checkChild holder.label.content branch.label.content
                holder.children.length <;> rfl

theorem restore_arena (numbered : tree.Numbered) {branch : Branch N} (member : branch ∈ tree.live)
    (done : tree.detach branch.id = .ok cut) {wasRoot : Bool}
    (asRoot : wasRoot = decide (tree.rootId? = some branch.id)) :
    cut.arena.restore branch.id (tree.parent? branch.id) wasRoot =
      .ok (cut.restore branch (tree.parent? branch.id) wasRoot).arena := by
  have numberedCut := (renewed_detach numbered done).numbered
  have numberedBack := (renewed_restore numbered member done).numbered
  rw [← asRoot] at numberedBack
  obtain ⟨own, ownLive, same, inCut, parts, next, unrooted⟩ := detach_ok done
  obtain rfl := eq_of_id numbered.distinct ownLive member same
  cases above : tree.parent? own.id with
  | some parent =>
      obtain ⟨holder, live, rfl, below⟩ := child_of_parent? numbered member above
      have outside : holder.id ∉ numbers [own] := fun inside =>
        not_both_inside numbered.distinct live member
          (id_mem_numbers (mem_preorderAll_of_mem below)) inside
      obtain ⟨now, nowLive, sameHolder⟩ := exists_of_mem_numbers
        ((numbers_detach numbered done).symm.subset (id_mem_numbers live))
      rw [← sameHolder] at outside ⊢
      exact link_arena numberedCut inCut nowLive outside
  | none =>
      rw [above] at numberedBack
      cases wasRoot with
      | false => rfl
      | true =>
          have bare := unrooted (of_decide_eq_true asRoot.symm)
          have order : cut.branches.Perm (cut.restore own none true).branches := by
            have split : (cut.restore own none true).branches =
                own :: (cut.discard own.id).branches := by
              simp [restore, branches, discard, bare]
            rw [split]
            exact perm_discard numberedCut inCut
          refine congrArg Except.ok (eq_arena numberedBack (size_arena cut) rfl fun number => ?_)
          exact (cell?_arena numberedCut number).trans
            (cell?_perm numberedCut numberedBack order number).symm

theorem move_arena [NodeRules N] (numbered : tree.Numbered) (id target : Nat) :
    tree.arena.move id target =
      some ((tree.move id target).1.arena, (tree.move id target).2) := by
  rw [Arena.move, ancestors_arena numbered, move]
  simp only [Option.bind_eq_bind, Option.bind_some]
  split
  · rfl
  · rw [detach_arena numbered]
    cases done : tree.detach id with
    | error error =>
        cases found : tree.find id with
        | error failure =>
            rw [detach, found] at done
            cases done
            rfl
        | ok branch => rfl
    | ok cut =>
        have numberedCut := (renewed_detach numbered done).numbered
        obtain ⟨branch, member, rfl, _⟩ := detach_ok done
        have found := find_of_find? (find?_of_live numbered member)
        have back := restore_arena numbered member done rfl
        simp only [Functor.map, Except.map, attach_arena numberedCut, found, Option.bind_some]
        cases attached : cut.attach branch.id target with
        | ok moved => rfl
        | error error =>
            simp only [parent?_arena numbered]
            rw [root_arena, back]

theorem cell?_of_dead {number : Nat} (dead : number ∉ numbers tree.branches) :
    tree.cell? number = none := by
  rw [cell?, find?, ancestry_of_dead dead]
  rfl

theorem clear_arena (numbered : tree.Numbered) {branch : Branch N} (inCut : branch ∈ tree.detached) :
    tree.arena.clear (tree.preorder branch.id) = (tree.discard branch.id).arena := by
  have member : branch ∈ tree.live := mem_preorderAll_of_mem (by simp [branches, inCut])
  refine eq_arena (numbered_discard numbered inCut) ?_ rfl fun number => ?_
  · rw [Arena.size_clear, size_arena]
    rfl
  · rw [Arena.cell?_clear, preorder_of_live numbered member, cell?_arena numbered]
    split
    · rename_i inside
      exact (cell?_of_dead fun present =>
        ((numbers_discard_iff numbered inCut).mp present).2 inside).symm
    · rename_i outside
      have lines : lineage number (tree.discard branch.id).branches = lineage number tree.branches := by
        rw [lineage_perm (perm_discard numbered inCut) numbered.distinct]
        obtain ⟨label, children⟩ := branch
        rw [numbers_cons, numbers_nil, List.append_nil, List.mem_cons, not_or] at outside
        rw [lineage_beside (Ne.symm outside.1) outside.2]
      refine (cell?_congr ?_ ?_ (children_discard numbered inCut outside)).symm
      · rw [label?_eq_lineage, label?_eq_lineage, lines]
      · rw [parent?_eq_lineage, parent?_eq_lineage, lines]

theorem remove_arena (numbered : tree.Numbered) (id : Nat) :
    tree.arena.remove id =
      some ((fun parts => (parts.1.arena, parts.2.arena)) <$> tree.remove id) := by
  rw [Arena.remove, subtree_arena numbered, remove, detach_arena numbered]
  cases copied : tree.subtree id with
  | error error => rfl
  | ok removed =>
      cases done : tree.detach id with
      | error error => rfl
      | ok cut =>
          have numberedCut := (renewed_detach numbered done).numbered
          obtain ⟨branch, _, rfl, inCut, _⟩ := detach_ok done
          have cleared := clear_arena numberedCut inCut
          simp only [Functor.map, Except.map, Option.bind_eq_bind, Option.bind_some,
            preorder_arena numberedCut, cleared]
          rfl

/-! ### Labels that change -/

section Labels

variable {number : Nat} {change : Entry N → Entry N}
  (keeps : ∀ entry, (change entry).id = entry.id)

include keeps

theorem lineage_updateEntry (tree : Tree N) (id : Nat) :
    lineage id (tree.updateEntry number change).branches =
      (lineage id tree.branches).map fun entry =>
        if entry.id = number then change entry else entry := by
  have parts : (tree.updateEntry number change).branches = _ := branches_update tree number _
  rw [parts]
  exact lineage_relabelled number keeps tree.branches id

theorem parent?_updateEntry (tree : Tree N) (id : Nat) :
    (tree.updateEntry number change).parent? id = tree.parent? id := by
  have same : (Entry.id ∘ fun entry => if entry.id = number then change entry else entry) =
      Entry.id (N := N) := by
    funext entry
    rw [Function.comp_apply]
    split
    · exact keeps entry
    · rfl
  rw [parent?_eq_lineage, parent?_eq_lineage, lineage_updateEntry keeps, List.getElem?_map,
    Option.map_map, same]

theorem children_updateEntry (numbered : tree.Numbered) {branch : Branch N}
    (found : tree.find number = .ok branch) (id : Nat) :
    (tree.updateEntry number change).children id = tree.children id := by
  have numberedAfter := (renewed_updateEntry numbered keeps found).numbered
  obtain ⟨member, rfl⟩ := live_of_find? (find?_of_find found)
  have regrown := regrown_updateEntry numbered member keeps
  by_cases here : id = branch.id
  · have now := children_of_live numberedAfter (regrown.live_new numbered member)
    rw [id_node, keeps] at now
    rw [here, children_of_live numbered member]
    exact now
  · by_cases known : id ∈ numbers tree.branches
    · exact regrown.children_elsewhere numbered member (keeps branch.label)
        (fun _ inside => inside) known here
    · have gone : id ∉ numbers (tree.updateEntry branch.id change).branches := by
        rwa [← lineage_eq_nil_iff, lineage_updateEntry keeps, List.map_eq_nil_iff,
          lineage_eq_nil_iff]
      rw [children_of_dead known, children_of_dead gone]

end Labels

theorem edit_arena (numbered : tree.Numbered) (number : Nat) {change : Entry N → Entry N}
    {relabel : Cell N → Cell N} (keeps : ∀ entry, (change entry).id = entry.id)
    (alike : ∀ (entry : Entry N) parent children, relabel ⟨entry.toKeyed, parent, children⟩ =
      ⟨(change entry).toKeyed, parent, children⟩) :
    tree.arena.edit number relabel =
      (fun _ => (tree.updateEntry number change).arena) <$> tree.find number := by
  cases found : tree.find number with
  | error error =>
      rw [Arena.edit, cell_arena numbered, found]
      rfl
  | ok branch =>
      have numberedAfter := (renewed_updateEntry numbered keeps found).numbered
      have below := children_updateEntry keeps numbered found
      obtain ⟨member, rfl⟩ := live_of_find? (find?_of_find found)
      have regrown := regrown_updateEntry numbered member keeps
      have present : tree.arena.contains branch.id = true :=
        (contains_arena numbered branch.id).trans (contains_of_live numbered member)
      rw [Arena.edit_of_contains present]
      refine congrArg Except.ok (eq_arena numberedAfter ?_ ?_ fun id => ?_)
      · rw [Arena.size_modify, size_arena]
        rfl
      · exact (regrown.rootId? (keeps branch.label)).symm
      · rw [Arena.cell?_modify, cell?_arena numbered, cell?_eq, cell?_eq, below,
          parent?_updateEntry keeps, label?_eq_lineage, label?_eq_lineage, lineage_updateEntry keeps]
        by_cases known : id ∈ numbers tree.branches
        · obtain ⟨entry, outward, way, rfl⟩ := lineage_head known
          rw [way]
          simp only [List.map_cons, List.head?_cons, Option.map_some]
          split
          · rw [alike]
          · rfl
        · rw [lineage_of_not_mem known]
          split <;> rfl

theorem setKey_arena (numbered : tree.Numbered) (id : Nat) (key : Option String) :
    tree.arena.setKey id key = arena <$> tree.setKey id key := by
  have keeps : ∀ entry : Entry N, ({ entry with key := key } : Entry N).id = entry.id :=
    fun _ => rfl
  rw [Arena.setKey, setKey, edit_arena numbered id keeps fun _ _ _ => rfl]
  cases tree.find id <;> rfl

theorem assign_arena (numbered : tree.Numbered) (id : Nat) (content : N) :
    tree.arena.assign id content = arena <$> tree.assign id content := by
  have keeps : ∀ entry : Entry N, ({ entry with content := content } : Entry N).id = entry.id :=
    fun _ => rfl
  rw [Arena.assign, assign, edit_arena numbered id keeps fun _ _ _ => rfl]
  cases tree.find id <;> rfl

theorem replace_arena (numbered : tree.Numbered) (id : Nat) (content : N) :
    tree.arena.replace id content =
      (fun made => (made.1, made.2.arena)) <$> tree.replace id content := by
  rw [Arena.replace, replace, get_arena numbered, assign_arena numbered]
  cases tree.get id with
  | error error => rfl
  | ok old => cases tree.assign id content <;> rfl

end Tree

end ScopedClauses
