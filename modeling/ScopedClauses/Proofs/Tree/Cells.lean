import ScopedClauses.Proofs.Tree.Adding
import ScopedClauses.Tree.Arena

/-!
The cells of an arena after each kind of edit, and the arena that holds a given tree. A tree whose
numbers are given out once is read off its arena: the same nodes, the same links, and the same ways
along them, each of which ends.
-/

namespace ScopedClauses

namespace Arena

variable {N : Type} {arena first second : Arena N} {change : Cell N → Cell N} {cell : Cell N}
  {label : Keyed N} {parent : Option Nat} {id number : Nat}

theorem eq_of_cells (size : first.cells.size = second.cells.size) (root : first.root = second.root)
    (cells : ∀ id, first.cell? id = second.cell? id) : first = second := by
  obtain ⟨firstCells, firstRoot⟩ := first
  obtain ⟨secondCells, secondRoot⟩ := second
  obtain rfl : firstRoot = secondRoot := root
  congr 1
  refine Array.ext size fun id bound other => ?_
  have same := cells id
  simpa [cell?, bound, other] using same

theorem cell?_of_size_le (past : arena.cells.size ≤ id) : arena.cell? id = none := by
  simp [cell?, past]

theorem cell_of_cell? (found : arena.cell? id = some cell) : arena.cell id = .ok cell := by
  rw [Arena.cell, found]
  rfl

theorem cell?_modify : (arena.modify id change).cell? number =
    if number = id then (arena.cell? number).map change else arena.cell? number := by
  rw [cell?, cell?, modify, Array.getElem?_modify]
  split
  · rename_i here
    rw [if_pos here.symm]
    cases arena.cells[number]? with
    | none => rfl
    | some slot => rfl
  · rename_i other
    rw [if_neg (Ne.symm other)]

theorem cell?_alloc : (arena.alloc label parent).2.cell? number =
    if number = arena.cells.size then some ⟨label, parent, []⟩ else arena.cell? number := by
  rw [cell?, cell?, alloc, Array.getElem?_push]
  split <;> rfl

theorem edit_of_contains (present : arena.contains id = true) :
    arena.edit id change = .ok (arena.modify id change) := by
  obtain ⟨cell, found⟩ := Option.isSome_iff_exists.mp present
  rw [edit, cell_of_cell? found]
  rfl

@[simp] theorem contains_modify :
    (arena.modify id change).contains number = arena.contains number := by
  rw [contains, contains, cell?_modify]
  split <;> simp

theorem cell?_clear (ids : List Nat) : (arena.clear ids).cell? number =
    if number ∈ ids then none else arena.cell? number := by
  induction ids generalizing arena with
  | nil => rfl
  | cons id rest ih =>
      have step : arena.clear (id :: rest) =
          Arena.clear { arena with cells := arena.cells.setIfInBounds id none } rest := rfl
      rw [step, ih]
      by_cases later : number ∈ rest
      · simp [later]
      · by_cases here : number = id
        · subst here
          simp only [later, if_false, cell?, Array.getElem?_setIfInBounds_self]
          split <;> simp_all
        · have other : id ≠ number := Ne.symm here
          simp [later, here, cell?, Array.getElem?_setIfInBounds_ne other]

@[simp] theorem size_modify : (arena.modify id change).cells.size = arena.cells.size := by
  simp [modify]

@[simp] theorem root_modify : (arena.modify id change).root = arena.root := rfl

theorem size_clear (ids : List Nat) : (arena.clear ids).cells.size = arena.cells.size := by
  induction ids generalizing arena with
  | nil => rfl
  | cons id rest ih =>
      have step : arena.clear (id :: rest) =
          Arena.clear { arena with cells := arena.cells.setIfInBounds id none } rest := rfl
      rw [step, ih, Array.size_setIfInBounds]

end Arena

namespace Tree

open Rose

variable {N : Type}

def cellOf (tree : Tree N) (branch : Branch N) : Cell N :=
  ⟨branch.label.toKeyed, tree.parent? branch.id, branch.children.map Rose.id⟩

def cell? (tree : Tree N) (id : Nat) : Option (Cell N) := (tree.find? id).map tree.cellOf

def arena (tree : Tree N) : Arena N :=
  { cells := (Array.range tree.next).map tree.cell?, root := tree.rootId? }

def label? (tree : Tree N) (id : Nat) : Option (Keyed N) :=
  (tree.find? id).map fun branch => branch.label.toKeyed

section Views

variable {tree after : Tree N} {id : Nat}

theorem cell?_eq (tree : Tree N) (id : Nat) :
    tree.cell? id = (tree.label? id).map fun label => ⟨label, tree.parent? id, tree.children id⟩ := by
  rw [cell?, label?, children, childBranches]
  cases found : tree.find? id with
  | none => rfl
  | some branch =>
      obtain ⟨_, rfl⟩ := live_of_find? found
      rfl

theorem cell?_congr (label : after.label? id = tree.label? id)
    (parent : after.parent? id = tree.parent? id) (children : after.children id = tree.children id) :
    after.cell? id = tree.cell? id := by
  rw [cell?_eq, cell?_eq, label, parent, children]

theorem label?_eq_lineage (tree : Tree N) (id : Nat) :
    tree.label? id = (lineage id tree.branches).head?.map Entry.toKeyed := by
  simp only [label?, find?, ancestry, lineage, pathTo?, List.head?_map, Option.map_map]
  rfl

variable (numbered : tree.Numbered)

include numbered

theorem label?_iff {label : Keyed N} :
    tree.label? id = some label ↔ ⟨label, id⟩ ∈ entries tree.branches := by
  constructor
  · intro known
    obtain ⟨branch, found, rfl⟩ := Option.map_eq_some_iff.mp known
    obtain ⟨member, rfl⟩ := live_of_find? found
    exact List.mem_map_of_mem member
  · intro present
    obtain ⟨branch, member, same⟩ := List.mem_map.mp present
    have here : branch.id = id := congrArg Entry.id same
    rw [label?, ← here, find?_of_live numbered member, Option.map_some, same]

theorem label?_perm (numberedAfter : after.Numbered)
    (same : (entries after.branches).Perm (entries tree.branches)) (id : Nat) :
    after.label? id = tree.label? id := by
  refine Option.ext fun label => ?_
  rw [label?_iff numberedAfter, label?_iff numbered, same.mem_iff]

theorem parent?_iff {parent : Nat} :
    tree.parent? id = some parent ↔ id ∈ tree.children parent := by
  refine ⟨fun found => (numbered.linked.parent found).2, fun below => ?_⟩
  exact parent?_of_mem_children numbered below

/-! ### The arena of a tree -/

theorem cell?_of_next_le (past : tree.next ≤ id) : tree.cell? id = none := by
  rw [cell?]
  cases found : tree.find? id with
  | none => rfl
  | some branch =>
      obtain ⟨member, rfl⟩ := live_of_find? found
      have bound := numbered.bounded branch.id (id_mem_numbers member)
      omega

omit numbered in
@[simp] theorem size_arena (tree : Tree N) : tree.arena.cells.size = tree.next := by simp [arena]

omit numbered in
@[simp] theorem root_arena (tree : Tree N) : tree.arena.root = tree.rootId? := rfl

theorem cell?_arena (id : Nat) : tree.arena.cell? id = tree.cell? id := by
  by_cases bound : id < tree.next
  · simp [Arena.cell?, arena, bound]
  · rw [cell?_of_next_le numbered (Nat.le_of_not_lt bound),
      Arena.cell?_of_size_le (by simpa using bound)]

theorem eq_arena {arena : Arena N} (size : arena.cells.size = tree.next)
    (root : arena.root = tree.rootId?) (cells : ∀ id, arena.cell? id = tree.cell? id) :
    arena = tree.arena :=
  Arena.eq_of_cells (by rw [size, size_arena]) root fun id => by
    rw [cells, cell?_arena numbered]

theorem cell_arena (id : Nat) : tree.arena.cell id = tree.cellOf <$> tree.find id := by
  rw [Arena.cell, cell?_arena numbered, cell?, find]
  cases tree.find? id <;> rfl

theorem cell_of_live {branch : Branch N} (member : branch ∈ tree.live) :
    tree.arena.cell? branch.id = some (tree.cellOf branch) := by
  rw [cell?_arena numbered, cell?, find?_of_live numbered member, Option.map_some]

theorem contains_arena (id : Nat) : tree.arena.contains id = tree.contains id := by
  rw [Arena.contains, cell?_arena numbered, cell?, Option.isSome_map, contains]

theorem key?_arena (id : Nat) : tree.arena.key? id = tree.key? id := by
  rw [Arena.key?, cell?_arena numbered, cell?, Option.bind_map, key?]
  rfl

theorem get_arena (id : Nat) : tree.arena.get id = tree.get id := by
  rw [Arena.get, cell_arena numbered, get]
  cases tree.find id <;> rfl

theorem parent?_arena (id : Nat) : tree.arena.parent? id = tree.parent? id := by
  rw [Arena.parent?, cell?_arena numbered, cell?_eq]
  cases found : tree.label? id with
  | some label => rfl
  | none =>
      rw [label?_eq_lineage, Option.map_eq_none_iff, List.head?_eq_none_iff] at found
      rw [parent?_eq_lineage, found]
      rfl

theorem children_arena (id : Nat) : tree.arena.children id = tree.children id := by
  rw [Arena.children, cell?_arena numbered, cell?, children, childBranches]
  cases tree.find? id <;> rfl

/-! ### Ways along its links -/

/-- The loop along the parents ends, by induction on the way that is left. -/
theorem climb_arena (id : Nat) :
    tree.arena.climb (tree.parent? id) = some (tree.ancestors id false) := by
  induction left : (tree.ancestors id false).length using Nat.strongRecOn generalizing id with
  | ind length ih =>
      rw [ancestors_eq numbered] at left ⊢
      cases found : tree.parent? id with
      | none =>
          rw [Arena.climb]
          rfl
      | some parent =>
          have present := (numbered.linked.parent found).1
          have way := (numbered.linked.ancestors present).1
          rw [found, Option.map_some, Option.getD_some, way, List.length_cons] at left
          rw [Arena.climb, parent?_arena numbered, ih _ (by omega) parent rfl, Option.map_some,
            Option.getD_some, way]
          rfl

theorem ancestors_arena (id : Nat) (withSelf : Bool) :
    tree.arena.ancestors id withSelf = some (tree.ancestors id withSelf) := by
  rw [Arena.ancestors, parent?_arena numbered, climb_arena numbered, contains_arena numbered]
  cases withSelf with
  | false => rfl
  | true =>
      cases present : tree.contains id with
      | true => rw [(numbered.linked.ancestors present).1]; rfl
      | false =>
          have dead : id ∉ numbers tree.branches := fun live => by
            rw [(contains_iff numbered).mpr live] at present
            cases present
          rw [ancestors_self, ancestors_outside, lineage_of_not_mem dead]
          rfl

theorem depth_arena (id : Nat) : tree.arena.depth id = some (tree.depth id) := by
  rw [Arena.depth, ancestors_arena numbered]
  rfl

/-- The loop of the stack ends, by induction on the branches that are on top of it. -/
theorem walk_arena (forest : List (Branch N)) (live : ∀ branch ∈ forest, branch ∈ tree.live)
    (rest : List Nat) :
    tree.arena.walk (forest.map Rose.id ++ rest) = (numbers forest ++ ·) <$> tree.arena.walk rest := by
  induction forest using forestInduction generalizing rest with
  | nil =>
      cases walked : tree.arena.walk rest <;> simp [walked]
  | cons label children beside ihBelow ihBeside =>
      have head := live _ List.mem_cons_self
      have found := cell_of_live numbered head
      have below : ∀ branch ∈ children, branch ∈ tree.live := fun branch listed =>
        mem_preorderAll_trans _ head (mem_preorderAll_of_mem listed)
      have later : ∀ branch ∈ beside, branch ∈ tree.live := fun branch listed =>
        live branch (List.mem_cons_of_mem _ listed)
      rw [List.map_cons, List.cons_append, Arena.walk, found]
      simp only [cellOf, children_node, ihBelow below, ihBeside later]
      cases tree.arena.walk rest <;> simp

theorem preorder_arena (id : Nat) : tree.arena.preorder id = some (tree.preorder id) := by
  by_cases present : id ∈ numbers tree.branches
  · obtain ⟨branch, member, rfl⟩ := exists_of_mem_numbers present
    have walked := walk_arena numbered [branch] (fun other listed => by
      rwa [List.mem_singleton.mp listed]) []
    rw [preorder_of_live numbered member, Arena.preorder]
    rw [List.append_nil, Arena.walk] at walked
    simpa using walked
  · have gone : tree.arena.cell? id = none := by
      rw [cell?_arena numbered, cell?, find?, ancestry_of_dead present]
      rfl
    rw [Arena.preorder, Arena.walk, gone, preorder_of_dead present, Arena.walk]

theorem descendants_arena (id : Nat) : tree.arena.descendants id = some (tree.descendants id) := by
  rw [Arena.descendants, preorder_arena numbered]
  rfl

/-! ### What the root reaches -/

omit numbered in
theorem live_of_nodes {branch : Branch N} (member : branch ∈ tree.nodes) : branch ∈ tree.live := by
  rw [live, branches, preorderAll_append]
  exact List.mem_append_left _ member

theorem reached_arena : tree.arena.reached = some (tree.nodes.map Rose.id) := by
  rw [Arena.reached, root_arena, rootId?, nodes]
  cases rooted : tree.root with
  | none => rfl
  | some root =>
      simp only [Option.map_some, preorder_arena numbered,
        preorder_of_live numbered (live_of_root rooted), Option.toList_some]
      rfl

theorem len_arena : tree.arena.len = some tree.len := by
  rw [Arena.len, reached_arena numbered, Option.map_eq_map, Option.map_some, List.length_map]
  rfl

theorem leaves_arena : tree.arena.leaves = some tree.leaves := by
  have same : ∀ branch ∈ tree.nodes,
      (tree.arena.children branch.id).isEmpty = branch.children.isEmpty := fun branch member => by
    rw [children_arena numbered, children_of_live numbered (live_of_nodes member), List.isEmpty_map]
  rw [Arena.leaves, reached_arena numbered, leaves, Option.map_eq_map, Option.map_some,
    List.filter_map, ← List.filter_congr same]
  rfl

theorem findByKey?_arena (key : String) : tree.arena.findByKey? key = some (tree.findByKey? key) := by
  have same : ∀ branch ∈ tree.nodes,
      decide (tree.arena.key? branch.id = some key) = decide (branch.key = some key) :=
    fun branch member => by
      rw [key?_arena numbered, key?, find?_of_live numbered (live_of_nodes member), Option.bind_some]
  rw [Arena.findByKey?, reached_arena numbered, findByKey?, Option.map_eq_map, Option.map_some,
    List.find?_map, ← List.find?_congr same]
  rfl

theorem findChild?_arena (parent : Nat) (wanted : N → Option String → Bool) :
    tree.arena.findChild? parent wanted = tree.findChild? parent wanted := by
  rw [Arena.findChild?, children_arena numbered, findChild?, children, List.find?_map]
  refine congrArg (Option.map Rose.id) (List.find?_congr fun branch listed => ?_)
  have member : branch ∈ tree.live := by
    rw [childBranches] at listed
    split at listed
    · rename_i holder found
      obtain ⟨above, _⟩ := live_of_find? found
      exact mem_preorderAll_trans _ above (mem_preorderAll_of_mem listed)
    · cases listed
  rw [Function.comp_apply, cell_of_live numbered member]
  rfl

/-- The lines of nodes side by side, by induction on the branches that are drawn. -/
theorem drawCells_arena [NodeRules N] (forest : List (Branch N))
    (live : ∀ branch ∈ forest, branch ∈ tree.live) (margin : String) :
    tree.arena.drawCells margin (forest.map Rose.id) = some (drawChildren margin forest) := by
  induction forest using forestInduction generalizing margin with
  | nil =>
      rw [List.map_nil, Arena.drawCells]
      rfl
  | cons label children rest ihBelow ihBeside =>
      have head := live _ List.mem_cons_self
      have drawn : ∀ lead margin, tree.arena.drawCell lead margin label.id =
          some (drawBranch lead margin (.node label children)) := by
        intro lead margin
        have found := cell_of_live numbered head
        rw [id_node] at found
        rw [Arena.drawCell, found]
        simp only [cellOf, children_node, label_node, drawBranch, ihBelow (fun branch listed =>
          mem_preorderAll_trans _ head (mem_preorderAll_of_mem listed)), Option.bind_eq_bind,
          Option.bind_some]
      cases rest with
      | nil =>
          rw [List.map_cons, List.map_nil, Arena.drawCells, id_node, drawn, drawChildren]
      | cons second others =>
          have later := ihBeside (fun branch listed => live branch (List.mem_cons_of_mem _ listed)) margin
          rw [List.map_cons] at later
          rw [List.map_cons, List.map_cons, Arena.drawCells, later, id_node, drawn]
          · rfl
          · simp

theorem render_arena [NodeRules N] : tree.arena.render = some tree.render := by
  rw [Arena.render, root_arena, rootId?, render]
  cases rooted : tree.root with
  | none => rfl
  | some root =>
      obtain ⟨label, children⟩ := root
      have head := live_of_root rooted
      have found := cell_of_live numbered head
      have below := drawCells_arena numbered children (fun branch listed =>
        mem_preorderAll_trans _ head (mem_preorderAll_of_mem listed)) ""
      rw [id_node] at found
      simp only [Option.map_some, id_node]
      rw [Arena.drawCell, found]
      simp only [cellOf, children_node, label_node, drawBranch, below, Option.bind_eq_bind,
        Option.bind_some]

end Views

end Tree

end ScopedClauses
