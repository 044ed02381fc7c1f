import ScopedClauses.Proofs.Tree.Cells
import ScopedClauses.Proofs.Tree.Copying

/-!
Each operation on an arena does to the cells what the operation of the same name does to the tree
that the arena holds, and it ends.
-/

namespace ScopedClauses

namespace Tree

open Rose

variable {N : Type} {tree after : Tree N}

theorem children_of_kept (numbered : tree.Numbered) (numberedAfter : after.Numbered) {number : Nat}
    (kept : ∀ branch ∈ tree.live, branch.id = number → branch ∈ after.live)
    (known : number ∈ numbers after.branches → number ∈ numbers tree.branches) :
    after.children number = tree.children number := by
  by_cases present : number ∈ numbers tree.branches
  · obtain ⟨branch, member, rfl⟩ := exists_of_mem_numbers present
    rw [children_of_live numbered member, children_of_live numberedAfter (kept branch member rfl)]
  · rw [children_of_dead present, children_of_dead fun live => present (known live)]

/-! ### New nodes -/

/-- The two edits that place a node: a cell at the end, and its number in the cell of the parent. -/
theorem arena_bud (numbered : tree.Numbered) {holder : Branch N} (member : holder ∈ tree.live)
    {content : N} {key : Option String}
    (regrown : Regrown tree holder (extended holder (bud key content tree.next)) after)
    (next : after.next = tree.next + 1) :
    (tree.arena.alloc ⟨key, content⟩ (some holder.id)).2.pushChild holder.id tree.next =
      .ok after.arena := by
  have bound := numbered.bounded holder.id (id_mem_numbers member)
  have stays : (tree.arena.alloc ⟨key, content⟩ (some holder.id)).2.contains holder.id = true := by
    rw [Arena.contains, Arena.cell?_alloc, size_arena, if_neg (by omega),
      cell_of_live numbered member]
    rfl
  rw [Arena.pushChild, Arena.edit_of_contains stays]
  refine congrArg _ (eq_arena (regrown.numbered numbered member) ?_ ?_ fun id => ?_)
  · simp [Arena.alloc, next]
  · rw [regrown.rootId? (id_extended holder _)]
    rfl
  · have lines := regrown.lineage_bud numbered member rfl id
    have below := regrown.children_bud numbered member rfl id
    rw [Arena.cell?_modify, Arena.cell?_alloc, size_arena, cell?_arena numbered, cell?_eq after,
      label?_eq_lineage, parent?_eq_lineage, lines, below]
    by_cases new : id = tree.next
    · have other : id ≠ holder.id := by omega
      have dead : id ∉ numbers tree.branches := fun present => by
        have := numbered.bounded id present
        omega
      obtain ⟨entry, outward, way, same⟩ := lineage_head (id_mem_numbers member)
      rw [if_neg other, if_pos new, if_pos new, if_neg other, children_of_dead dead, way, ← same]
      rfl
    · rw [if_neg new, if_neg new, cell?_eq tree, label?_eq_lineage, parent?_eq_lineage]
      split
      · cases (lineage id tree.branches).head? <;> rfl
      · rfl

theorem insert_arena [NodeRules N] (numbered : tree.Numbered) (content : N) (parent : Nat)
    (key : Option String) : tree.arena.insert content parent key =
      (fun made => (made.1, made.2.arena)) <$> tree.insert content parent key := by
  rw [Arena.insert, cell_arena numbered]
  cases found : tree.find parent with
  | error error =>
      rw [insert, found]
      rfl
  | ok holder =>
      obtain ⟨member, rfl⟩ := live_of_find? (find?_of_find found)
      have asked : NodeRules.checkChild (tree.cellOf holder).content content
          (tree.cellOf holder).children.length =
          NodeRules.checkChild holder.content content holder.children.length := by
        rw [cellOf, List.length_map]
        rfl
      rw [show (tree.cellOf <$> (.ok holder : Result (Branch N))) = .ok (tree.cellOf holder) from rfl,
        Result.ok_bind, asked]
      cases taken : NodeRules.checkChild holder.content content holder.children.length with
      | error error =>
          rw [insert_of_live numbered member, taken]
          rfl
      | ok _ =>
          obtain ⟨grown, inserted, regrown, next⟩ := insert_taken numbered member key taken
          have placed := arena_bud numbered member regrown next
          rw [inserted, Result.ok_bind]
          simp only [Arena.alloc, size_arena] at placed ⊢
          rw [placed]
          rfl

theorem bare_of_insertRoot {content : N} {key : Option String} {made : Nat × Tree N}
    (inserted : tree.insertRoot content key = .ok made) : tree.rootId? = none := by
  rw [insertRoot] at inserted
  split at inserted
  · cases inserted
  · rename_i bare
    rw [rootId?, bare]
    rfl

/-- The two edits that place a root: a cell at the end, and its number as the root. -/
theorem arena_root (numbered : tree.Numbered) {content : N} {key : Option String} {new : Nat}
    (inserted : tree.insertRoot content key = .ok (new, after)) :
    { (tree.arena.alloc ⟨key, content⟩ none).2 with root := some tree.next } = after.arena := by
  have numberedAfter := (renewed_insertRoot numbered inserted).numbered
  obtain ⟨rfl, rooted, parts, next⟩ := insertRoot_ok inserted
  have root : bud key content tree.next ∈ after.live := mem_preorderAll_of_mem (by simp [parts])
  refine eq_arena numberedAfter (by simp [Arena.alloc, next]) ?_ fun id => ?_
  · rw [rootId?, rooted]
    rfl
  · have slot : Arena.cell? { (tree.arena.alloc ⟨key, content⟩ none).2 with
        root := some tree.next } id = (tree.arena.alloc ⟨key, content⟩ none).2.cell? id := rfl
    have lines : lineage id after.branches =
        if tree.next = id then [⟨⟨key, content⟩, tree.next⟩] else lineage id tree.branches := by
      rw [parts, bud, lineage_cons]
      simp
    rw [slot, Arena.cell?_alloc, size_arena, cell?_eq, label?_eq_lineage, parent?_eq_lineage, lines]
    by_cases here : id = tree.next
    · subst here
      have below : after.children tree.next = [] := children_of_live numberedAfter root
      rw [if_pos rfl, if_pos rfl, below]
      rfl
    · have below : after.children id = tree.children id := by
        refine children_of_kept numbered numberedAfter (fun branch member _ => ?_) fun live => ?_
        · rw [live, parts, ← List.singleton_append, preorderAll_append]
          exact List.mem_append_right _ member
        · rw [parts, numbers_cons_eq, List.mem_append] at live
          exact live.resolve_left fun new => here (by simpa [bud] using new)
      rw [if_neg here, if_neg (Ne.symm here), below, cell?_arena numbered, cell?_eq,
        label?_eq_lineage, parent?_eq_lineage]

theorem insertRoot_arena (numbered : tree.Numbered) (content : N) (key : Option String) :
    tree.arena.insertRoot content key =
      (fun made => (made.1, made.2.arena)) <$> tree.insertRoot content key := by
  cases inserted : tree.insertRoot content key with
  | error error =>
      rw [insertRoot] at inserted
      split at inserted
      · rename_i root rooted
        cases inserted
        rw [Arena.insertRoot, root_arena, rootId?, rooted]
        rfl
      · cases inserted
  | ok made =>
      obtain ⟨new, after⟩ := made
      have bare := bare_of_insertRoot inserted
      have placed := arena_root numbered inserted
      obtain ⟨rfl, _⟩ := insertRoot_ok inserted
      simp only [Arena.insertRoot, root_arena, bare, Arena.alloc, size_arena] at placed ⊢
      rw [placed]
      rfl

theorem empty_arena : ({} : Tree N).arena = {} :=
  (eq_arena numbered_empty rfl rfl fun id => by
    rw [Arena.cell?_of_size_le (Nat.zero_le id), cell?_of_next_le numbered_empty (Nat.zero_le id)]).symm

theorem withRoot_arena (content : N) (key : Option String) :
    (withRoot content key).arena = Arena.withRoot content key := by
  have inserted : ({} : Tree N).insertRoot content key = .ok (0, withRoot content key) := rfl
  have placed := insertRoot_arena numbered_empty content key
  rw [inserted, empty_arena] at placed
  exact (congrArg Prod.snd (Except.ok.inj placed)).symm

/-! ### Copies -/

theorem copyEach_arena (numbered : tree.Numbered) (forest : List (Branch N))
    (live : ∀ branch ∈ forest, branch ∈ tree.live) {out : Tree N} (numberedOut : out.Numbered)
    {holder : Branch N} (member : holder ∈ out.live) :
    ∃ grown, tree.arena.copyEach holder.id (forest.map Rose.id) out.arena = some (.ok grown.arena) ∧
      Appended out holder (shapes forest) grown := by
  induction forest using forestInduction generalizing out holder with
  | nil =>
      refine ⟨out, ?_, .nil numberedOut member⟩
      rw [List.map_nil, Arena.copyEach]
  | cons label children rest ihBelow ihBeside =>
      have head := live _ List.mem_cons_self
      have below : ∀ branch ∈ children, branch ∈ tree.live := fun branch listed =>
        mem_preorderAll_trans _ head (mem_preorderAll_of_mem listed)
      have later : ∀ branch ∈ rest, branch ∈ tree.live := fun branch listed =>
        live branch (List.mem_cons_of_mem _ listed)
      have found := Arena.cell_of_cell? (cell_of_live numbered head)
      have inside := children_of_live numbered head
      rw [id_node] at found inside
      -- the node itself, then what is below it, then what is beside it
      obtain ⟨middle, regrown, next⟩ : ∃ middle, Regrown out holder
          (extended holder (bud label.key label.content out.next)) middle ∧
            middle.next = out.next + 1 :=
        ⟨_, regrown_append numberedOut member label.content label.key, rfl⟩
      have placed := arena_bud numberedOut member regrown next
      have single : Appended out holder [.node label.toKeyed []] middle := ⟨regrown, next⟩
      obtain ⟨inner, copied, filled⟩ := ihBelow below (regrown.numbered numberedOut member)
        (single.live_bud numberedOut member)
      have nested := single.nest numberedOut member filled
      obtain ⟨grown, done, all⟩ := ihBeside later (nested.grew.numbered numberedOut member)
        (nested.grew.live_new numberedOut member)
      refine ⟨grown, ?_, nested.append numberedOut member all⟩
      rw [show Rose.id (bud label.key label.content out.next) = out.next from rfl] at copied
      rw [id_node] at done
      simp only [Arena.alloc, size_arena] at placed
      rw [List.map_cons, id_node, Arena.copyEach, found]
      simp only [Arena.alloc, cellOf, label_node, size_arena, placed, children_arena numbered, inside,
        children_node, copied, Option.bind_eq_bind, Option.bind_some]
      exact done

theorem subtree_arena (numbered : tree.Numbered) (id : Nat) :
    tree.arena.subtree id = some (arena <$> tree.subtree id) := by
  rw [Arena.subtree, cell_arena numbered, subtree]
  cases found : tree.find id with
  | error error => rfl
  | ok branch =>
      obtain ⟨member, rfl⟩ := live_of_find? (find?_of_find found)
      obtain ⟨label, children⟩ := branch
      have below : ∀ branch ∈ children, branch ∈ tree.live := fun branch listed =>
        mem_preorderAll_trans _ member (mem_preorderAll_of_mem listed)
      have inside := children_of_live numbered member
      have start : (ofShape (.node label.toKeyed []) : Tree N).arena =
          Arena.withRoot label.content label.key := withRoot_arena label.content label.key
      have top : .node ⟨label.toKeyed, 0⟩ [] ∈ (ofShape (.node label.toKeyed []) : Tree N).live :=
        live_of_root rfl
      obtain ⟨grown, copied, filled⟩ := copyEach_arena numbered children below
        (numbered_ofShape (.node label.toKeyed [])) top
      rw [start] at copied
      rw [filled.eq_ofShape] at copied
      rw [id_node, children_node] at inside
      simp only [id_node, children_arena numbered, inside]
      exact copied

theorem graftEach_arena [NodeRules N] {other : Tree N} (numberedOther : other.Numbered)
    (forest : List (Branch N)) (live : ∀ branch ∈ forest, branch ∈ other.live) {tree : Tree N}
    (numbered : tree.Numbered) (target : Nat) :
    Arena.graftEach other.arena target (forest.map Rose.id) tree.arena =
      some ((graftAll target (shapes forest) tree).1.arena,
        (graftAll target (shapes forest) tree).2) := by
  induction forest using forestInduction generalizing tree target with
  | nil =>
      rw [List.map_nil, Arena.graftEach]
      rfl
  | cons label children rest ihBelow ihBeside =>
      have head := live _ List.mem_cons_self
      have below : ∀ branch ∈ children, branch ∈ other.live := fun branch listed =>
        mem_preorderAll_trans _ head (mem_preorderAll_of_mem listed)
      have later : ∀ branch ∈ rest, branch ∈ other.live := fun branch listed =>
        live branch (List.mem_cons_of_mem _ listed)
      have found := Arena.cell_of_cell? (cell_of_live numberedOther head)
      have inner := children_of_live numberedOther head
      rw [id_node] at found inner
      rw [List.map_cons, id_node, Arena.graftEach, found, shapes_cons, graftAll, graftBelow]
      simp only [cellOf, label_node, insert_arena numbered, children_arena numberedOther, inner,
        children_node]
      cases inserted : tree.insert label.content target label.key with
      | error error => rfl
      | ok made =>
          obtain ⟨copied, middle⟩ := made
          have numberedMiddle := (renewed_insert numbered inserted).numbered
          have filled := ihBelow below numberedMiddle copied
          have renewed := renewed_graftAll copied (shapes children) numberedMiddle
          simp only [Functor.map, Except.map, filled, Option.bind_eq_bind, Option.bind_some]
          rcases left : graftAll copied (shapes children) middle with ⟨grown, result⟩
          rw [left] at renewed
          cases result with
          | error error => rfl
          | ok _ => exact ihBeside later renewed.numbered target

theorem graft_arena [NodeRules N] {other : Tree N} (numberedOther : other.Numbered)
    (numbered : tree.Numbered) (parent : Option Nat) :
    tree.arena.graft other.arena parent =
      some ((tree.graft other.shape? parent).1.arena, (tree.graft other.shape? parent).2) := by
  rw [Arena.graft, root_arena, rootId?, shape?]
  cases rooted : other.root with
  | none => rfl
  | some root =>
      obtain ⟨label, children⟩ := root
      have head := live_of_root rooted
      have below : ∀ branch ∈ children, branch ∈ other.live := fun branch listed =>
        mem_preorderAll_trans _ head (mem_preorderAll_of_mem listed)
      have found := Arena.cell_of_cell? (cell_of_live numberedOther head)
      have inside := children_of_live numberedOther head
      rw [id_node] at found inside
      rw [children_node] at inside
      simp only [Option.map_some, id_node, found, children_arena numberedOther, inside, shape_node]
      cases parent with
      | some parent =>
          simp only [cellOf, label_node, insert_arena numbered, graft, graftBelow]
          cases inserted : tree.insert label.content parent label.key with
          | error error => rfl
          | ok made =>
              obtain ⟨copied, middle⟩ := made
              have filled := graftEach_arena numberedOther children below
                (renewed_insert numbered inserted).numbered copied
              simp only [Functor.map, Except.map, filled, Option.bind_eq_bind, Option.bind_some]
              rcases graftAll copied (shapes children) middle with ⟨grown, _ | _⟩ <;> rfl
      | none =>
          simp only [cellOf, label_node, insertRoot_arena numbered, graft]
          cases inserted : tree.insertRoot label.content label.key with
          | error error => rfl
          | ok made =>
              obtain ⟨copied, middle⟩ := made
              have filled := graftEach_arena numberedOther children below
                (renewed_insertRoot numbered inserted).numbered copied
              simp only [Functor.map, Except.map, filled, Option.bind_eq_bind, Option.bind_some]

end Tree

end ScopedClauses
