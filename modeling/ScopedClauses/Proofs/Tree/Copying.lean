import Mathlib.Data.List.Nodup
import ScopedClauses.Proofs.Tree.Appending
import ScopedClauses.Proofs.Tree.Hanging
import ScopedClauses.Proofs.Tree.Restoring

/-!
Copies of parts of trees. A copy holds the nodes of its part in the same order, under numbers that
are given out in pre-order. Putting a copy into a tree and taking a part out of one leave everything
else where it is.
-/

namespace ScopedClauses

namespace Rose

variable {N : Type} {change : Nat → Nat}

theorem preorderAll_mapAll (relabel : α → β) (forest : List (Rose α)) :
    preorderAll (mapAll relabel forest) = (preorderAll forest).map (map relabel) := by
  induction forest using forestInduction with
  | nil => rfl
  | cons label children rest ihBelow ihBeside =>
      simp [mapAll, map, ihBelow, ihBeside]

theorem map_id_mapAll {relabel : Entry N → Entry N}
    (renumbers : ∀ entry, (relabel entry).id = change entry.id) (forest : List (Branch N)) :
    (mapAll relabel forest).map Rose.id = (forest.map Rose.id).map change := by
  induction forest with
  | nil => rfl
  | cons branch rest ih =>
      obtain ⟨label, children⟩ := branch
      simp [mapAll, map, ih, renumbers]

def renumber (change : Nat → Nat) (entry : Entry N) : Entry N := ⟨entry.toKeyed, change entry.id⟩

theorem length_numbers_eq {first second : List (Branch N)} (same : shapes first = shapes second) :
    (numbers first).length = (numbers second).length := by
  have lengths := congrArg (fun forest => (preorderAll forest).length) same
  simpa [preorderAll_shapes, numbers] using lengths

theorem eq_renumbered {forest copy : List (Branch N)} (same : shapes forest = shapes copy)
    (order : (numbers forest).map change = numbers copy) :
    copy = mapAll (renumber change) forest := by
  induction forest using forestInduction generalizing copy with
  | nil => exact shapes_eq_nil same.symm
  | cons label children rest ihBelow ihBeside =>
      match copy, same, order with
      | [], same, _ => simp [shapes_cons] at same
      | .node own below :: beside, same, order =>
          rw [shapes_cons, shapes_cons, List.cons.injEq, Rose.node.injEq] at same
          obtain ⟨⟨held, inner⟩, outer⟩ := same
          rw [numbers_cons, numbers_cons, List.map_cons, List.map_append, List.cons.injEq] at order
          obtain ⟨here, others⟩ := order
          have lengths := length_numbers_eq inner
          obtain ⟨within, outside⟩ := List.append_inj others (by rw [List.length_map, lengths])
          have entry : own = renumber change label := by
            rw [renumber, here, held]
          rw [mapAll, map, ← ihBelow inner within, ← ihBeside outer outside, entry]

theorem sizeAll_shapes (forest : List (Branch N)) :
    sizeAll (shapes forest) = (numbers forest).length := by
  induction forest using forestInduction with
  | nil => rfl
  | cons label children rest ihBelow ihBeside =>
      rw [shapes_cons, sizeAll, size, ihBelow, ihBeside, numbers_cons, List.length_cons,
        List.length_append]
      omega

theorem size_shape (branch : Branch N) : branch.shape.size = (numbers [branch]).length := by
  rw [← sizeAll_shapes [branch], shapes_cons_eq, shapes_nil, sizeAll]
  rfl

theorem map_id_pruneAt (number : Nat) (forest : List (Branch N)) :
    (pruneAt number forest).map Rose.id = (forest.map Rose.id).filter (· ≠ number) := by
  induction forest with
  | nil => rfl
  | cons branch rest ih =>
      obtain ⟨label, children⟩ := branch
      rw [pruneAt_cons, List.map_cons, id_node]
      split
      · rename_i here
        rw [ih, List.filter_cons_of_neg (by simpa using here)]
      · rename_i other
        rw [List.map_cons, id_node, ih, List.filter_cons_of_pos (by simpa using other)]

end Rose

namespace Tree

open Rose

variable {N : Type} {tree source copy before cut after : Tree N}

/-! ### Copies -/

def copyOf (source : Tree N) (top first id : Nat) : Nat := first + (source.preorder top).idxOf id

/-- The part of `copy` below `first` holds the nodes of `source` below `top`, in the same order and
numbered in pre-order. -/
structure Copied (source : Tree N) (top : Nat) (copy : Tree N) (first : Nat) : Prop where
  numbers : copy.preorder first = List.range' first (source.preorder top).length
  order : copy.preorder first = (source.preorder top).map (source.copyOf top first)
  contents : ∀ id ∈ source.preorder top, copy.get? (source.copyOf top first id) = source.get? id
  keys : ∀ id ∈ source.preorder top, copy.key? (source.copyOf top first id) = source.key? id
  children : ∀ id ∈ source.preorder top, copy.children (source.copyOf top first id) =
    (source.children id).map (source.copyOf top first)

theorem map_copyOf {top : Nat} (once : (source.preorder top).Nodup) (first : Nat) :
    (source.preorder top).map (source.copyOf top first) =
      List.range' first (source.preorder top).length := by
  refine List.ext_getElem (by simp) fun place bound _ => ?_
  have inside : place < (source.preorder top).length := by simpa using bound
  rw [List.getElem_map, copyOf, once.idxOf_getElem place inside, List.getElem_range', Nat.one_mul]

theorem copied_of_shape (numbered : source.Numbered) (numberedCopy : copy.Numbered)
    {branch twin : Branch N} (member : branch ∈ source.live) (memberCopy : twin ∈ copy.live)
    (same : branch.shape = twin.shape) {first : Nat}
    (given : numbers [twin] = List.range' first (numbers [branch]).length) :
    Copied source branch.id copy first := by
  have below := preorder_of_live numbered member
  have once : (source.preorder branch.id).Nodup := numbered.linked.once branch.id
  have order : (numbers [branch]).map (source.copyOf branch.id first) = numbers [twin] := by
    rw [given, ← below]
    exact map_copyOf once first
  have whole : [twin] = mapAll (renumber (source.copyOf branch.id first)) [branch] :=
    eq_renumbered (by rw [shapes_cons_eq, shapes_cons_eq, same]) order
  have start : twin.id = first := by
    obtain ⟨label, children⟩ := twin
    rw [← node_eta branch, numbers_cons, numbers_cons, List.length_cons, List.range'_succ,
      List.cons.injEq] at given
    exact given.1
  have listed : copy.preorder first = numbers [twin] := by
    rw [← start]
    exact preorder_of_live numberedCopy memberCopy
  -- each node of the part with its twin, found under their numbers
  have found : ∀ id ∈ source.preorder branch.id, ∃ node, source.find? id = some node ∧
      copy.find? (source.copyOf branch.id first id) =
        some (map (renumber (source.copyOf branch.id first)) node) := by
    intro id inside
    rw [below] at inside
    obtain ⟨⟨label, children⟩, within, rfl⟩ := exists_of_mem_numbers inside
    refine ⟨_, find?_of_live numbered (live_of_branches member within), ?_⟩
    have twinned := List.mem_map_of_mem (f := map (renumber (source.copyOf branch.id first))) within
    rw [← preorderAll_mapAll, ← whole] at twinned
    exact find?_of_live numberedCopy (live_of_branches memberCopy twinned)
  refine ⟨by rw [listed, given, below], by rw [listed, below, order], ?_, ?_, ?_⟩
  all_goals
    intro id inside
    obtain ⟨⟨label, children⟩, here, there⟩ := found id inside
  · rw [get?, get?, here, there]
    rfl
  · rw [key?, key?, here, there]
    rfl
  · rw [Tree.children, Tree.children, childBranches, childBranches, here, there]
    exact map_id_mapAll (fun _ => rfl) children

theorem numbers_number (first : Nat) (shape : Shape N) :
    numbers [shape.number first] = List.range' first shape.size :=
  numbers_numberAll first [shape]

theorem copied_subtree (numbered : tree.Numbered) {branch : Branch N} (member : branch ∈ tree.live) :
    tree.subtree branch.id = .ok (ofShape branch.shape) ∧
      (ofShape branch.shape).rootId? = some 0 ∧
      (∀ number, (ofShape branch.shape).contains number = true ↔
        number < (tree.preorder branch.id).length) ∧
      Copied tree branch.id (ofShape branch.shape) 0 := by
  have numberedCopy := numbered_ofShape branch.shape
  have given : numbers (ofShape branch.shape).branches =
      List.range' 0 (numbers [branch]).length := by
    rw [← size_shape]
    exact numbers_number 0 branch.shape
  refine ⟨?_, ?_, fun number => ?_, ?_⟩
  · rw [subtree, find_of_find? (find?_of_live numbered member)]
    rfl
  · obtain ⟨label, children⟩ := branch
    rw [shape_node]
    rfl
  · rw [contains_iff numberedCopy, given, preorder_of_live numbered member, List.mem_range'_1]
    omega
  · exact copied_of_shape numbered numberedCopy member
      (live_of_root rfl) (shape_number 0 branch.shape).symm given

/-! ### Copies put into a tree -/

section Grafts

variable [NodeRules N]

theorem appended_insert (numbered : before.Numbered) {label : Keyed N} {parent new : Nat}
    (inserted : before.insert label.content parent label.key = .ok (new, after)) :
    ∃ holder ∈ before.live, holder.id = parent ∧ new = before.next ∧
      Appended before holder [.node label []] after := by
  obtain ⟨holder, member, rfl, _, taken, _⟩ := insert_ok numbered inserted
  obtain ⟨grown, again, regrown, next⟩ := insert_taken numbered member label.key taken
  rw [again] at inserted
  cases inserted
  exact ⟨holder, member, rfl, rfl, regrown, next⟩

mutual

theorem appended_graftBelow : ∀ (shape : Shape N) {before after : Tree N} {parent new : Nat},
    before.Numbered → graftBelow parent shape before = (after, .ok new) →
    ∃ holder ∈ before.live, holder.id = parent ∧ new = before.next ∧
      Appended before holder [shape] after
  | .node label children, before, after, parent, new, numbered, grafted => by
      unfold graftBelow at grafted
      split at grafted
      · cases congrArg Prod.snd grafted
      · rename_i number middle inserted
        obtain ⟨holder, member, rfl, rfl, first⟩ := appended_insert numbered inserted
        split at grafted
        · cases congrArg Prod.snd grafted
        · rename_i grown below
          cases grafted
          have second := appended_graftAll children (first.grew.numbered numbered member)
            (first.live_bud numbered member) below
          exact ⟨holder, member, rfl, rfl, first.nest numbered member second⟩
  termination_by structural shape => shape

theorem appended_graftAll : ∀ (shapes : List (Shape N)) {before after : Tree N} {holder : Branch N},
    before.Numbered → holder ∈ before.live → graftAll holder.id shapes before = (after, .ok ()) →
    Appended before holder shapes after
  | [], before, after, holder, numbered, member, grafted => by
      cases grafted
      exact .nil numbered member
  | shape :: rest, before, after, holder, numbered, member, grafted => by
      unfold graftAll at grafted
      split at grafted
      · cases congrArg Prod.snd grafted
      · rename_i middle new here
        obtain ⟨own, live, same, _, first⟩ := appended_graftBelow shape numbered here
        obtain rfl := eq_of_id numbered.distinct live member same
        have second := appended_graftAll rest (first.grew.numbered numbered member)
          (first.grew.live_new numbered member) grafted
        exact first.append numbered member second
  termination_by structural shapes => shapes

end

end Grafts

structure Hung (before : Tree N) (parent : Option Nat) (new : Nat) (after : Tree N) : Prop where
  root : after.rootId? = if parent = none then some new else before.rootId?
  above : after.parent? new = parent
  live : ∀ id, after.contains id = true ↔ before.contains id = true ∨ id ∈ after.preorder new
  fresh : ∀ id ∈ after.preorder new, before.contains id = false
  contents : ∀ id, before.contains id = true → after.get? id = before.get? id
  keys : ∀ id, before.contains id = true → after.key? id = before.key? id
  parents : ∀ id, before.contains id = true → after.parent? id = before.parent? id
  children : ∀ id, before.contains id = true → after.children id =
    if parent = some id then before.children id ++ [new] else before.children id

/-- What a node holds, its key and its parent are told by its way outwards. -/
theorem views_of_lineage {id : Nat}
    (same : lineage id after.branches = lineage id before.branches) :
    after.get? id = before.get? id ∧ after.key? id = before.key? id ∧
      after.parent? id = before.parent? id := by
  simp only [get?_eq_lineage, key?_eq_lineage, parent?_eq_lineage, same, and_self]

theorem hung_of_lines (numbered : before.Numbered) (numberedAfter : after.Numbered)
    {child : Branch N} (member : child ∈ after.live) {parent : Option Nat}
    (fresh : ∀ number ∈ numbers [child], number ∉ numbers before.branches)
    (lines : ∀ number, number ∉ numbers [child] →
      lineage number after.branches = lineage number before.branches)
    (root : after.rootId? = if parent = none then some child.id else before.rootId?)
    (above : after.parent? child.id = parent)
    (below : ∀ number ∈ numbers before.branches, after.children number =
      if parent = some number then before.children number ++ [child.id]
      else before.children number) :
    Hung before parent child.id after := by
  have listed := preorder_of_live numberedAfter member
  have old : ∀ {id}, before.contains id = true → id ∉ numbers [child] := fun present inside =>
    fresh _ inside ((contains_iff numbered).mp present)
  have same := fun {id} (present : before.contains id = true) =>
    views_of_lineage (lines id (old present))
  refine ⟨root, above, fun id => ?_, fun id inside => ?_, fun id present => (same present).1,
    fun id present => (same present).2.1, fun id present => (same present).2.2,
    fun id present => below id ((contains_iff numbered).mp present)⟩
  · rw [contains_iff numbered, contains_iff numberedAfter, listed]
    by_cases inside : id ∈ numbers [child]
    · have present := (sublist_numbers after.branches member).subset inside
      simp [inside, present]
    · rw [← Decidable.not_iff_not, not_or, ← lineage_eq_nil_iff, ← lineage_eq_nil_iff, lines id inside]
      simp [inside]
  · rw [listed] at inside
    rw [Bool.eq_false_iff, ne_eq, contains_iff numbered]
    exact fresh id inside

theorem hung_appended (numbered : before.Numbered) {holder : Branch N} (member : holder ∈ before.live)
    {shape : Shape N} (appended : Appended before holder [shape] after) :
    shape.number before.next ∈ after.live ∧
      Hung before (some holder.id) (shape.number before.next).id after := by
  have grew : Regrown before holder (extended holder (shape.number before.next)) after :=
    appended.grew
  have numberedAfter := grew.numbered numbered member
  have fresh : ∀ number ∈ numbers [shape.number before.next], number ∉ numbers before.branches := by
    intro number inside present
    have bound := numbered.bounded number present
    rw [numbers_number, List.mem_range'_1] at inside
    omega
  have inside : shape.number before.next ∈
      Rose.children (extended holder (shape.number before.next)) := by simp [extended]
  have live := grew.live_new numbered member
  have childLive := mem_preorderAll_trans _ live (mem_preorderAll_of_mem inside)
  have above := parent?_of_child numberedAfter live inside
  refine ⟨childLive, hung_of_lines numbered numberedAfter childLive fresh (fun number absent => ?_)
    ?_ above fun number present => ?_⟩
  · rw [grew.branches, lineage_hung numbered.distinct member fresh, if_neg absent]
  · rw [if_neg (by simp)]
    exact grew.rootId? (id_extended holder _)
  · split
    · rename_i here
      cases here
      have grown := children_of_live numberedAfter live
      rw [id_extended] at grown
      rw [grown, children_of_live numbered member, extended, children_node, List.map_append]
      rfl
    · rename_i elsewhere
      refine grew.children_elsewhere numbered member (id_extended holder _) (fun branch below => ?_)
        present fun same => elsewhere (congrArg some same.symm)
      rw [extended, children_node, preorderAll_append]
      exact List.mem_append_left _ below

theorem hung_root (numbered : before.Numbered) (numberedAfter : after.Numbered)
    {root : Branch N} (rooted : after.root = some root)
    (branches : after.branches = root :: before.branches) :
    root ∈ after.live ∧ Hung before none root.id after := by
  have distinct := numberedAfter.distinct
  rw [branches, numbers_cons_eq, List.nodup_append] at distinct
  have fresh : ∀ number ∈ numbers [root], number ∉ numbers before.branches :=
    fun number inside present => distinct.2.2 number inside number present rfl
  have top : root ∈ after.branches := by simp [branches]
  have live := mem_preorderAll_of_mem top
  refine ⟨live, hung_of_lines numbered numberedAfter live fresh (fun number absent => ?_) ?_
    (parent?_of_top numberedAfter top) fun number present => ?_⟩
  · obtain ⟨label, children⟩ := root
    rw [numbers_cons, numbers_nil, List.append_nil, List.mem_cons, not_or] at absent
    rw [branches, lineage_beside (Ne.symm absent.1) absent.2]
  · rw [if_pos rfl, rootId?, rooted]
    rfl
  · obtain ⟨branch, member, rfl⟩ := exists_of_mem_numbers present
    have stays : branch ∈ after.live := by
      rw [Tree.live, branches, ← List.singleton_append, preorderAll_append]
      exact List.mem_append_right _ member
    rw [if_neg (by simp), children_of_live numbered member, children_of_live numberedAfter stays]

theorem insertRoot_ok {content : N} {key : Option String} {new : Nat}
    (inserted : before.insertRoot content key = .ok (new, after)) :
    new = before.next ∧ after.root = some (bud key content before.next) ∧
      after.branches = bud key content before.next :: before.branches ∧
      after.next = before.next + 1 := by
  unfold insertRoot at inserted
  split at inserted
  · cases inserted
  · rename_i bare
    cases Result.pure_ok.mp inserted
    exact ⟨rfl, rfl, by simp [branches, bare, bud], rfl⟩

theorem root_appended (numbered : before.Numbered) {middle : Tree N} {label : Keyed N} {new : Nat}
    (inserted : before.insertRoot label.content label.key = .ok (new, middle))
    {children : List (Shape N)}
    (appended : Appended middle (bud label.key label.content before.next) children after) :
    after.root = some (.number before.next (.node label children)) ∧
      after.branches = .number before.next (.node label children) :: before.branches := by
  obtain ⟨_, rooted, branches, next⟩ := insertRoot_ok inserted
  have distinct := (renewed_insertRoot numbered inserted).numbered.distinct
  have whole : Rose.node (Rose.label (bud label.key label.content before.next))
      (Rose.children (bud label.key label.content before.next) ++ numberAll middle.next children) =
      .number before.next (.node label children) := by
    rw [next]
    rfl
  have grew := appended.grew
  rw [whole] at grew
  constructor
  · have root := grew.parts.1
    rw [rooted, Option.toList_some, bud, id_node, updateAt_cons, if_pos rfl, updateAt_nil] at root
    cases found : after.root with
    | none => simp [found] at root
    | some top =>
        rw [found, Option.toList_some, List.cons.injEq] at root
        rw [root.1]
  · rw [branches] at distinct
    rw [grew.branches, branches]
    exact updateAt_here distinct _

theorem hung_graft [NodeRules N] (numbered : before.Numbered) {shape : Shape N} {parent : Option Nat}
    {result : Option Nat} (grafted : before.graft (some shape) parent = (after, .ok result)) :
    result = some before.next ∧ after.Numbered ∧ shape.number before.next ∈ after.live ∧
      Hung before parent before.next after := by
  have renewed := renewed_graft numbered (some shape) parent
  rw [grafted] at renewed
  have numberedAfter := renewed.numbered
  have start : (shape.number before.next).id = before.next := by
    obtain ⟨label, children⟩ := shape
    rfl
  cases parent with
  | some parent =>
      simp only [graft] at grafted
      obtain ⟨rfl, done⟩ := Prod.mk.inj grafted
      obtain ⟨new, below, rfl⟩ := Result.map_ok.mp done
      have placed : graftBelow parent shape before =
          ((graftBelow parent shape before).1, .ok new) := Prod.ext rfl below
      obtain ⟨holder, member, rfl, rfl, appended⟩ := appended_graftBelow shape numbered placed
      obtain ⟨live, hung⟩ := hung_appended numbered member appended
      rw [start] at hung
      exact ⟨rfl, numberedAfter, live, hung⟩
  | none =>
      obtain ⟨label, children⟩ := shape
      simp only [graft] at grafted
      split at grafted
      · cases congrArg Prod.snd grafted
      · rename_i new middle inserted
        obtain ⟨rfl, done⟩ := Prod.mk.inj grafted
        obtain ⟨_, below, rfl⟩ := Result.map_ok.mp done
        obtain ⟨rfl, _, parts, _⟩ := insertRoot_ok inserted
        have live : bud label.key label.content before.next ∈ middle.live :=
          mem_preorderAll_of_mem (by simp [parts])
        have appended := appended_graftAll children (renewed_insertRoot numbered inserted).numbered
          live (Prod.ext rfl below)
        obtain ⟨rooted, branches⟩ := root_appended numbered inserted appended
        obtain ⟨top, hung⟩ := hung_root numbered numberedAfter rooted branches
        rw [start] at hung
        exact ⟨rfl, numberedAfter, top, hung⟩

/-! ### Parts taken out -/

structure Lopped (before : Tree N) (top : Nat) (after : Tree N) : Prop where
  root : after.rootId? = if before.rootId? = some top then none else before.rootId?
  live : ∀ id, after.contains id = true ↔ before.contains id = true ∧ id ∉ before.preorder top
  contents : ∀ id, after.contains id = true → after.get? id = before.get? id
  keys : ∀ id, after.contains id = true → after.key? id = before.key? id
  parents : ∀ id, after.contains id = true → after.parent? id = before.parent? id
  children : ∀ id, after.contains id = true → after.children id =
    if before.parent? top = some id then (before.children id).erase top else before.children id

theorem children_pruned (numbered : before.Numbered) (numberedAfter : after.Numbered)
    {branch node : Branch N} (member : branch ∈ before.live) (live : node ∈ before.live)
    (outside : node.id ∉ numbers [branch])
    (stays : ∀ inner ∈ preorderAll (pruneAt branch.id before.branches), inner ∈ after.live) :
    after.children node.id = (before.children node.id).filter (· ≠ branch.id) := by
  have free : ∀ head ∈ preorderAll before.branches, head.id ∈ [branch.id] →
      node.id ∉ numbers [head] := by
    intro head headLive same
    rwa [eq_of_id numbered.distinct headLive member (List.mem_singleton.mp same)]
  have kept := stays (trimmed [branch.id] node) (by
    rw [pruneAt_eq_cutOff]
    exact mem_cutOff before.branches live free)
  have left := children_of_live numberedAfter kept
  rwa [id_trimmed, children_trimmed, ← pruneAt_eq_cutOff, map_id_pruneAt,
    ← children_of_live numbered live] at left

theorem lopped_discard (numbered : before.Numbered) {branch : Branch N} (member : branch ∈ before.live)
    (done : before.detach branch.id = .ok cut) : Lopped before branch.id (cut.discard branch.id) := by
  have parts := discard_detach done
  have distinct := distinct_pruneAt numbered.distinct member
  have listed := preorder_of_live numbered member
  have lines : ∀ {number}, number ∉ numbers [branch] →
      lineage number (cut.discard branch.id).branches = lineage number before.branches :=
    fun outside => parts ▸ lineage_pruneAt numbered.distinct member outside
  have kept : ∀ {number}, number ∈ numbers (cut.discard branch.id).branches ↔
      number ∈ numbers before.branches ∧ number ∉ numbers [branch] := by
    intro number
    constructor
    · intro present
      rw [parts] at present
      exact mem_pruneAt numbered.distinct member present
    · rintro ⟨present, outside⟩
      refine Decidable.byContradiction fun absent => ?_
      rw [← lineage_eq_nil_iff, lines outside, lineage_eq_nil_iff] at absent
      exact absent present
  have numberedAfter : (cut.discard branch.id).Numbered := by
    obtain ⟨_, _, _, _, _, next, _⟩ := detach_ok done
    exact ⟨parts ▸ distinct, fun number present =>
      next ▸ numbered.bounded number (kept.mp present).1⟩
  have outside : ∀ {id}, (cut.discard branch.id).contains id = true → id ∉ numbers [branch] :=
    fun present => (kept.mp ((contains_iff numberedAfter).mp present)).2
  have same := fun {id} (present : (cut.discard branch.id).contains id = true) =>
    views_of_lineage (lines (outside present))
  refine ⟨?_, fun id => ?_, fun id present => (same present).1, fun id present => (same present).2.1,
    fun id present => (same present).2.2, fun id present => ?_⟩
  · have stays : (cut.discard branch.id).rootId? = cut.rootId? := rfl
    rw [stays]
    split
    · rename_i rooted
      obtain ⟨_, _, _, _, _, _, bare⟩ := detach_ok done
      rw [rootId?, bare rooted]
      rfl
    · rename_i other
      exact ((rootId?_detach done).2 other).1
  · rw [contains_iff numberedAfter, contains_iff numbered, listed]
    exact kept
  · have there := kept.mp ((contains_iff numberedAfter).mp present)
    obtain ⟨node, live, rfl⟩ := exists_of_mem_numbers there.1
    have left := children_pruned numbered numberedAfter member live there.2 fun inner inside => by
      rwa [Tree.live, parts]
    obtain ⟨once, linked⟩ := numbered.linked.children ((contains_iff numbered).mpr there.1)
    rw [left]
    split
    · rw [once.erase_eq_filter]
      exact List.filter_congr fun id _ => Bool.eq_iff_iff.mpr (by simp)
    · rename_i elsewhere
      refine List.filter_eq_self.mpr fun child listed => decide_eq_true fun same => elsewhere ?_
      rw [← same]
      exact (linked child listed).2

/-- Copies are exact and leave everything else as it was. Of each part of a tree there is a copy
that is numbered from zero on in pre-order. A tree that is put into another one comes whole, as the
last child of the parent or as the root, under new numbers. A part that is removed is returned as
such a copy, and only its nodes are gone. -/
theorem parts_copied [NodeRules N] (start otherStart : Start N)
    (operations otherOperations : List (Operation N)) {tree other : Tree N}
    (reached : start.tree.run operations = tree)
    (otherReached : otherStart.tree.run otherOperations = other) :
    (∀ id, tree.contains id = true → ∃ copy, tree.subtree id = .ok copy ∧ copy.rootId? = some 0 ∧
      (∀ number, copy.contains number = true ↔ number < (tree.preorder id).length) ∧
      Copied tree id copy 0) ∧
    (∀ parent after result, tree.graft other.shape? parent = (after, .ok result) →
      match other.rootId? with
      | none => result = none ∧ after = tree
      | some root => ∃ new, result = some new ∧ Copied other root after new ∧
          Hung tree parent new after) ∧
    ∀ id, tree.contains id = true → ∃ removed after, tree.remove id = .ok (removed, after) ∧
      tree.subtree id = .ok removed ∧ Lopped tree id after := by
  have numbered : tree.Numbered := reached ▸ (renewed_run start.numbered operations).numbered
  have numberedOther : other.Numbered :=
    otherReached ▸ (renewed_run otherStart.numbered otherOperations).numbered
  refine ⟨fun id present => ?_, fun parent after result grafted => ?_, fun id present => ?_⟩
  · obtain ⟨branch, member, rfl⟩ := exists_of_contains present
    exact ⟨_, copied_subtree numbered member⟩
  · cases rooted : other.root with
    | none =>
        simp only [rootId?, rooted, Option.map_none]
        rw [shape?, rooted, Option.map_none, graft] at grafted
        cases grafted
        exact ⟨rfl, rfl⟩
    | some root =>
        simp only [rootId?, rooted, Option.map_some]
        rw [shape?, rooted, Option.map_some] at grafted
        obtain ⟨rfl, numberedAfter, live, hung⟩ := hung_graft numbered grafted
        have member := live_of_root rooted
        refine ⟨tree.next, rfl, copied_of_shape numberedOther numberedAfter member live
          (shape_number tree.next root.shape).symm ?_, hung⟩
        rw [numbers_number, size_shape]
  · obtain ⟨branch, member, rfl⟩ := exists_of_contains present
    obtain ⟨copied, _⟩ := copied_subtree numbered member
    have found := find_of_find? (find?_of_live numbered member)
    cases done : tree.detach branch.id with
    | error error => simp [detach, found] at done
    | ok cut =>
        refine ⟨_, cut.discard branch.id, ?_, copied, lopped_discard numbered member done⟩
        rw [remove, copied, done]
        rfl

def nestedPair : Start MappingNode :=
  .copy (.node ⟨none, .root []⟩
    [.node ⟨some "cast", .field ⟨"cast", "cast", .nested, [], []⟩⟩
      [.node ⟨some "name", .field ⟨"name", "cast.name", .keyword, [], []⟩⟩ []],
    .node ⟨some "crew", .field ⟨"crew", "crew", .nested, [], []⟩⟩
      [.node ⟨some "name", .field ⟨"name", "crew.name", .keyword, [], []⟩⟩ []]])

def awards : Start MappingNode :=
  .copy (.node ⟨some "awards", .field ⟨"awards", "awards", .nested, [], []⟩⟩
    [.node ⟨some "year", .field ⟨"year", "year", .long, [], []⟩⟩ []])

/-- A copy comes under new numbers also where a removed part has left a gap. -/
theorem parts_copied_awards :
    let tree := nestedPair.tree.run [.remove 1]
    (∃ copy, tree.subtree 3 = .ok copy ∧ Copied tree 3 copy 0) ∧
      (∃ after, tree.graft awards.tree.shape? (some 3) = (after, .ok (some 5)) ∧
        Copied awards.tree 0 after 5 ∧ Hung tree (some 3) 5 after) ∧
      ∃ removed after, tree.remove 3 = .ok (removed, after) ∧ Lopped tree 3 after := by
  intro tree
  obtain ⟨copying, grafting, removing⟩ :=
    @parts_copied MappingNode _ nestedPair awards [.remove 1] [] tree awards.tree rfl rfl
  obtain ⟨copy, taken, _, _, copied⟩ := copying 3 rfl
  obtain ⟨removed, after, gone, _, lopped⟩ := removing 3 rfl
  have placed : tree.graft awards.tree.shape? (some 3) =
    ((tree.graft awards.tree.shape? (some 3)).1, .ok (some 5)) := rfl
  obtain ⟨new, same, whole, hung⟩ := grafting (some 3) _ _ placed
  cases same
  exact ⟨⟨copy, taken, copied⟩, ⟨_, placed, whole, hung⟩, removed, after, gone, lopped⟩

end Tree

end ScopedClauses
