import ScopedClauses.Mapping.Basic
import ScopedClauses.Proofs.Tree.Adding
import ScopedClauses.Proofs.Tree.Running

/-!
Moves that are refused. A branch that no node takes goes back below its parent, behind its
siblings. All else stays as it was: the root, the nodes, their parents, and the children of every
other node in their order.
-/

namespace ScopedClauses

namespace Rose

variable {N : Type}

theorem preorderAll_perm {first second : List (Rose α)} (same : first.Perm second) :
    (preorderAll first).Perm (preorderAll second) := by
  induction same with
  | nil => exact .refl _
  | cons rose _ ih => exact ih.append_left (preorder rose)
  | swap first second rest =>
      simp only [preorderAll, ← List.append_assoc]
      exact List.perm_append_comm.append_right _
  | trans _ _ ihFirst ihSecond => exact ihFirst.trans ihSecond

theorem mem_numbers_perm {first second : List (Branch N)} (same : first.Perm second) (number : Nat) :
    number ∈ numbers first ↔ number ∈ numbers second :=
  ((preorderAll_perm same).map Rose.id).mem_iff

/-- The ways outwards do not depend on the order of branches side by side. -/
theorem lineage_perm {first second : List (Branch N)} (same : first.Perm second)
    (distinct : (numbers first).Nodup) (number : Nat) :
    lineage number first = lineage number second := by
  induction same with
  | nil => rfl
  | cons branch _ ih =>
      obtain ⟨label, children⟩ := branch
      rw [lineage_cons, lineage_cons, ih (distinct_cons distinct).2.2.2.1]
  | swap inner outer rest =>
      obtain ⟨label, children⟩ := outer
      obtain ⟨own, below⟩ := inner
      obtain ⟨_, notBeside, _, _, apart⟩ := distinct_cons distinct
      simp only [numbers_cons, List.mem_cons, List.mem_append, not_or] at notBeside apart
      simp only [lineage_cons]
      grind
  | trans firstPerm _ ihFirst ihSecond =>
      have middle := ((preorderAll_perm firstPerm).map Rose.id).nodup_iff.mp distinct
      exact (ihFirst distinct).trans (ihSecond middle)

theorem lineage_reordered {forest : List (Branch N)} (distinct : (numbers forest).Nodup)
    {label : Entry N} {children reordered : List (Branch N)} (same : reordered.Perm children)
    (member : .node label children ∈ preorderAll forest) (number : Nat) :
    lineage number (updateAt label.id (fun _ => .node label reordered) forest) =
      lineage number forest := by
  have numbersSame : ∀ inside, inside ∈ numbers [.node label reordered] ↔
      inside ∈ numbers [.node label children] := by
    intro inside
    simp only [numbers_cons, numbers_nil, List.append_nil, List.mem_cons, mem_numbers_perm same]
  by_cases inside : number ∈ numbers [.node label children]
  · have whole := distinct.sublist (sublist_numbers forest member)
    have below := lineage_perm same.symm (distinct_cons whole).2.2.1 number
    have alone : lineage number [.node label reordered] = lineage number [.node label children] := by
      simp only [lineage_cons, below, mem_numbers_perm same]
    have known : ∀ other ∈ numbers [.node label reordered], other ∈ numbers forest →
        other ∈ numbers [.node label children] := fun other present _ => (numbersSame other).mp present
    have replaced := lineage_replaced distinct member known ((numbersSame number).mpr inside)
    rw [id_node] at replaced
    rw [replaced, alone, lineage_inside distinct member inside]
    rfl
  · have named : (Rose.node label reordered).label = (Rose.node label children).label := rfl
    exact lineage_updateAt_of_not_mem distinct member named inside
      fun present => inside ((numbersSame number).mp present)

theorem not_mem_numbers_pruneAt (number : Nat) (forest : List (Branch N)) :
    number ∉ numbers (pruneAt number forest) := by
  induction forest using forestInduction with
  | nil => simp
  | cons label children rest ihBelow ihBeside =>
      rw [pruneAt_cons]
      split
      · exact ihBeside
      · rename_i other
        simp [Ne.symm other, ihBelow, ihBeside]

end Rose

namespace Tree

open Rose

variable {N : Type} {before cut after : Tree N}

/-! ### Putting a branch back -/

theorem branches_discard {tree : Tree N} {number : Nat} (notRoot : tree.rootId? ≠ some number) :
    (tree.discard number).branches = tree.branches.filter (·.id ≠ number) := by
  rw [branches, branches, List.filter_append, discard]
  cases rooted : tree.root with
  | none => rfl
  | some root =>
      have other : root.id ≠ number := fun same => notRoot (by rw [rootId?, rooted, ← same]; rfl)
      simp [other]

theorem rootId?_detach {number : Nat} (done : before.detach number = .ok cut) :
    cut.rootId? ≠ some number ∧
      (before.rootId? ≠ some number → cut.rootId? = before.rootId? ∧
        cut.root.isSome = before.root.isSome) := by
  simp only [detach, Result.bind_ok, Result.pure_ok] at done
  obtain ⟨branch, found, rfl⟩ := done
  simp only [rootId?]
  cases rooted : before.root with
  | none => simp
  | some root =>
      obtain ⟨label, children⟩ := root
      by_cases top : label.id = number <;> simp [prune?, top]

theorem discard_detach {number : Nat} (done : before.detach number = .ok cut) :
    (cut.discard number).branches = pruneAt number before.branches := by
  rw [branches_discard (rootId?_detach done).1]
  obtain ⟨branch, _, rfl, _, parts, _⟩ := detach_ok done
  have gone := not_mem_numbers_pruneAt branch.id before.branches
  have stays : (pruneAt branch.id before.branches).filter (·.id ≠ branch.id) =
      pruneAt branch.id before.branches :=
    List.filter_eq_self.mpr fun other listed => decide_eq_true fun same => by
      have known := id_mem_numbers (mem_preorderAll_of_mem listed)
      exact gone (same ▸ known)
  rw [parts, List.filter_append, stays]
  simp

theorem regrown_restore (numbered : before.Numbered) {label : Entry N}
    {front back : List (Branch N)} {child : Branch N}
    (member : .node label (front ++ child :: back) ∈ before.live)
    (done : before.detach child.id = .ok cut) (wasRoot : Bool) :
    Regrown before (.node label (front ++ child :: back)) (.node label (front ++ back ++ [child]))
      (cut.restore child (some label.id) wasRoot) := by
  have below : child ∈ Rose.children (.node label (front ++ child :: back)) := by simp
  have pruned := pruneAt_child before.branches numbered.distinct member
  have order : (front ++ back ++ [child]).Perm (front ++ child :: back) := by
    rw [List.append_assoc]
    exact (List.perm_append_singleton _ _).append_left front
  have same : (numbers [.node label (front ++ back ++ [child])]).Perm
      (numbers [.node label (front ++ child :: back)]) := by
    simp only [numbers_cons, numbers_nil, List.append_nil]
    exact ((preorderAll_perm order).map Rose.id).cons _
  have notRoot : before.rootId? ≠ some child.id := by
    intro rooted
    rw [rootId?, Option.map_eq_some_iff] at rooted
    obtain ⟨root, rooted, sameId⟩ := rooted
    have top := parent?_of_top numbered (show root ∈ before.branches by simp [branches, rooted])
    rw [sameId, parent?_of_child numbered member below] at top
    cases top
  refine ⟨?_, ?_, ?_, ?_, fun number inside => Or.inl (same.subset inside)⟩
  · have kept : Rose.node label (front ++ back) ∈ preorderAll
        (updateAt label.id (fun _ => .node label (front ++ back)) before.branches) :=
      mem_updateAt before.branches numbered.distinct member (mem_preorderAll_of_mem (by simp))
    have distinct := distinct_pruneAt numbered.distinct
      (mem_preorderAll_trans _ member (mem_preorderAll_of_mem below))
    rw [pruned] at distinct
    have put := updateAt_eq_const _ distinct (fun branch => extended branch child) kept
    rw [restore, append, branches_update, discard_detach done, pruned]
    exact put.trans (updateAt_twice rfl _)
  · rw [← ((rootId?_detach done).2 notRoot).2]
    simp [restore, append, update, discard]
  · obtain ⟨_, _, _, _, _, next, _⟩ := detach_ok done
    exact Nat.le_of_eq next.symm
  · exact same.nodup_iff.mpr (numbered.distinct.sublist (sublist_numbers _ member))

theorem children_perm {first second : Tree N} (numbered : first.Numbered)
    (numberedSecond : second.Numbered) (same : first.branches.Perm second.branches) (number : Nat) :
    second.children number = first.children number := by
  by_cases present : number ∈ numbers first.branches
  · obtain ⟨branch, member, rfl⟩ := exists_of_mem_numbers present
    have moved : branch ∈ second.live := (preorderAll_perm same).subset member
    rw [children_of_live numbered member, children_of_live numberedSecond moved]
  · rw [children_of_dead present,
      children_of_dead fun again => present ((mem_numbers_perm same number).mpr again)]

theorem parent?_of_dead {number : Nat} {error : Error} (dead : before.detach number = .error error) :
    before.parent? number = none := by
  have missing : before.find? number = none := by
    cases found : before.find? number with
    | none => rfl
    | some branch =>
        rw [detach, find_of_find? found] at dead
        cases dead
  rw [find?, List.head?_eq_none_iff] at missing
  rw [parent?, missing]
  rfl

def putLast (child : Nat) (children : List Nat) : List Nat := children.erase child ++ [child]

structure Reordered (before : Tree N) (order : Nat → List Nat) (after : Tree N) : Prop where
  root : after.rootId? = before.rootId?
  lines : ∀ number, lineage number after.branches = lineage number before.branches
  children : ∀ number, after.children number = order number

theorem reordered_self (before : Tree N) : Reordered before before.children before :=
  ⟨rfl, fun _ => rfl, fun _ => rfl⟩

theorem reordered_child (numbered : before.Numbered) {parent child : Branch N}
    (member : parent ∈ before.live) (below : child ∈ parent.children)
    (done : before.detach child.id = .ok cut) (wasRoot : Bool) :
    Reordered before
      (fun number => if parent.id = number then putLast child.id (before.children number)
        else before.children number)
      (cut.restore child (some parent.id) wasRoot) := by
  obtain ⟨label, children⟩ := parent
  obtain ⟨front, back, rfl⟩ := List.append_of_mem below
  rw [id_node]
  have regrown := regrown_restore numbered member done wasRoot
  have order : (front ++ back ++ [child]).Perm (front ++ child :: back) := by
    rw [List.append_assoc]
    exact (List.perm_append_singleton _ _).append_left front
  refine ⟨regrown.rootId? rfl, fun number => ?_, fun number => ?_⟩
  · rw [regrown.branches]
    exact lineage_reordered numbered.distinct order member number
  · by_cases here : label.id = number
    · subst here
      have whole := (numbered.linked.children (contains_of_live numbered member)).1
      have old := children_of_live numbered member
      have new := children_of_live (regrown.numbered numbered member)
        (regrown.live_new numbered member)
      simp only [id_node, children_node, List.map_append, List.map_cons] at old new whole
      rw [old, List.nodup_append] at whole
      have fresh : child.id ∉ front.map Rose.id := fun early =>
        whole.2.2 _ early _ List.mem_cons_self rfl
      rw [if_pos rfl, old, putLast, List.erase_append_right _ fresh, List.erase_cons_head]
      exact new
    · rw [if_neg here]
      by_cases present : number ∈ numbers before.branches
      · refine regrown.children_elsewhere numbered member rfl (fun branch inside => ?_) present
          (Ne.symm here)
        exact (preorderAll_perm order).symm.subset inside
      · have dead : number ∉ numbers
            (cut.restore child (some label.id) wasRoot).branches := by
          rw [← lineage_eq_nil_iff, regrown.branches, id_node,
            lineage_reordered numbered.distinct order member, lineage_eq_nil_iff]
          exact present
        rw [children_of_dead present, children_of_dead dead]

theorem reordered_top (numbered : before.Numbered) {branch : Branch N}
    (top : branch ∈ before.branches) (done : before.detach branch.id = .ok cut) :
    Reordered before before.children
      (cut.restore branch none (before.rootId? = some branch.id)) := by
  have member := mem_preorderAll_of_mem top
  obtain ⟨own, ownLive, same, _, parts, next, unrooted⟩ := detach_ok done
  obtain rfl := eq_of_id numbered.distinct ownLive member same
  by_cases rooted : before.rootId? = some own.id
  · have left := discard_detach done
    have isRoot : before.root = some own := by
      rw [rootId?, Option.map_eq_some_iff] at rooted
      obtain ⟨root, rooted, sameId⟩ := rooted
      have rootLive : root ∈ before.live := mem_preorderAll_of_mem (by simp [branches, rooted])
      rw [rooted, eq_of_id numbered.distinct rootLive member sameId]
    have whole : before.branches = own :: before.detached := by simp [branches, isRoot]
    have rest : (cut.discard own.id).detached = before.detached := by
      have distinct := numbered.distinct
      rw [whole] at left distinct
      obtain ⟨label, children⟩ := own
      rw [id_node, pruneAt_here distinct, branches] at left
      have bare : (cut.discard label.id).root = none := unrooted rooted
      rwa [bare, Option.toList_none, List.nil_append] at left
    have restored : cut.restore own none (before.rootId? = some own.id) = before := by
      refine eq_of_branches ?_ (by simp [restore, rooted, isRoot]) (by simp [restore, rooted, discard, next])
      rw [whole]
      simp [restore, rooted, branches, rest]
    rw [restored]
    exact reordered_self before
  · obtain ⟨front, back, split⟩ := List.append_of_mem top
    have distinct := numbered.distinct
    rw [split, numbers_append, List.nodup_append] at distinct
    have notBefore : own.id ∉ numbers front := fun early =>
      distinct.2.2 _ early own.id (id_mem_numbers (mem_preorderAll_of_mem (by simp))) rfl
    have order : before.branches.Perm cut.branches := by
      obtain ⟨label, children⟩ := own
      rw [id_node] at notBefore parts
      rw [parts, split, pruneAt_append, pruneAt_of_not_mem front notBefore,
        pruneAt_here distinct.2.1]
      exact List.perm_middle.trans (List.perm_append_singleton _ _).symm
    have kept : cut.restore own none (before.rootId? = some own.id) = cut := by
      simp [restore, rooted]
    rw [kept]
    exact ⟨((rootId?_detach done).2 rooted).1,
      fun number => (lineage_perm order numbered.distinct number).symm,
      children_perm numbered (renewed_detach numbered done).numbered order⟩

/-- A refused move cuts the branch off only where the target lies outside it. -/
theorem reordered_move [NodeRules N] (numbered : before.Numbered) {id target : Nat} {error : Error}
    (refused : before.move id target = (after, .error error)) :
    Reordered before
      (fun number => if id ∉ before.ancestors target true ∧ before.parent? id = some number
        then putLast id (before.children number) else before.children number) after := by
  unfold move at refused
  split at refused
  · rename_i inside
    cases refused
    have above : id ∈ before.ancestors target true := by simpa using inside
    simpa [above] using reordered_self before
  · rename_i outside
    have apart : id ∉ before.ancestors target true := by simpa using outside
    simp only [apart, not_false_eq_true, true_and]
    cases done : before.detach id with
    | error failure =>
        have unchanged : after = before := by
          rw [done] at refused
          split at refused <;> simp_all
        simpa [unchanged, parent?_of_dead done] using reordered_self before
    | ok cut =>
        obtain ⟨branch, member, rfl, _⟩ := detach_ok done
        rw [find_of_find? (find?_of_live numbered member), done] at refused
        simp only at refused
        split at refused
        · cases congrArg (·.2) refused
        · cases refused
          rcases top_or_child before.branches member with top | ⟨parent, above, below⟩
          · rw [parent?_of_top numbered top]
            simpa using reordered_top numbered top done
          · rw [parent?_of_child numbered above below]
            simpa using reordered_child numbered above below done _

/-- A move that is refused leaves the root, the nodes and their parents as they were, and the
children of each node in their order, but for the branch that was cut off to be moved: it is the
last child of its parent now. -/
theorem move_restores [NodeRules N] (start : Start N) (operations : List (Operation N))
    {before after : Tree N} (reached : start.tree.run operations = before) {id target : Nat}
    {error : Error} (refused : before.move id target = (after, .error error)) :
    after.rootId? = before.rootId? ∧ ∀ node,
      after.contains node = before.contains node ∧ after.get? node = before.get? node ∧
      after.key? node = before.key? node ∧ after.parent? node = before.parent? node ∧
      after.children node =
        if id ∉ before.ancestors target true ∧ before.parent? id = some node
        then (before.children node).erase id ++ [id] else before.children node := by
  have numbered : before.Numbered := by
    rw [← reached]
    exact (renewed_run start.numbered operations).numbered
  have same := reordered_move numbered refused
  refine ⟨same.root, fun node => ⟨?_, ?_, ?_, ?_, same.children node⟩⟩
  · rw [contains_eq_lineage, contains_eq_lineage, same.lines]
  · rw [get?_eq_lineage, get?_eq_lineage, same.lines]
  · rw [key?_eq_lineage, key?_eq_lineage, same.lines]
  · rw [parent?_eq_lineage, parent?_eq_lineage, same.lines]

def fieldPair : Start MappingNode :=
  .copy (.node ⟨none, .root []⟩
    [.node ⟨some "title", .field ⟨"title", "title", .keyword, [], []⟩⟩ [],
      .node ⟨some "year", .field ⟨"year", "year", .long, [], []⟩⟩ []])

theorem move_restores_fieldPair : ∃ after error,
    (fieldPair.tree.run []).move 1 2 = (after, .error error) ∧
      after.children 0 = ((fieldPair.tree.run []).children 0).erase 1 ++ [1] ∧
      ∀ node, after.parent? node = (fieldPair.tree.run []).parent? node := by
  have refused : (fieldPair.tree.run []).move 1 2 = (((fieldPair.tree.run []).move 1 2).1,
    .error (.invalidParent (.labelled "year  long") (.labelled "title  keyword"))) := rfl
  have kept := (move_restores fieldPair [] rfl refused).2
  exact ⟨_, _, refused, (kept 0).2.2.2.2, fun node => (kept node).2.2.2.1⟩

/-- A refused move may leave siblings in another order. -/
theorem move_reorders :
    ((fieldPair.tree.run []).move 1 2).2 =
        .error (.invalidParent (.labelled "year  long") (.labelled "title  keyword")) ∧
      (fieldPair.tree.run []).children 0 = [1, 2] ∧
      ((fieldPair.tree.run []).move 1 2).1.children 0 = [2, 1] :=
  ⟨rfl, rfl, rfl⟩

end Tree

end ScopedClauses
