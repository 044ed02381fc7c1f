import ScopedClauses.Proofs.Tree.Cutting
import ScopedClauses.Proofs.Tree.Links

/-!
Runs of operations on a tree. Whatever an operation leaves behind is numbered, also where it
fails, and a number that is gone does not come back.
-/

namespace ScopedClauses

namespace Tree

open Rose

variable {N : Type}

/-- What an operation leaves of the numbers: they stay distinct, and new ones are new to all that
came before. -/
structure Renewed (before after : Tree N) : Prop where
  numbered : after.Numbered
  later : before.next ≤ after.next
  fresh : ∀ number ∈ numbers after.branches,
    number ∈ numbers before.branches ∨ before.next ≤ number

namespace Renewed

variable {before middle after : Tree N}

theorem refl (numbered : before.Numbered) : Renewed before before :=
  ⟨numbered, Nat.le_refl _, fun _ => Or.inl⟩

theorem trans (first : Renewed before middle) (second : Renewed middle after) :
    Renewed before after := by
  have later := first.later
  refine ⟨second.numbered, Nat.le_trans later second.later, fun number present => ?_⟩
  rcases second.fresh number present with kept | new
  · exact first.fresh number kept
  · exact Or.inr (Nat.le_trans later new)

theorem of_part (numbered : before.Numbered) (rest : List Nat)
    (trade : (numbers after.branches ++ rest).Perm (numbers before.branches))
    (next : after.next = before.next) : Renewed before after := by
  have old : ∀ number ∈ numbers after.branches, number ∈ numbers before.branches :=
    fun number present => trade.subset (List.mem_append_left _ present)
  refine ⟨⟨?_, fun number present => ?_⟩, Nat.le_of_eq next.symm,
    fun number present => Or.inl (old number present)⟩
  · exact (List.nodup_append.mp (trade.nodup_iff.mpr numbered.distinct)).1
  · rw [next]
    exact numbered.bounded number (old number present)

theorem of_perm (numbered : before.Numbered)
    (same : (numbers after.branches).Perm (numbers before.branches))
    (next : after.next = before.next) : Renewed before after :=
  of_part numbered [] (by rwa [List.append_nil]) next

theorem of_regrown {old new : Branch N} (regrown : Regrown before old new after)
    (numbered : before.Numbered) (member : old ∈ before.live) : Renewed before after := by
  refine ⟨regrown.numbered numbered member, regrown.later, fun number present => ?_⟩
  have found := (regrown.numbers_perm numbered member).subset (List.mem_append_left _ present)
  rcases List.mem_append.mp found with kept | added
  · exact Or.inl kept
  · rcases regrown.fresh number added with kept | bounds
    · exact Or.inl ((sublist_numbers before.branches member).subset kept)
    · exact Or.inr bounds.1

end Renewed

section Steps

variable {tree after : Tree N}

/-! ### Nodes that change or come -/

theorem regrown_updateEntry (numbered : tree.Numbered) {branch : Branch N}
    (member : branch ∈ tree.live) {change : Entry N → Entry N}
    (keeps : ∀ entry, (change entry).id = entry.id) :
    Regrown tree branch (.node (change branch.label) branch.children)
      (tree.updateEntry branch.id change) := by
  have same : numbers [.node (change branch.label) branch.children] = numbers [branch] := by
    obtain ⟨label, children⟩ := branch
    simp [keeps label]
  refine ⟨?_, by simp [updateEntry, update], Nat.le_refl _, ?_, fun number inside => ?_⟩
  · rw [updateEntry, branches_update]
    exact updateAt_eq_const tree.branches numbered.distinct _ member
  · rw [same]
    exact numbered.distinct.sublist (sublist_numbers _ member)
  · exact Or.inl (same ▸ inside)

theorem renewed_updateEntry (numbered : tree.Numbered) {id : Nat} {change : Entry N → Entry N}
    (keeps : ∀ entry, (change entry).id = entry.id) {found : Branch N}
    (present : tree.find id = .ok found) : Renewed tree (tree.updateEntry id change) := by
  obtain ⟨member, rfl⟩ := live_of_find? (find?_of_find present)
  exact .of_regrown (regrown_updateEntry numbered member keeps) numbered member

theorem renewed_insertRoot (numbered : tree.Numbered) {content : N} {key : Option String} {id : Nat}
    (inserted : tree.insertRoot content key = .ok (id, after)) : Renewed tree after := by
  unfold insertRoot at inserted
  split at inserted
  · cases inserted
  · rename_i bare
    cases Result.pure_ok.mp inserted
    have old : tree.branches = tree.detached := by simp [branches, bare]
    have more : ∀ number, number ∈ numbers (.node ⟨⟨key, content⟩, tree.next⟩ [] :: tree.detached) ↔
        number = tree.next ∨ number ∈ numbers tree.branches := by
      simp [old]
    have bounded := numbered.bounded
    refine ⟨⟨?_, fun number present => ?_⟩, Nat.le_succ _, fun number present => ?_⟩
    · rw [branches, Option.toList_some, List.singleton_append, numbers_cons, numbers_nil,
        List.nil_append, ← old, List.nodup_cons]
      refine ⟨fun present => ?_, numbered.distinct⟩
      have bound := bounded tree.next present
      omega
    · rcases (more number).mp present with rfl | kept
      · exact Nat.lt_succ_self _
      · exact Nat.lt_succ_of_lt (bounded number kept)
    · rcases (more number).mp present with rfl | kept
      · exact Or.inr (Nat.le_refl _)
      · exact Or.inl kept

variable [NodeRules N]

theorem renewed_insert (numbered : tree.Numbered) {content : N} {parent id : Nat}
    {key : Option String} (inserted : tree.insert content parent key = .ok (id, after)) :
    Renewed tree after := by
  obtain ⟨holder, member, _, _, _, regrown⟩ := insert_ok numbered inserted
  exact .of_regrown regrown numbered member

mutual

theorem renewed_graftBelow (parent : Nat) : ∀ (shape : Shape N) {tree : Tree N}, tree.Numbered →
    Renewed tree (graftBelow parent shape tree).1
  | .node label children, tree, numbered => by
      unfold graftBelow
      split
      · exact .refl numbered
      · rename_i id grown inserted
        have first := renewed_insert numbered inserted
        have later := first.trans (renewed_graftAll id children first.numbered)
        split
        · rename_i left error grafted
          rw [grafted] at later
          exact later
        · rename_i left grafted
          rw [grafted] at later
          exact later

theorem renewed_graftAll (parent : Nat) : ∀ (shapes : List (Shape N)) {tree : Tree N},
    tree.Numbered → Renewed tree (graftAll parent shapes tree).1
  | [], tree, numbered => .refl numbered
  | shape :: rest, tree, numbered => by
      have first := renewed_graftBelow parent shape numbered
      unfold graftAll
      split
      · rename_i left error grafted
        rw [grafted] at first
        exact first
      · rename_i left id grafted
        rw [grafted] at first
        exact first.trans (renewed_graftAll parent rest first.numbered)

end

theorem renewed_graft (numbered : tree.Numbered) (shape : Option (Shape N)) (parent : Option Nat) :
    Renewed tree (tree.graft shape parent).1 := by
  unfold graft
  split
  · exact .refl numbered
  · exact renewed_graftBelow _ _ numbered
  · split
    · exact .refl numbered
    · rename_i inserted
      have first := renewed_insertRoot numbered inserted
      exact first.trans (renewed_graftAll _ _ first.numbered)

/-! ### Branches that go and come back -/

omit [NodeRules N] in
theorem detach_ok {id : Nat} (done : tree.detach id = .ok after) :
    ∃ branch ∈ tree.live, branch.id = id ∧ branch ∈ after.detached ∧
      after.branches = pruneAt id tree.branches ++ [branch] ∧ after.next = tree.next ∧
      (tree.rootId? = some id → after.root = none) := by
  simp only [detach, Result.bind_ok, Result.pure_ok] at done
  obtain ⟨branch, found, rfl⟩ := done
  obtain ⟨member, rfl⟩ := live_of_find? (find?_of_find found)
  refine ⟨branch, member, rfl, by simp, ?_, rfl, fun rooted => ?_⟩
  · have cut : (tree.root.bind (prune? (·.id = branch.id))).toList =
        pruneAt branch.id tree.root.toList := by
      cases tree.root with
      | none => rfl
      | some root =>
          simp only [Option.bind_some, Option.toList_some, pruneAt, pruneAll]
          split <;> simp_all
    rw [branches, branches, cut, pruneAt_append, List.append_assoc]
    rfl
  · cases bare : tree.root with
    | none => simp [rootId?, bare] at rooted
    | some root =>
        obtain ⟨label, children⟩ := root
        have top : label.id = branch.id := by simpa [rootId?, bare] using rooted
        simp [prune?, top]

omit [NodeRules N] in
theorem entries_detach (numbered : tree.Numbered) {id : Nat} (done : tree.detach id = .ok after) :
    (entries after.branches).Perm (entries tree.branches) := by
  obtain ⟨branch, member, rfl, _, parts, _⟩ := detach_ok done
  rw [parts, entries_append]
  exact entries_pruneAt tree.branches numbered.distinct member

omit [NodeRules N] in
theorem numbers_detach (numbered : tree.Numbered) {id : Nat} (done : tree.detach id = .ok after) :
    (numbers after.branches).Perm (numbers tree.branches) :=
  perm_numbers (entries_detach numbered done)

omit [NodeRules N] in
theorem renewed_detach (numbered : tree.Numbered) {id : Nat} (done : tree.detach id = .ok after) :
    Renewed tree after := by
  obtain ⟨_, _, _, _, _, next, _⟩ := detach_ok done
  exact .of_perm numbered (numbers_detach numbered done) next

omit [NodeRules N] in
theorem discard_split (numbered : tree.Numbered) {branch : Branch N}
    (cut : branch ∈ tree.detached) :
    ∃ front back, tree.branches = front ++ branch :: back ∧
      (tree.discard branch.id).branches = front ++ back := by
  obtain ⟨front, back, split⟩ := List.append_of_mem cut
  have distinct := numbered.distinct
  rw [branches, numbers_append, split, numbers_append, numbers_cons_eq branch back] at distinct
  have apart := (List.nodup_append.mp (List.nodup_append.mp distinct).2.1).2.2
  have apartBack := (List.nodup_append.mp
    (List.nodup_append.mp (List.nodup_append.mp distinct).2.1).2.1).2.2
  have self := id_mem_numbers (self_mem branch)
  have keepFront : front.filter (·.id ≠ branch.id) = front := by
    refine List.filter_eq_self.mpr fun other listed => decide_eq_true fun same => ?_
    exact apart _ (id_mem_numbers (mem_preorderAll_of_mem listed)) _
      (List.mem_append_left _ self) same
  have keepBack : back.filter (·.id ≠ branch.id) = back := by
    refine List.filter_eq_self.mpr fun other listed => decide_eq_true fun same => ?_
    exact apartBack _ self _ (id_mem_numbers (mem_preorderAll_of_mem listed)) same.symm
  refine ⟨tree.root.toList ++ front, back, ?_, ?_⟩
  · rw [branches, split, List.append_assoc]
  · rw [branches, discard, split, List.filter_append, List.filter_cons, keepFront, keepBack]
    simp

omit [NodeRules N] in
theorem entries_discard (numbered : tree.Numbered) {branch : Branch N}
    (cut : branch ∈ tree.detached) :
    (entries (tree.discard branch.id).branches ++ entries [branch]).Perm
      (entries tree.branches) := by
  obtain ⟨front, back, split, left⟩ := discard_split numbered cut
  rw [split, left, ← List.singleton_append (l := back), entries_append, entries_append,
    entries_append, List.append_assoc]
  exact List.perm_append_comm.append_left _

omit [NodeRules N] in
theorem numbers_discard (numbered : tree.Numbered) {branch : Branch N}
    (cut : branch ∈ tree.detached) :
    (numbers (tree.discard branch.id).branches ++ numbers [branch]).Perm
      (numbers tree.branches) := by
  have trade := (entries_discard numbered cut).map Entry.id
  rwa [List.map_append, map_id_entries, map_id_entries, map_id_entries] at trade

omit [NodeRules N] in
theorem entries_rehang (numbered : tree.Numbered) {branch holder : Branch N}
    (cut : branch ∈ tree.detached) (member : holder ∈ tree.live)
    (outside : holder.id ∉ numbers [branch]) :
    (entries ((tree.discard branch.id).append holder.id branch).branches).Perm
      (entries tree.branches) := by
  have left := entries_discard numbered cut
  have distinct := (List.nodup_append.mp
    ((numbers_discard numbered cut).nodup_iff.mpr numbered.distinct)).1
  obtain ⟨front, back, split, parts⟩ := discard_split numbered cut
  have stays : holder ∈ preorderAll (tree.discard branch.id).branches := by
    rw [live, split, ← List.singleton_append, preorderAll_append, preorderAll_append,
      List.mem_append, List.mem_append] at member
    rw [parts, preorderAll_append, List.mem_append]
    refine member.imp_right fun later => later.resolve_left fun inside => ?_
    exact outside (id_mem_numbers inside)
  have changed := branches_update (tree.discard branch.id) holder.id
    (fun old => extended old branch)
  rw [updateAt_eq_const _ distinct _ stays] at changed
  have trade := entries_updateAt _ distinct (extended holder branch) stays
  rw [← changed, entries_extended] at trade
  have swapped := trade.trans (List.perm_append_comm.append_left _)
  rw [← List.append_assoc] at swapped
  exact ((List.perm_append_right_iff _).mp swapped).trans left

omit [NodeRules N] in
theorem numbers_rehang (numbered : tree.Numbered) {branch holder : Branch N}
    (cut : branch ∈ tree.detached) (member : holder ∈ tree.live)
    (outside : holder.id ∉ numbers [branch]) :
    (numbers ((tree.discard branch.id).append holder.id branch).branches).Perm
      (numbers tree.branches) :=
  perm_numbers (entries_rehang numbered cut member outside)

omit [NodeRules N] in
theorem mem_detached (numbered : tree.Numbered) {branch : Branch N} (member : branch ∈ tree.live)
    (loose : tree.parent? branch.id = none) (notRoot : tree.rootId? ≠ some branch.id) :
    branch ∈ tree.detached := by
  rcases top_or_child tree.branches member with top | ⟨upper, above, below⟩
  · rw [branches, List.mem_append, Option.mem_toList] at top
    refine top.resolve_left fun rooted => notRoot ?_
    rw [rootId?, rooted]
    rfl
  · rw [parent?_of_child numbered above below] at loose
    cases loose

theorem attached {id parent : Nat} (numbered : tree.Numbered)
    (done : tree.attach id parent = .ok after) :
    ∃ branch ∈ tree.detached, ∃ holder ∈ tree.live, holder.id ∉ numbers [branch] ∧
      after = (tree.discard branch.id).append holder.id branch := by
  obtain ⟨reached, notAbove⟩ := attach_ok done
  simp only [attach, Result.bind_ok] at done
  obtain ⟨branch, found, done⟩ := done
  obtain ⟨member, rfl⟩ := live_of_find? (find?_of_find found)
  split at done
  · cases done
  · rename_i loose
    simp only [Bool.or_eq_true, decide_eq_true_eq, not_or, Bool.not_eq_true,
      Option.isSome_eq_false_iff, Option.isNone_iff_eq_none] at loose
    split at done
    · cases done
    · simp only [Result.bind_ok, Result.pure_ok] at done
      obtain ⟨holder, aimed, _, _, rfl⟩ := done
      obtain ⟨holderLive, rfl⟩ := live_of_find? (find?_of_find aimed)
      have cut := mem_detached numbered member loose.1 loose.2
      refine ⟨branch, cut, holder, holderLive, fun inside => ?_, rfl⟩
      exact notAbove ((mem_ancestors_iff numbered member).mpr inside)

theorem renewed_attach (numbered : tree.Numbered) {id parent : Nat}
    (done : tree.attach id parent = .ok after) : Renewed tree after := by
  obtain ⟨branch, cut, holder, member, outside, rfl⟩ := attached numbered done
  exact .of_perm numbered (numbers_rehang numbered cut member outside) rfl

omit [NodeRules N] in
theorem renewed_restore (numbered : tree.Numbered) {branch : Branch N} {cut : Tree N}
    (member : branch ∈ tree.live) (done : tree.detach branch.id = .ok cut) :
    Renewed tree
      (cut.restore branch (tree.parent? branch.id) (tree.rootId? = some branch.id)) := by
  have detached := renewed_detach numbered done
  have same := numbers_detach numbered done
  obtain ⟨own, ownLive, sameId, inCut, parts, next, unrooted⟩ := detach_ok done
  obtain rfl := eq_of_id numbered.distinct ownLive member sameId
  unfold restore
  split
  · rename_i parent found
    obtain ⟨holder, above, rfl, below⟩ := child_of_parent? numbered member found
    have outside : holder.id ∉ numbers [own] := fun inside =>
      not_both_inside numbered.distinct above member
        (id_mem_numbers (mem_preorderAll_of_mem below)) inside
    obtain ⟨now, nowLive, sameHolder⟩ := exists_of_mem_numbers
      (same.symm.subset (id_mem_numbers above))
    rw [← sameHolder] at outside ⊢
    exact .of_perm numbered ((numbers_rehang detached.numbered inCut nowLive outside).trans same) next
  · split
    · rename_i rooted
      have bare := unrooted (of_decide_eq_true rooted)
      have left := numbers_discard detached.numbered inCut
      refine .of_perm numbered (List.Perm.trans ?_ (left.trans same)) next
      have split : (Tree.branches { cut.discard own.id with root := some own }) =
          own :: (cut.discard own.id).branches := by
        simp [branches, discard, bare]
      rw [split, numbers_cons_eq]
      exact List.perm_append_comm
    · exact detached

theorem renewed_move (numbered : tree.Numbered) (id target : Nat) :
    Renewed tree (tree.move id target).1 := by
  unfold move
  split
  · exact .refl numbered
  · split
    · rename_i branch cut found done
      obtain ⟨member, rfl⟩ := live_of_find? (find?_of_find found)
      have detached := renewed_detach numbered done
      split
      · rename_i moved attached
        exact detached.trans (renewed_attach detached.numbered attached)
      · exact renewed_restore numbered member done
    · exact .refl numbered
    · exact .refl numbered

omit [NodeRules N] in
theorem renewed_remove (numbered : tree.Numbered) {id : Nat} {removed : Tree N}
    (done : tree.remove id = .ok (removed, after)) : Renewed tree after := by
  simp only [remove, Result.bind_ok, Result.pure_ok, Prod.mk.injEq] at done
  obtain ⟨_, _, cut, detached, _, rfl⟩ := done
  have first := renewed_detach numbered detached
  obtain ⟨branch, _, rfl, inCut, _, next, _⟩ := detach_ok detached
  exact .of_part numbered (numbers [branch]) ((numbers_discard first.numbered inCut).trans
    (numbers_detach numbered detached)) next

end Steps

/-! ### Runs -/

inductive Start (N : Type) where
  | empty
  | withRoot (content : N) (key : Option String)
  | copy (shape : Shape N)

def Start.tree : Start N → Tree N
  | .empty => {}
  | .withRoot content key => Tree.withRoot content key
  | .copy shape => ofShape shape

inductive Operation (N : Type) where
  | insertRoot (content : N) (key : Option String)
  | insert (content : N) (parent : Nat) (key : Option String)
  | detach (id : Nat)
  | attach (id parent : Nat)
  | move (id target : Nat)
  | remove (id : Nat)
  | graft (shape : Option (Shape N)) (parent : Option Nat)
  | setKey (id : Nat) (key : Option String)
  | replace (id : Nat) (content : N)
  | assign (id : Nat) (content : N)

def left (tree : Tree N) : Result (Tree N) → Tree N
  | .ok after => after
  | .error _ => tree

def Operation.leave [NodeRules N] (tree : Tree N) : Operation N → Tree N
  | .insertRoot content key => tree.left (Prod.snd <$> tree.insertRoot content key)
  | .insert content parent key => tree.left (Prod.snd <$> tree.insert content parent key)
  | .detach number => tree.left (tree.detach number)
  | .attach number parent => tree.left (tree.attach number parent)
  | .move number target => (tree.move number target).1
  | .remove number => tree.left (Prod.snd <$> tree.remove number)
  | .graft shape parent => (tree.graft shape parent).1
  | .setKey number key => tree.left (tree.setKey number key)
  | .replace number content => tree.left (Prod.snd <$> tree.replace number content)
  | .assign number content => tree.left (tree.assign number content)

def run [NodeRules N] (tree : Tree N) (operations : List (Operation N)) : Tree N :=
  operations.foldl Operation.leave tree

theorem renewed_left {tree : Tree N} (numbered : tree.Numbered) {result : Result (Tree N)}
    (step : ∀ after, result = .ok after → Renewed tree after) : Renewed tree (tree.left result) := by
  cases result with
  | error _ => exact .refl numbered
  | ok after => exact step after rfl

theorem renewed_leave [NodeRules N] {tree : Tree N} (numbered : tree.Numbered)
    (operation : Operation N) : Renewed tree (operation.leave tree) := by
  cases operation with
  | insertRoot content key =>
      refine renewed_left numbered fun after done => ?_
      obtain ⟨⟨id, _⟩, inserted, rfl⟩ := Result.map_ok.mp done
      exact renewed_insertRoot numbered inserted
  | insert content parent key =>
      refine renewed_left numbered fun after done => ?_
      obtain ⟨⟨id, _⟩, inserted, rfl⟩ := Result.map_ok.mp done
      exact renewed_insert numbered inserted
  | detach id => exact renewed_left numbered fun after done => renewed_detach numbered done
  | attach id parent => exact renewed_left numbered fun after done => renewed_attach numbered done
  | move id target => exact renewed_move numbered id target
  | remove id =>
      refine renewed_left numbered fun after done => ?_
      obtain ⟨⟨removed, _⟩, removal, rfl⟩ := Result.map_ok.mp done
      exact renewed_remove numbered removal
  | graft shape parent => exact renewed_graft numbered shape parent
  | setKey id key =>
      refine renewed_left numbered fun after done => ?_
      simp only [setKey, Result.bind_ok, Result.pure_ok] at done
      obtain ⟨branch, found, rfl⟩ := done
      exact renewed_updateEntry numbered (fun _ => rfl) found
  | replace id content =>
      refine renewed_left numbered fun after done => ?_
      obtain ⟨⟨old, _⟩, replaced, rfl⟩ := Result.map_ok.mp done
      simp only [replace, assign, Result.bind_ok, Result.pure_ok, Prod.mk.injEq] at replaced
      obtain ⟨_, _, _, ⟨branch, found, rfl⟩, _, rfl⟩ := replaced
      have keeps : ∀ entry : Entry N, ({ entry with content := content } : Entry N).id = entry.id :=
        fun _ => rfl
      exact renewed_updateEntry numbered keeps found
  | assign id content =>
      refine renewed_left numbered fun after done => ?_
      simp only [assign, Result.bind_ok, Result.pure_ok] at done
      obtain ⟨branch, found, rfl⟩ := done
      exact renewed_updateEntry numbered (fun _ => rfl) found

theorem renewed_run [NodeRules N] {tree : Tree N} (numbered : tree.Numbered)
    (operations : List (Operation N)) : Renewed tree (tree.run operations) := by
  induction operations generalizing tree with
  | nil => exact .refl numbered
  | cons operation rest ih =>
      have first := renewed_leave numbered operation
      exact first.trans (ih first.numbered)

theorem numbers_numberAll (first : Nat) (shapes : List (Shape N)) :
    numbers (numberAll first shapes) = List.range' first (sizeAll shapes) := by
  induction shapes using forestInduction generalizing first with
  | nil => rfl
  | cons label children rest ihBelow ihBeside =>
      have after : first + (sizeAll children + 1) = first + 1 + sizeAll children := by omega
      have total : sizeAll children + 1 + sizeAll rest = sizeAll children + sizeAll rest + 1 := by
        omega
      rw [numberAll, number, numbers_cons, ihBelow, ihBeside, sizeAll, size, total,
        List.range'_succ, after, List.range'_append_1]

theorem numbered_ofShape (shape : Shape N) : (ofShape shape).Numbered := by
  have given : numbers (ofShape shape).branches = List.range' 0 shape.size :=
    numbers_numberAll 0 [shape]
  refine ⟨?_, fun number present => ?_⟩
  · rw [given]
    exact List.nodup_range'
  · rw [given, List.mem_range'_1] at present
    simpa [ofShape] using present.2

theorem Start.numbered (start : Start N) : start.tree.Numbered := by
  cases start with
  | empty => exact numbered_empty
  | withRoot content key => exact numbered_ofShape _
  | copy shape => exact numbered_ofShape shape

theorem Renewed.contains_eq_false {before middle after : Tree N} (numbered : before.Numbered)
    (first : Renewed before middle) (second : Renewed middle after) {id : Nat}
    (present : before.contains id = true) (gone : middle.contains id = false) :
    after.contains id = false := by
  have bound := numbered.bounded id ((contains_iff numbered).mp present)
  have later := first.later
  rw [Bool.eq_false_iff, ne_eq, contains_iff first.numbered] at gone
  rw [Bool.eq_false_iff, ne_eq, contains_iff second.numbered]
  intro back
  rcases second.fresh id back with kept | new
  · exact gone kept
  · omega

end Tree

end ScopedClauses
