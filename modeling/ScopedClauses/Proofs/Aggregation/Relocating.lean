import ScopedClauses.Proofs.Aggregation.Settling

/-!
Moving branches below a clause. A branch on a field or of a marker is in order wherever its head
is, so it is in order where it is moved; only the branches of other clauses may come to stand in
a scope that is not theirs, and they become children of the clause itself, as they are.
-/

namespace ScopedClauses

namespace Aggregations

open Rose Tree

def loose (node : AggNode) : Bool := node.field?.isNone && node.boundary?.isNone

def Firm (mapping : Mapping) (shape : Shape AggNode) : Prop :=
  ∀ scope, Placed mapping shape.label.content (within scope shape.label.content) →
    Everywhere (Placed mapping) scope [shape]

def Adrift (mapping : Mapping) (shape : Shape AggNode) : Prop :=
  loose shape.label.content = true ∧ ∃ scope, Everywhere (Placed mapping) scope [shape]

section Firm

variable {mapping : Mapping} {branch : Branch AggNode}

theorem firm_of_everywhere {around : Option String}
    (holds : Everywhere (Placed mapping) around [branch.shape])
    (fixed : loose branch.content = false) : Firm mapping branch.shape := by
  intro scope placed
  obtain ⟨label, children⟩ := branch
  rw [shape_node, everywhere_cons] at holds ⊢
  rw [shape_node, label_node] at placed
  refine ⟨placed, ?_, trivial⟩
  cases marks : AggNode.boundary? label.content with
  | some boundary =>
      have below := holds.2.1
      rw [within_boundary marks] at below ⊢
      exact below
  | none =>
      cases named : AggNode.field? label.content with
      | none => simp [loose, marks, named] at fixed
      | some field =>
          have there := placed marks field named
          have here := holds.1 marks field named
          rw [here] at there
          rw [← Except.ok.inj there]
          exact holds.2.1

theorem adrift_or_firm {around : Option String}
    (holds : Everywhere (Placed mapping) around [branch.shape]) :
    Adrift mapping branch.shape ∨ Firm mapping branch.shape := by
  cases held : loose branch.content with
  | true => exact Or.inl ⟨by rwa [content_shape], around, holds⟩
  | false => exact Or.inr (firm_of_everywhere holds held)

theorem Adrift.loose_eq (adrift : Adrift mapping branch.shape) : loose branch.content = true := by
  have held := adrift.1
  rwa [content_shape] at held

theorem adrift_trimmed (adrift : Adrift mapping branch.shape) (gone : List Nat) :
    Adrift mapping (trimmed gone branch).shape := by
  obtain ⟨held, scope, holds⟩ := adrift
  obtain ⟨label, children⟩ := branch
  rw [shape_node, everywhere_cons] at holds
  refine ⟨held, scope, ?_⟩
  rw [trimmed, shape_node, everywhere_cons]
  exact ⟨holds.1, everywhere_cutOff gone _ children holds.2.1, trivial⟩

theorem firm_trimmed (firm : Firm mapping branch.shape) (gone : List Nat) :
    Firm mapping (trimmed gone branch).shape := by
  intro scope placed
  obtain ⟨label, children⟩ := branch
  have whole := firm scope (by rw [shape_node]; rw [trimmed, shape_node] at placed; exact placed)
  rw [shape_node, everywhere_cons] at whole
  rw [trimmed, shape_node, everywhere_cons]
  exact ⟨whole.1, everywhere_cutOff gone _ children whole.2.1, trivial⟩

end Firm

structure Movable (mapping : Mapping) (tree : Tree AggNode) (target : Branch AggNode)
    (branches : List (Branch AggNode)) : Prop where
  live : ∀ branch ∈ branches, branch ∈ tree.live
  distinct : (numbers branches).Nodup
  apart : ∀ number ∈ numbers branches, number ∉ numbers [target]
  firm : ∀ branch ∈ branches, Adrift mapping branch.shape ∨ Firm mapping branch.shape

/-- The request `current` is the request `base` with branches cut off and with the branch `new`,
which is `target` grown, in its place. The children `more` are those that came adrift. -/
structure Sunk (mapping : Mapping) (around : Option String) (base : Aggregations)
    (target : Branch AggNode) (gone more : List Nat) (current : Aggregations)
    (new : Branch AggNode) : Prop where
  same : current = base.withTree current.tree
  whole : Whole current.tree
  branches : current.tree.branches =
    updateAt target.id (fun _ => new) (cutOff gone base.tree.branches)
  later : base.tree.next ≤ current.tree.next
  grown : Grown (Placed mapping) around more target new
  free : ∀ head ∈ base.tree.live, head.id ∈ gone →
    ∀ number ∈ numbers [target], number ∉ numbers [head]
  spares : Spares target new
  adrift : ∀ number ∈ more, ∃ child ∈ new.children, child.id = number ∧ Adrift mapping child.shape

namespace Sunk

variable {mapping : Mapping} {around : Option String} {base mid current : Aggregations}
  {target new further : Branch AggNode} {gone more later added : List Nat}

theorem refl (whole : Whole base.tree) (member : target ∈ base.tree.live) :
    Sunk mapping around base target [] [] base target := by
  refine ⟨rfl, whole, ?_, Nat.le_refl _, .refl target, fun _ _ listed => (by cases listed),
    .refl target, fun _ listed => (by cases listed)⟩
  rw [cutOff_none]
  exact (updateAt_self base.tree.branches whole.numbered.distinct member).symm

variable (sunk : Sunk mapping around base target gone more current new)

include sunk

theorem id_eq : new.id = target.id := sunk.grown.id_eq

theorem intact (member : target ∈ base.tree.live) :
    ∀ number ∈ numbers [target], number ∉ gone := by
  intro number inside listed
  obtain ⟨head, live, rfl⟩ := exists_of_mem_numbers
    ((sublist_numbers base.tree.branches member).subset inside)
  exact sunk.free head live listed _ inside (id_mem_numbers (self_mem head))

theorem away :
    ∀ head ∈ preorderAll base.tree.branches, head.id ∈ gone → target.id ∉ numbers [head] :=
  fun head live listed => sunk.free head live listed _ (id_mem_numbers (self_mem target))

theorem mem_cut (member : target ∈ base.tree.live) :
    target ∈ preorderAll (cutOff gone base.tree.branches) := by
  have stays := mem_cutOff base.tree.branches member sunk.away
  rwa [trimmed_of_apart (sunk.intact member)] at stays

theorem only_target (whole : Whole base.tree) (member : target ∈ base.tree.live)
    {branch : Branch AggNode} (outside : branch.id ∉ numbers [target]) :
    ∀ head ∈ preorderAll (cutOff gone base.tree.branches), head.id = target.id →
      branch.id ∉ numbers [head] := by
  intro head live same
  rwa [eq_of_id (distinct_cutOff whole.numbered.distinct) live (sunk.mem_cut member) same]

theorem site (whole : Whole base.tree)
    (site : (target, around) ∈ sites none base.tree.branches) :
    (new, around) ∈ sites none current.tree.branches := by
  have member := mem_of_site site
  have stays := site_cutOff none base.tree.branches site sunk.away
  rw [trimmed_of_apart (sunk.intact member)] at stays
  rw [sunk.branches]
  exact site_updateAt none _ (distinct_cutOff whole.numbered.distinct) stays (top_site (by simp))

theorem live_apart (whole : Whole base.tree) (member : target ∈ base.tree.live)
    {branch : Branch AggNode} (live : branch ∈ base.tree.live)
    (away : ∀ head ∈ base.tree.live, head.id ∈ gone → branch.id ∉ numbers [head])
    (intact : ∀ number ∈ numbers [branch], number ∉ gone)
    (apart : ∀ number ∈ numbers [branch], number ∉ numbers [target]) :
    branch ∈ current.tree.live := by
  have stays := mem_cutOff base.tree.branches live away
  rw [trimmed_of_apart intact] at stays
  have outside := apart branch.id (id_mem_numbers (self_mem branch))
  have around : .node branch.label (updateAt target.id (fun _ => new) branch.children) ∈
      current.tree.live := by
    rw [Tree.live, sunk.branches]
    exact mem_updateAt_around _ stays (sunk.only_target whole member outside)
  have absent : target.id ∉ numbers branch.children := by
    intro inside
    refine apart target.id ?_ (id_mem_numbers (self_mem target))
    rw [← node_eta branch, numbers_cons]
    simp [inside]
  rwa [updateAt_of_not_mem _ _ absent, node_eta] at around

theorem live_around (whole : Whole base.tree) (member : target ∈ base.tree.live)
    {branch : Branch AggNode} (live : branch ∈ base.tree.live)
    (inside : target.id ∈ numbers branch.children) :
    .node branch.label (updateAt target.id (fun _ => new) (cutOff gone branch.children)) ∈
      current.tree.live := by
  have outside : branch.id ∉ numbers [target] := fun above =>
    not_both_inside whole.numbered.distinct live member inside above
  have away : ∀ head ∈ base.tree.live, head.id ∈ gone → branch.id ∉ numbers [head] := by
    intro head headLive listed above
    obtain ⟨inner, within, same⟩ := exists_of_mem_numbers inside
    refine sunk.away head headLive listed ?_
    have deep := branch_of_mem_numbers whole.numbered.distinct headLive live above
    rw [← same]
    exact id_mem_numbers (mem_preorderAll_trans [head] deep within)
  have stays := mem_cutOff base.tree.branches live away
  rw [Tree.live, sunk.branches]
  exact mem_updateAt_around _ stays (sunk.only_target whole member outside)

omit sunk in
theorem trans (second : Sunk mapping around mid new later added current further)
    (first : Sunk mapping around base target gone more mid new) (whole : Whole base.tree)
    (site : (target, around) ∈ sites none base.tree.branches)
    (free : ∀ head ∈ base.tree.live, head.id ∈ later →
      ∀ number ∈ numbers [target], number ∉ numbers [head]) :
    Sunk mapping around base target (gone ++ later) (more ++ added) current further := by
  have liveNew := mem_of_site (first.site whole site)
  have apart := second.intact liveNew
  refine ⟨?_, second.whole, ?_, Nat.le_trans first.later second.later,
    first.grown.trans second.grown, ?_, first.spares.trans second.spares, ?_⟩
  · rw [second.same, first.same]
    rfl
  · rw [second.branches, first.branches, first.id_eq]
    rw [cutOff_updateAt (first.id_eq ▸ apart new.id (id_mem_numbers (self_mem new))) apart,
      updateAt_twice first.id_eq, cutOff_cutOff]
  · intro head live listed
    rcases List.mem_append.mp listed with early | late
    · exact first.free head live early
    · exact free head live late
  · intro number listed
    rcases List.mem_append.mp listed with early | late
    · obtain ⟨child, below, same, adrift⟩ := first.adrift number early
      have plain : child.content.boundary? = none := by
        simpa using (Bool.and_eq_true_iff.mp adrift.loose_eq).2
      exact ⟨child, second.spares child below plain, same, adrift⟩
    · exact second.adrift number late

end Sunk

section Moving

variable {mapping : Mapping} {around inner scope : Option String} {base current : Aggregations}
  {target branch new here : Branch AggNode} {more : List Nat} {after : Tree AggNode}

theorem sunk_grows (same : current = base.withTree current.tree)
    (grows : Grows (Placed mapping) around base.tree target new current.tree)
    (spares : Spares target new) (whole : Whole base.tree) (member : target ∈ base.tree.live) :
    Sunk mapping around base target [] [] current new := by
  refine ⟨same, whole.regrown grows.toRegrown member, ?_, grows.later, grows.grown,
    fun _ _ listed => (by cases listed), spares, fun _ listed => (by cases listed)⟩
  rw [cutOff_none]
  exact grows.branches

theorem sunk_move (whole : Whole base.tree) (member : target ∈ base.tree.live)
    (site : (here, inner) ∈ sites around [target]) {markers : List (Entry AggNode)}
    (way : lineage here.id [target] = markers ++ [target.label])
    (marked : ∀ marker ∈ markers, marker.content.boundary?.isSome) (live : branch ∈ base.tree.live)
    (apart : ∀ number ∈ numbers [branch], number ∉ numbers [target])
    (order : branch.id ∈ more ∨
      Everywhere (Placed mapping) (within inner here.content) [branch.shape])
    (named : ∀ number ∈ more,
      number = branch.id ∧ Adrift mapping branch.shape ∧ here = target)
    (done : base.tree.move branch.id here.id = (after, .ok ())) :
    Sunk mapping around base target [branch.id] more (base.withTree after)
      (putAt here.id (extended here branch) target) ∧
    ∀ number ∈ numbers [putAt here.id (extended here branch) target],
      number ∈ numbers [target] ∨ number ∈ numbers [branch] := by
  have distinct := whole.numbered.distinct
  have inTarget := mem_of_site site
  have liveHere := live_of_branches member inTarget
  have part := (sublist_numbers [target] inTarget).subset
  have distinctTarget := distinct.sublist (sublist_numbers base.tree.branches member)
  have self := id_mem_numbers (self_mem branch)
  obtain ⟨own, holder, sameBranch, sameHolder, moved⟩ :=
    move_ok whole.numbered whole.settled done
  obtain rfl := eq_of_id distinct moved.member live sameBranch
  have free : ∀ head ∈ base.tree.live, head.id ∈ [own.id] →
      ∀ number ∈ numbers [target], number ∉ numbers [head] := by
    intro head headLive listed number inside within
    rw [eq_of_id distinct headLive live (List.mem_singleton.mp listed)] at within
    exact apart number within inside
  have stays : ∀ inner ∈ preorderAll [target],
      inner ∈ preorderAll (cutOff [own.id] base.tree.branches) := fun inner within =>
    mem_cutOff_apart distinct live member apart within
  have outside := moved.outside
  rw [pruneAt_eq_cutOff] at outside
  obtain rfl := eq_of_id (distinct_cutOff distinct) outside (stays here inTarget) sameHolder
  have known : ∀ number ∈ numbers [extended holder own], number ∈ numbers [target] →
      number ∈ numbers [holder] := by
    intro number inside present
    rw [numbers_extended] at inside
    exact (List.mem_append.mp inside).resolve_right fun within => apart number within present
  refine ⟨⟨rfl, ⟨moved.numbered_after whole.numbered, moved.settled⟩, ?_, ?_, ?_, free,
    spares_putAt distinctTarget inTarget way marked fun _ => List.mem_append_left _, ?_⟩, ?_⟩
  · rw [tree_withTree, moved.branches, pruneAt_eq_cutOff]
    exact updateAt_inside (distinct_cutOff distinct) (stays target (self_mem target)) inTarget _
  · exact Nat.le_of_eq moved.next.symm
  · exact .inside distinctTarget site known (.extended order)
  · intro number listed
    obtain ⟨rfl, adrift, rfl⟩ := named number listed
    refine ⟨own, ?_, rfl, adrift⟩
    rw [putAt_self]
    exact List.mem_append_right _ (List.mem_singleton_self own)
  · intro number inside
    rcases mem_numbers_putAt distinctTarget inTarget inside with old | new
    · exact Or.inl old
    · rw [numbers_extended] at new
      exact (List.mem_append.mp new).imp_left fun within => part within

end Moving

section Movable

variable {mapping : Mapping} {around : Option String} {aggs middle : Aggregations}
  {target new branch : Branch AggNode} {rest : List (Branch AggNode)} {more : List Nat}

theorem Movable.head (movable : Movable mapping aggs.tree target (branch :: rest)) :
    Movable mapping aggs.tree target [branch] := by
  have split := numbers_cons_eq branch rest
  refine ⟨fun own listed => movable.live own ?_, ?_, fun number inside => movable.apart number ?_,
    fun own listed => movable.firm own ?_⟩
  · simp [List.mem_singleton.mp listed]
  · have distinct := movable.distinct
    rw [split] at distinct
    exact (List.nodup_append.mp distinct).1
  · rw [split]
    exact List.mem_append_left _ inside
  · simp [List.mem_singleton.mp listed]

theorem Movable.below {label : Entry AggNode} {children : List (Branch AggNode)}
    (movable : Movable mapping aggs.tree target [.node label children]) {boundary : Boundary}
    (marks : label.content.boundary? = some boundary) :
    Movable mapping aggs.tree target children := by
  have live := movable.live _ (List.mem_singleton.mpr rfl)
  have distinct := movable.distinct
  have part : ∀ number ∈ numbers children, number ∈ numbers [.node label children] := by
    simp +contextual
  refine ⟨fun own listed => mem_preorderAll_trans _ live (mem_preorderAll_of_mem listed),
    (distinct_cons distinct).2.2.1, fun number inside => movable.apart number (part number inside),
    fun own listed => ?_⟩
  have firm := (movable.firm _ (List.mem_singleton.mpr rfl)).resolve_left fun adrift => by
    simpa [loose, marks] using adrift.loose_eq
  have whole := firm none (by
    rw [shape_node]
    exact placed_boundary marks _)
  rw [shape_node, everywhere_cons] at whole
  exact adrift_or_firm (everywhere_of_mem whole.2.1 listed)

theorem Movable.tail (movable : Movable mapping aggs.tree target (branch :: rest))
    (whole : Whole aggs.tree) (member : target ∈ aggs.tree.live)
    (sunk : Sunk mapping around aggs target [branch.id] more middle new)
    (known : ∀ number ∈ numbers [new], number ∈ numbers [target] ∨ number ∈ numbers [branch] ∨
      aggs.tree.next ≤ number) : Movable mapping middle.tree new rest := by
  have distinct := movable.distinct
  rw [numbers_cons_eq] at distinct
  obtain ⟨_, distinctRest, apart⟩ := List.nodup_append.mp distinct
  have inRest : ∀ own ∈ rest, numbers [own] ⊆ numbers rest := fun own listed =>
    (sublist_numbers rest (mem_preorderAll_of_mem listed)).subset
  have live := fun own (listed : own ∈ rest) =>
    movable.live own (List.mem_cons_of_mem _ listed)
  have outside := fun number (inside : number ∈ numbers rest) =>
    movable.apart number (numbers_cons_eq branch rest ▸ List.mem_append_right _ inside)
  have head := movable.live branch (List.mem_cons_self ..)
  refine ⟨fun own listed => ?_, distinctRest, fun number inside present => ?_,
    fun own listed => movable.firm own (List.mem_cons_of_mem _ listed)⟩
  · refine sunk.live_apart whole member (live own listed) ?_ ?_ fun number inside =>
      outside number (inRest own listed inside)
    · intro other otherLive same above
      rw [eq_of_id whole.numbered.distinct otherLive head (List.mem_singleton.mp same)] at above
      exact apart _ above _ (inRest own listed (id_mem_numbers (self_mem own))) rfl
    · intro number inside same
      rw [List.mem_singleton.mp same] at inside
      exact apart _ (id_mem_numbers (self_mem branch)) _ (inRest own listed inside) rfl
  · rcases known number present with old | moved | fresh
    · exact outside number inside old
    · exact apart number moved number inside rfl
    · obtain ⟨own, within, rfl⟩ := exists_of_mem_numbers inside
      obtain ⟨top, listed, deep⟩ := exists_top within
      have bound := whole.numbered.bounded own.id
        (id_mem_numbers (live_of_branches (live top listed) deep))
      omega

end Movable

theorem sunk_dissolve {mapping : Mapping} {around : Option String} {aggs emptied : Aggregations}
    {target new : Branch AggNode} {label : Entry AggNode} {children : List (Branch AggNode)}
    {more : List Nat} {removed after : Tree AggNode} (whole : Whole aggs.tree)
    (movable : Movable mapping aggs.tree target [.node label children])
    (sunk : Sunk mapping around aggs target (children.map Rose.id) more emptied new)
    (known : ∀ number ∈ numbers [new], number ∈ numbers [target] ∨ number ∈ numbers children ∨
      aggs.tree.next ≤ number)
    (done : emptied.tree.remove label.id = .ok (removed, after)) :
    Sunk mapping around aggs target [label.id] more (emptied.withTree after) new := by
  have live := movable.live _ (List.mem_singleton.mpr rfl)
  have distinct := whole.numbered.distinct
  have distinctBelow := distinct_cons movable.distinct
  have inside : label.id ∈ numbers [.node label children] := by simp
  obtain ⟨branch, member, same, branches, settled, next, _⟩ :=
    remove_ok sunk.whole.numbered sunk.whole.settled done
  -- what has grown holds the children of the marker, but not the marker
  have unknown : label.id ∉ numbers [new] := by
    intro present
    rcases known _ present with old | moved | fresh
    · exact movable.apart _ inside old
    · exact distinctBelow.1 moved
    · have bound := whole.numbered.bounded label.id (id_mem_numbers live)
      omega
  have apart : ∀ number ∈ numbers [new], number ∉ [label.id] := fun number present listed => by
    rw [List.mem_singleton.mp listed] at present
    exact unknown present
  have other : target.id ≠ label.id := fun here =>
    movable.apart _ inside (here ▸ id_mem_numbers (self_mem target))
  have outside : ∀ number ∈ children.map Rose.id, number ∈ numbers [.node label children] := by
    intro number listed
    obtain ⟨child, below, rfl⟩ := List.mem_map.mp listed
    simp [id_mem_numbers (mem_preorderAll_of_mem below)]
  refine ⟨?_, ⟨⟨?_, ?_⟩, settled⟩, ?_, ?_, sunk.grown, ?_, sunk.spares, sunk.adrift⟩
  · rw [sunk.same]
    rfl
  · rw [tree_withTree, branches, ← same]
    exact distinct_pruneAt sunk.whole.numbered.distinct member
  · intro number present
    rw [tree_withTree, branches, ← same] at present
    rw [tree_withTree, next]
    exact sunk.whole.numbered.bounded number
      (mem_pruneAt sunk.whole.numbered.distinct member present).1
  · have absorbed := cutOff_concat aggs.tree.branches distinct live outside
    rw [id_node] at absorbed
    rw [tree_withTree, branches, pruneAt_eq_cutOff, sunk.branches,
      cutOff_updateAt (by simpa using other) apart, cutOff_cutOff, absorbed]
  · exact Nat.le_trans sunk.later (Nat.le_of_eq next.symm)
  · intro head headLive listed number present within
    rw [eq_of_id distinct headLive live (List.mem_singleton.mp listed)] at within
    exact movable.apart number within present

structure Ready (mapping : Mapping) (around : Option String) (aggs : Aggregations)
    (target : Branch AggNode) (branches : List (Branch AggNode)) : Prop where
  whole : Whole aggs.tree
  bound : aggs.mapping = some mapping
  site : (target, around) ∈ sites none aggs.tree.branches
  movable : Movable mapping aggs.tree target branches

def Lowered (mapping : Mapping) (around : Option String) (aggs : Aggregations)
    (target : Branch AggNode) (branches : List (Branch AggNode)) (final : Aggregations) : Prop :=
  ∃ more new, Sunk mapping around aggs target (branches.map Rose.id) more final new ∧
    (∀ number ∈ numbers [new], number ∈ numbers [target] ∨ number ∈ numbers branches ∨
      aggs.tree.next ≤ number) ∧ ∀ number ∈ more, number ∈ numbers branches

section Lowering

variable {mapping : Mapping} {around : Option String} {aggs middle final : Aggregations}
  {target branch : Branch AggNode} {rest : List (Branch AggNode)}

theorem lowered_settled {settled : Aggregations} (ready : Ready mapping around aggs target [branch])
    {destination : Nat} (settles : aggs.resettle target.id branch.content = .ok (destination, settled))
    {after : Tree AggNode} (moved : settled.tree.move branch.id destination = (after, .ok ())) :
    Lowered mapping around aggs target [branch] (settled.withTree after) := by
  obtain ⟨whole, bound, site, movable⟩ := ready
  have member := mem_of_site site
  have live := movable.live branch (List.mem_singleton_self _)
  obtain ⟨grown, here, scope, rfl, reached, fits, stays⟩ := reached_resettle whole site bound settles
  have first := sunk_grows reached.same reached.grows reached.spares whole member
  have siteGrown := first.site whole site
  obtain ⟨inner, siteHere, rfl⟩ := reached.site
  obtain ⟨markers, way, marked⟩ := reached.way
  rw [← reached.grows.grown.label] at way
  have stillLive : branch ∈ settled.tree.live :=
    first.live_apart whole member live (fun _ _ listed => by cases listed)
      (fun _ _ listed => by cases listed) movable.apart
  have apart : ∀ number ∈ numbers [branch], number ∉ numbers [grown] := by
    intro number inside present
    rcases reached.grows.fresh number present with old | fresh
    · exact movable.apart number inside old
    · have bound := whole.numbered.bounded number ((sublist_numbers _ live).subset inside)
      omega
  -- a loose branch is settled where it was wanted, so it is named as one that need not be in order
  obtain ⟨more, order, named⟩ : ∃ more : List Nat, (branch.id ∈ more ∨
      Everywhere (Placed mapping) (within inner here.content) [branch.shape]) ∧
      ∀ number ∈ more,
        number = branch.id ∧ Adrift mapping branch.shape ∧ here = grown := by
    rcases movable.firm branch (List.mem_singleton_self _) with adrift | firm
    · have held := (Bool.and_eq_true_iff.mp adrift.loose_eq).1
      obtain ⟨rfl, rfl⟩ := stays (by simpa using held)
      exact ⟨[branch.id], Or.inl (by simp), fun number listed =>
        ⟨List.mem_singleton.mp listed, adrift, rfl⟩⟩
    · exact ⟨[], Or.inr (firm _ (by rw [content_shape]; exact fits)), by simp⟩
  obtain ⟨second, known⟩ := sunk_move first.whole (mem_of_site siteGrown) siteHere way marked
    stillLive apart order named moved
  refine ⟨more, _, second.trans first whole site ?_, fun number inside => ?_,
    fun number listed => (named number listed).1 ▸ id_mem_numbers (self_mem branch)⟩
  · intro head headLive listed number inside within
    rw [eq_of_id whole.numbered.distinct headLive live (List.mem_singleton.mp listed)] at within
    exact movable.apart number within inside
  · rcases known number inside with old | arrived
    · exact (reached.grows.fresh number old).imp_right fun fresh => Or.inr fresh.1
    · exact Or.inr (Or.inl arrived)

theorem lowered_dissolved {entry : Entry AggNode} {below : List (Branch AggNode)}
    (ready : Ready mapping around aggs target [.node entry below])
    (emptying : Lowered mapping around aggs target below middle) {removed after : Tree AggNode}
    (done : middle.tree.remove entry.id = .ok (removed, after)) :
    Lowered mapping around aggs target [.node entry below] (middle.withTree after) := by
  obtain ⟨more, new, sunk, known, came⟩ := emptying
  have deeper : ∀ number ∈ numbers below, number ∈ numbers [.node entry below] := by
    simp +contextual
  exact ⟨more, new, sunk_dissolve ready.whole ready.movable sunk known done,
    fun number inside => (known number inside).imp_right (Or.imp_left (deeper number)),
    fun number listed => deeper number (came number listed)⟩

theorem lowered_cons (ready : Ready mapping around aggs target (branch :: rest))
    (moving : Lowered mapping around aggs target [branch] middle)
    (others : ∀ new, new.id = target.id → Ready mapping around middle new rest →
      Lowered mapping around middle new rest final) :
    Lowered mapping around aggs target (branch :: rest) final := by
  obtain ⟨whole, bound, site, movable⟩ := ready
  obtain ⟨more, mid, sunk, known, came⟩ := moving
  obtain ⟨added, new, second, knownLater, cameLater⟩ := others mid sunk.id_eq
    ⟨sunk.whole, by rw [sunk.same]; exact bound, sunk.site whole site,
      movable.tail whole (mem_of_site site) sunk known⟩
  refine ⟨more ++ added, new, second.trans sunk whole site ?_, ?_, ?_⟩
  · intro head live listed number inside within
    obtain ⟨own, present, same⟩ := List.mem_map.mp listed
    rw [← eq_of_id whole.numbered.distinct
      (movable.live own (List.mem_cons_of_mem _ present)) live same] at within
    refine movable.apart number ?_ inside
    rw [numbers_cons_eq]
    exact List.mem_append_right _
      ((sublist_numbers rest (mem_preorderAll_of_mem present)).subset within)
  · intro number inside
    rw [numbers_cons_eq branch rest, List.mem_append]
    have laterNext := sunk.later
    rcases knownLater number inside with old | moved | fresh
    · rcases known number old with older | early | fresh
      · exact Or.inl older
      · exact Or.inr (Or.inl (Or.inl early))
      · exact Or.inr (Or.inr fresh)
    · exact Or.inr (Or.inl (Or.inr moved))
    · exact Or.inr (Or.inr (by omega))
  · intro number listed
    rw [numbers_cons_eq branch rest, List.mem_append]
    exact (List.mem_append.mp listed).imp (came number) (cameLater number)

/-- Branches that are moved below a target end up inside it. -/
theorem lowered_relocateAll {branches : List (Branch AggNode)}
    (ready : Ready mapping around aggs target branches)
    (made : aggs.relocateAll target.id branches = .ok final) :
    Lowered mapping around aggs target branches final := by
  let Moves := fun (branches : List (Branch AggNode)) (first last : Aggregations) =>
    ∀ new, new.id = target.id → Ready mapping around first new branches →
      Lowered mapping around first new branches last
  have moves : Moves branches aggs final := by
    refine relocateAll_along ?_ ?_ ?_ ?_ made
    · intro aggs new _ ready
      exact ⟨[], new, .refl ready.whole (mem_of_site ready.site), fun _ => Or.inl,
        fun _ none => by cases none⟩
    · intro branch rest first middle last moved others new same ready
      refine lowered_cons ready (moved new same { ready with movable := ready.movable.head }) ?_
      exact fun next alike => others next (alike.trans same)
    · intro entry below first emptied removed after idle emptying done new same ready
      obtain ⟨boundary, marks⟩ : ∃ boundary, entry.content.boundary? = some boundary := by
        cases marks : entry.content.boundary? with
        | none => simp [isIdle, marks] at idle
        | some boundary => exact ⟨boundary, rfl⟩
      refine lowered_dissolved ready (emptying new same { ready with movable := ?_ }) done
      exact ready.movable.below marks
    · intro entry below first destination settled after settles done new same ready
      exact lowered_settled ready (same ▸ settles) done
  exact moves target rfl ready

end Lowering

end Aggregations

end ScopedClauses
