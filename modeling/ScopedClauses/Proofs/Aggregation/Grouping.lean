import ScopedClauses.Proofs.Aggregation.Displacing
import ScopedClauses.Proofs.Aggregation.Inserting
import ScopedClauses.Proofs.Aggregation.Names

/-!
Grouping. What a grouping takes over ends up in the scope of its field, unless it hangs openly,
behind no marker, below a clause that stands in any scope: such a clause is moved as it is, and what
is below it comes with it into the scope of the grouping.
-/

namespace ScopedClauses

namespace Aggregations

open Rose Tree

structure Led (old : Branch AggNode) (grown : Tree AggNode) (target : Branch AggNode)
    (markers outer : List (Entry AggNode)) : Prop where
  member : target ∈ grown.live
  line : lineage target.id grown.branches = target.label :: (markers ++ old.label :: outer)
  marked : ∀ marker ∈ markers, marker.content.boundary?.isSome
  lines : ∀ number ∈ numbers [old], lineage number grown.branches = lineage number [old] ++ outer
  outside : old.id ∉ numbers old.children

theorem Inserted.led {mapping : Mapping} {around : Option String} {aggs grown : Aggregations}
    {old new : Branch AggNode} {id : Nat}
    (inserted : Inserted mapping around aggs old grown new id) (whole : Whole aggs.tree)
    (member : old ∈ aggs.tree.live) :
    ∃ target markers outer, target.id = id ∧ Led old grown.tree target markers outer := by
  have grows := inserted.grows
  have numbered := (whole.regrown grows.toRegrown member).numbered
  have liveNew := grows.live_new whole.numbered member
  obtain ⟨entry, markers, way, marked⟩ := inserted.way
  obtain ⟨outer, wayNew, _⟩ := lineage_of_mem numbered.distinct liveNew
  have further : ∀ {number}, number ∈ numbers [new] →
      lineage number grown.tree.branches = lineage number [new] ++ outer := by
    intro number inside
    rw [lineage_inside numbered.distinct liveNew inside, wayNew, List.tail_cons]
  have present : id ∈ numbers [new] := Decidable.byContradiction fun absent => by
    rw [lineage_of_not_mem absent] at way
    cases way
  obtain ⟨target, inside, same⟩ := exists_of_mem_numbers present
  have live := live_of_branches liveNew inside
  obtain ⟨_, wayTarget, _⟩ := lineage_of_mem numbered.distinct live
  refine ⟨target, markers, outer, same, live, ?_, marked, fun number within => ?_,
    not_mem_children whole.numbered.distinct member⟩
  · have line := further present
    rw [way, ← same, wayTarget] at line
    rw [wayTarget, line, (List.cons.inj line).1]
    simp
  · rw [further (grows.grown.mem within), grows.grown.lines number within]

namespace Led

variable {old target : Branch AggNode} {grown : Tree AggNode}
  {markers outer : List (Entry AggNode)} (led : Led old grown target markers outer)
  (numbered : grown.Numbered)

include led numbered

theorem distinct : ((target.label :: (markers ++ old.label :: outer)).map Entry.id).Nodup := by
  rw [← led.line]
  exact lineage_nodup numbered.distinct target.id

theorem holders_eq :
    holders grown old.id target.id = (markers ++ [old.label]).map Entry.id := by
  have distinct := led.distinct numbered
  have before : ∀ number ∈ markers.map Entry.id, number ≠ old.id := by
    rintro number listed rfl
    simp only [List.map_cons, List.map_append, List.nodup_cons, List.nodup_append] at distinct
    exact distinct.2.2.2 old.id listed old.id (by simp [Rose.id]) rfl
  rw [holders, ancestors_outside, led.line, List.tail_cons, List.map_append, List.map_append,
    List.takeWhile_append_of_pos (by simpa using before), List.map_cons,
    List.takeWhile_cons_of_neg (by simp [Rose.id]), List.append_nil]
  rfl

omit numbered in
theorem holder_live {number : Nat} (listed : number ∈ (markers ++ [old.label]).map Entry.id) :
    ∃ holder ∈ grown.live, holder.id = number := by
  refine exists_of_mem_numbers ?_
  obtain ⟨entry, present, rfl⟩ := List.mem_map.mp listed
  have passed : entry ∈ lineage target.id grown.branches := by
    rw [led.line]
    simp only [List.mem_append, List.mem_cons, List.not_mem_nil, or_false] at present ⊢
    rcases present with marker | below
    · exact Or.inr (Or.inl marker)
    · exact Or.inr (Or.inr (Or.inl below))
  exact id_mem_of_mem_lineage passed

theorem not_above {number : Nat} (inside : number ∈ numbers old.children) :
    number ∉ (old.label :: outer).map Entry.id := by
  have distinct := lineage_nodup numbered.distinct number
  have whole := (numbers_children_sublist old).subset inside
  have line : lineage number grown.branches =
      lineage number old.children ++ (old.label :: outer) := by
    obtain ⟨label, children⟩ := old
    have other : label.id ≠ number := by
      rintro rfl
      exact led.outside inside
    have below : number ∈ numbers children := inside
    rw [led.lines number whole, lineage_below other below, children_node, label_node]
    simp
  obtain ⟨first, rest, way, rfl⟩ := lineage_head inside
  rw [line, List.map_append, way, List.nodup_append] at distinct
  intro above
  exact distinct.2.2 first.id (by simp) first.id above rfl

theorem above_target {holder : Branch AggNode} (live : holder ∈ grown.live)
    (listed : holder.id ∈ (markers ++ [old.label]).map Entry.id) :
    target.id ∈ numbers holder.children := by
  have distinct := led.distinct numbered
  have split : markers ++ old.label :: outer = (markers ++ [old.label]) ++ outer := by simp
  have passed : holder.id ∈ (markers ++ old.label :: outer).map Entry.id := by
    rw [split, List.map_append]
    exact List.mem_append_left _ listed
  rw [List.map_cons, List.nodup_cons] at distinct
  have inside : target.id ∈ numbers [holder] := by
    refine (passes_iff numbered.distinct live).mp ?_
    rw [led.line]
    exact List.mem_cons_of_mem _ passed
  obtain ⟨label, children⟩ := holder
  simp only [numbers_cons, numbers_nil, List.append_nil, List.mem_cons] at inside
  refine inside.resolve_left fun same => distinct.1 ?_
  rw [show target.label.id = label.id from same]
  exact passed

theorem beside_target {child : Branch AggNode} (live : child ∈ grown.live)
    (aside : Aside (numbers old.children) ((markers ++ [old.label]).map Entry.id) target.id
      child.id) : target.id ∉ numbers [child] := by
  intro inside
  have passed := (passes_iff numbered.distinct live).mpr inside
  have above := led.not_above numbered aside.old
  have off := aside.off
  rw [led.line] at passed
  simp only [List.map_cons, List.map_append, List.mem_cons, List.mem_append, List.map_nil,
    List.not_mem_nil, or_false, not_or] at passed above off
  rcases passed with same | marker | same | further
  · exact aside.other same
  · exact off.1 marker
  · exact above.1 same
  · exact above.2 further

end Led

structure Tidy (mapping : Mapping) (aggs : Aggregations) (parent : Branch AggNode)
    (stray : List Nat) : Prop where
  whole : Whole aggs.tree
  bound : aggs.mapping = some mapping
  member : parent ∈ aggs.tree.live
  order : Everywhere (Placed mapping) none (shapes (cutOff stray aggs.tree.branches))
  astray : ∀ number ∈ stray, number < parent.id ∧
    ∃ child ∈ parent.children, child.id = number ∧ Adrift mapping child.shape

section Grouping

variable {mapping : Mapping} {around : Option String} {aggs grown final : Aggregations}
  {old new target : Branch AggNode} {stray : List Nat} {markers outer : List (Entry AggNode)}

namespace Tidy

variable (tidy : Tidy mapping aggs old stray)
  (inserted : Inserted mapping around aggs old grown new target.id)
  (led : Led old grown.tree target markers outer)

include tidy inserted

theorem numbered_grown : grown.tree.Numbered :=
  (tidy.whole.regrown inserted.grows.toRegrown tidy.member).numbered

theorem order_grown (site : (old, around) ∈ sites none aggs.tree.branches) :
    Everywhere (Placed mapping) none (shapes (cutOff stray grown.tree.branches)) := by
  have distinct := tidy.whole.numbered.distinct
  rw [inserted.grows.branches]
  refine everywhere_cutOff_updateAt (List.Subset.refl _) none _ distinct tidy.member tidy.order
    fun other otherSite here => ?_
  rw [site_unique distinct otherSite site] at here ⊢
  have kept := inserted.grows.grown.keeps stray here
  rwa [List.append_nil] at kept

theorem stray_child {number : Nat} (listed : number ∈ stray) :
    number ∈ numbers old.children ∧ number < target.id ∧ ∃ child ∈ new.children,
      child.id = number ∧ Adrift mapping child.shape := by
  obtain ⟨_, child, below, rfl, adrift⟩ := tidy.astray number listed
  have inside := id_mem_numbers (mem_preorderAll_of_mem below)
  have within := (numbers_children_sublist old).subset inside
  have bound := tidy.whole.numbered.bounded child.id
    ((sublist_numbers _ tidy.member).subset within)
  have plain : child.content.boundary? = none := by
    simpa using (Bool.and_eq_true_iff.mp adrift.loose_eq).2
  exact ⟨inside, Nat.lt_of_lt_of_le bound inserted.fresh, child, inserted.spares child below plain,
    rfl, adrift⟩

include led

theorem displaceable_older {child holder : Branch AggNode} (live : holder ∈ grown.tree.live)
    (listed : holder.id ∈ (markers ++ [old.label]).map Entry.id) (below : child ∈ holder.children)
    (aside : Aside (numbers old.children) ((markers ++ [old.label]).map Entry.id) target.id
      child.id) : ∀ number ∈ numbers [child], number < target.id := by
  have numbered := tidy.numbered_grown inserted
  have liveChild := mem_preorderAll_trans _ live (mem_preorderAll_of_mem below)
  have liveNew := inserted.grows.live_new tidy.whole.numbered tidy.member
  have beside := led.beside_target numbered liveChild aside
  have above := led.above_target numbered live listed
  have inNew := branch_of_mem_numbers numbered.distinct liveNew liveChild
    (inserted.grows.grown.mem ((numbers_children_sublist old).subset aside.old))
  intro number within
  obtain ⟨inner, inChild, rfl⟩ := exists_of_mem_numbers within
  have liveInner := live_of_branches liveChild inChild
  have wayNew : ∀ {passed}, passed ∈ numbers [new] → ∀ {found},
      found ∈ (lineage passed [new]).map Entry.id →
        found ∈ (lineage passed grown.tree.branches).map Entry.id := by
    intro passed inside found onWay
    rw [lineage_inside numbered.distinct liveNew inside, List.map_append]
    exact List.mem_append_left _ onWay
  have targetNew : target.id ∈ numbers [new] := by
    obtain ⟨entry, markers, way, _⟩ := inserted.way
    refine Decidable.byContradiction fun absent => ?_
    rw [lineage_of_not_mem absent] at way
    cases way
  rcases inserted.passed inner.id ((sublist_numbers [new] inNew).subset within) with
    early | onWay | inTarget
  · have bound := tidy.whole.numbered.bounded inner.id
      ((sublist_numbers _ tidy.member).subset early)
    have fresh := inserted.fresh
    omega
  · -- Then the child leads to the clause.
    have deep := (passes_iff numbered.distinct liveInner).mp (wayNew targetNew onWay)
    exact absurd ((sublist_numbers [child] inChild).subset deep) beside
  · have deep := (passes_iff numbered.distinct led.member).mp
      (wayNew ((sublist_numbers [new] inNew).subset within) inTarget)
    exact absurd deep
      (apart_of_child numbered.distinct led.member live below above beside inner.id within)

theorem stray_off {number : Nat} (listed : number ∈ stray) :
    number ∉ (target.label :: (markers ++ old.label :: outer)).map Entry.id := by
  have numbered := tidy.numbered_grown inserted
  obtain ⟨inside, early, child, below, rfl, adrift⟩ := tidy.stray_child inserted listed
  have held := adrift.loose_eq
  have above := led.not_above numbered inside
  have liveNew := inserted.grows.live_new tidy.whole.numbered tidy.member
  have liveChild := mem_preorderAll_trans _ liveNew (mem_preorderAll_of_mem below)
  obtain ⟨outward, way, _⟩ := lineage_of_mem numbered.distinct liveChild
  rw [List.map_cons, List.mem_cons, List.map_append, List.mem_append]
  rintro (same | marker | further)
  · have : child.id = target.id := same
    omega
  · obtain ⟨entry, present, same⟩ := List.mem_map.mp marker
    obtain ⟨front, back, split⟩ := List.append_of_mem present
    have line : lineage target.id grown.tree.branches =
        (target.label :: front) ++ entry :: (back ++ old.label :: outer) := by
      rw [led.line, split]
      simp
    have suffix := lineage_suffix numbered.distinct line
    rw [same, way] at suffix
    have marked := led.marked entry present
    rw [← (List.cons.inj suffix).1] at marked
    simp [loose, content, Option.isSome_iff_ne_none] at held marked
    exact marked held.2
  · exact above further

theorem stray_aside {number : Nat} (listed : number ∈ stray) :
    Aside (numbers old.children) ((markers ++ [old.label]).map Entry.id) target.id number := by
  obtain ⟨inside, older, _⟩ := tidy.stray_child inserted listed
  refine ⟨inside, fun onWay => tidy.stray_off inserted led listed ?_, by omega⟩
  simp only [List.map_cons, List.map_append, List.mem_cons, List.mem_append, List.map_nil,
    List.not_mem_nil, or_false] at onWay ⊢
  rcases onWay with marker | same
  · exact Or.inr (Or.inl marker)
  · exact Or.inr (Or.inr (Or.inl same))

omit led in
theorem stray_adrift {child : Branch AggNode} (live : child ∈ grown.tree.live)
    (listed : child.id ∈ stray) : Adrift mapping child.shape := by
  have liveNew := inserted.grows.live_new tidy.whole.numbered tidy.member
  obtain ⟨_, _, found, inNew, same, adrift⟩ := tidy.stray_child inserted listed
  have liveFound := mem_preorderAll_trans _ liveNew (mem_preorderAll_of_mem inNew)
  rwa [eq_of_id (tidy.numbered_grown inserted).distinct liveFound live same] at adrift

/-- Below a node that was below `old`, only its head can be astray. -/
theorem stray_is_head {child : Branch AggNode} (live : child ∈ grown.tree.live)
    (early : child.id ∈ numbers old.children) {number : Nat} (inside : number ∈ numbers [child])
    (listed : number ∈ stray) : number = child.id := by
  have numbered := tidy.numbered_grown inserted
  have liveNew := inserted.grows.live_new tidy.whole.numbered tidy.member
  obtain ⟨_, _, found, inNew, rfl, _⟩ := tidy.stray_child inserted listed
  have passed := (passes_iff numbered.distinct live).mpr inside
  rw [lineage_child numbered.distinct liveNew inNew, List.map_cons, List.mem_cons] at passed
  rcases passed with same | further
  · exact same.symm
  · refine absurd ?_ (led.not_above numbered early)
    obtain ⟨label, children⟩ := old
    have line := led.lines label.id (by simp)
    rw [lineage_here] at line
    have same : new.id = label.id := inserted.grows.grown.id_eq
    rw [same, line] at further
    exact further

/-- A child of a holder lies in nothing that is astray but itself. -/
theorem head_is_stray {child holder head : Branch AggNode} (live : holder ∈ grown.tree.live)
    (listed : holder.id ∈ (markers ++ [old.label]).map Entry.id) (below : child ∈ holder.children)
    (liveHead : head ∈ grown.tree.live) (astray : head.id ∈ stray)
    (inside : child.id ∈ numbers [head]) : child.id ∈ stray := by
  have numbered := tidy.numbered_grown inserted
  have passed := (passes_iff numbered.distinct liveHead).mpr inside
  rw [lineage_child numbered.distinct live below, List.map_cons, List.mem_cons] at passed
  rcases passed with same | further
  · exact (show head.id = child.id from same) ▸ astray
  · have inHead := (passes_iff numbered.distinct liveHead).mp further
    have deep := branch_of_mem_numbers numbered.distinct liveHead live inHead
    have onWay := (passes_iff numbered.distinct liveHead).mpr
      ((sublist_numbers [head] deep).subset
        ((numbers_children_sublist holder).subset (led.above_target numbered live listed)))
    rw [led.line] at onWay
    exact absurd onWay (tidy.stray_off inserted led astray)

theorem displaceable_firm {child holder : Branch AggNode} (live : holder ∈ grown.tree.live)
    (listed : holder.id ∈ (markers ++ [old.label]).map Entry.id) (below : child ∈ holder.children)
    (aside : Aside (numbers old.children) ((markers ++ [old.label]).map Entry.id) target.id
      child.id)
    (order : Everywhere (Placed mapping) none (shapes (cutOff stray grown.tree.branches))) :
    Adrift mapping child.shape ∨ Firm mapping child.shape := by
  have liveChild := mem_preorderAll_trans _ live (mem_preorderAll_of_mem below)
  by_cases own : child.id ∈ stray
  · exact Or.inl (tidy.stray_adrift inserted liveChild own)
  · obtain ⟨scope, site⟩ := exists_site none liveChild
    have kept := site_cutOff none grown.tree.branches site fun head liveHead astray inside =>
      own (tidy.head_is_stray inserted led live listed below liveHead astray inside)
    rw [trimmed_of_apart fun number inside astray =>
      own (tidy.stray_is_head inserted led liveChild aside.old inside astray ▸ astray)] at kept
    exact adrift_or_firm (everywhere_of_site none _ order kept)

theorem displaceable
    (order : Everywhere (Placed mapping) none (shapes (cutOff stray grown.tree.branches))) :
    Displaceable mapping grown.tree (numbers old.children)
      ((markers ++ [old.label]).map Entry.id) target where
  member := led.member
  above _ live listed := led.above_target (tidy.numbered_grown inserted) live listed
  beside _ live aside := led.beside_target (tidy.numbered_grown inserted) live aside
  older _ _ aside := fun ⟨_, live, listed, below⟩ =>
    tidy.displaceable_older inserted led live listed below aside
  firm _ live listed _ below aside :=
    tidy.displaceable_firm inserted led live listed below aside order

end Tidy

/-- What is in order with some branches cut off is in order again when these were moved, but for
the loose ones among them. -/
theorem Sunk.order {gone more : List Nat} (sunk : Sunk mapping around grown target gone more final new)
    (whole : Whole grown.tree) (site : (target, around) ∈ sites none grown.tree.branches)
    (order : Everywhere (Placed mapping) none (shapes (cutOff gone grown.tree.branches))) :
    Everywhere (Placed mapping) none (shapes (cutOff more final.tree.branches)) := by
  have member := mem_of_site site
  have distinct : (numbers (cutOff gone grown.tree.branches)).Nodup :=
    distinct_cutOff whole.numbered.distinct
  have kept := site_cutOff none _ site sunk.away
  rw [trimmed_of_apart (sunk.intact member)] at kept
  have before : Everywhere (Placed mapping) none
      (shapes (cutOff [] (cutOff gone grown.tree.branches))) := by
    rw [cutOff_cutOff, List.append_nil]
    exact order
  rw [sunk.branches]
  refine everywhere_cutOff_updateAt (List.nil_subset _) none _ distinct (sunk.mem_cut member) before
    fun other otherSite here => ?_
  rw [site_unique distinct otherSite kept] at here ⊢
  exact sunk.grown.keeps [] here

/-- A clause that is inserted between a node and what was below it leaves the request tidy: what
was astray below the node is now astray below the clause. -/
theorem tidy_insertBetween (tidy : Tidy mapping aggs old stray) {shape : Shape AggNode} {id : Nat}
    (made : aggs.insertBetween old.id shape = .ok (id, final)) :
    ∃ parent stray', parent.id = id ∧ Tidy mapping final parent stray' := by
  have whole := tidy.whole
  obtain ⟨_, grown, placed, displaces⟩ := insertBetween_ok made
  obtain ⟨around, site⟩ := exists_site_of_live tidy.member
  obtain ⟨new, inserted⟩ := inserted_insertShape shape whole tidy.bound site placed
  obtain ⟨target, markers, outer, rfl, led⟩ := inserted.led whole tidy.member
  have grows := inserted.grows
  have wholeGrown := whole.regrown grows.toRegrown tidy.member
  have order := tidy.order_grown inserted site
  have displaceable := tidy.displaceable inserted led order
  rw [descendants_of_live whole.numbered tidy.member, led.holders_eq wholeGrown.numbered]
    at displaces
  obtain ⟨scope, siteTarget⟩ := exists_site_of_live led.member
  obtain ⟨gone, more, last, sunk, covers, early⟩ := sunk_displace wholeGrown
    (by rw [inserted.same]; exact tidy.bound) siteTarget displaceable
    (fun number listed => led.holder_live listed) displaces
  -- the stray children are displaced, whatever else is
  have taken : stray ⊆ gone := by
    intro number listed
    obtain ⟨_, _, child, below, rfl, _⟩ := tidy.stray_child inserted listed
    refine covers new (grows.live_new whole.numbered tidy.member) ?_ child below
      (tidy.stray_aside inserted led listed)
    rw [grows.grown.id_eq]
    simp [Rose.id]
  refine ⟨last, more, sunk.id_eq, sunk.whole, ?_, ?_, ?_, fun number listed => ?_⟩
  · rw [sunk.same, mapping_withTree, inserted.same]
    exact tidy.bound
  · exact mem_of_site (sunk.site wholeGrown siteTarget)
  · exact sunk.order wholeGrown siteTarget (everywhere_cutOff_mono taken order)
  · exact ⟨by rw [sunk.id_eq]; exact early number listed, sunk.adrift number listed⟩

theorem tidy_insertChain {chain : List (Shape AggNode)} {id : Nat}
    (tidy : Tidy mapping aggs old stray)
    (made : aggs.insertChain old.id chain = .ok (id, final)) :
    ∃ parent stray', parent.id = id ∧ Tidy mapping final parent stray' := by
  let Holds := fun (_ : List (Shape AggNode)) (reached : Aggregations) (position : Nat) =>
    ∃ parent stray', parent.id = position ∧ Tidy mapping reached parent stray'
  have ends : Holds [] final id := by
    refine insertChain_along ?_ ⟨old, stray, rfl, tidy⟩ made
    rintro shape rest middle position inserted grown ⟨parent, further, rfl, tidyMiddle⟩ first
    exact tidy_insertBetween tidyMiddle first
  exact ends

end Grouping

/-! ### What is stranded -/

/-- The nodes behind no marker, as seen from an outer one. -/
inductive Open (outer : Branch AggNode) : Branch AggNode → Prop
  | top : Open outer outer
  | down {parent child : Branch AggNode} : Open outer parent → child ∈ parent.children →
      child.content.boundary? = none → Open outer child

/-- The last clause of a grouping took over `head`, which is on no field and no marker, and a node
that hangs openly below it is on a field of another scope than that of the clause. -/
structure Stranded (mapping : Mapping) (aggs : Aggregations) (last head node : Branch AggNode) :
    Prop where
  grouped : last ∈ aggs.tree.nodes ∧ aggs.grouping = some last.id
  taken : head ∈ last.children ∧ head.id < last.id
  loose : head.content.field? = none ∧ head.content.boundary? = none
  hangs : Open head node
  strange : ∃ field, node.content.field? = some field ∧
    mapping.nestedAt field ≠ .ok (aggs.tree.currentScope last.id)

section Stranded

variable {mapping : Mapping} {aggs : Aggregations} {last head node parent : Branch AggNode}
  {around : Option String} {stray : List Nat}

theorem Open.site (hangs : Open head node) (plain : head.content.boundary? = none)
    (site : (head, around) ∈ sites none aggs.tree.branches) :
    (node, around) ∈ sites none aggs.tree.branches ∧ node.content.boundary? = none := by
  induction hangs with
  | top => exact ⟨site, plain⟩
  | down _ inside plainChild ih =>
      have here := child_site none _ ih.1 inside
      rw [within_plain ih.2] at here
      exact ⟨here, plainChild⟩

/-- The nodes that hang openly below a child run in the scope of its parent. -/
theorem Open.currentScope_eq (hangs : Open head node) (whole : Whole aggs.tree)
    (plain : head.content.boundary? = none) (member : parent ∈ aggs.tree.live)
    (below : head ∈ parent.children) :
    aggs.tree.currentScope node.id = aggs.tree.currentScope parent.id := by
  obtain ⟨around, site⟩ := exists_site_of_live member
  obtain ⟨siteNode, plainNode⟩ := hangs.site plain (child_site none _ site below)
  rw [currentScope_of_site whole.numbered siteNode, currentScope_of_site whole.numbered site,
    within_plain plainNode]

theorem Stranded.not_placed (stranded : Stranded mapping aggs last head node)
    (whole : Whole aggs.tree) :
    ¬Placed mapping node.content (aggs.tree.currentScope node.id) := by
  intro placed
  have member := stranded.grouped.1
  rw [nodes_eq_live whole.settled] at member
  obtain ⟨around, site⟩ := exists_site_of_live member
  obtain ⟨_, plain⟩ :=
    stranded.hangs.site stranded.loose.2 (child_site none _ site stranded.taken.1)
  obtain ⟨field, named, other⟩ := stranded.strange
  rw [stranded.hangs.currentScope_eq whole stranded.loose.2 member stranded.taken.1] at placed
  exact other (placed plain field named)

/-- In a branch that is moved to another scope, a node stands in the scope it stood in, unless it
hangs openly below the head. -/
theorem same_or_open (scope : Option String) (site : (head, around) ∈ sites none aggs.tree.branches) :
    ∀ node ∈ preorderAll [head], ∃ former now, (node, former) ∈ sites scope [head] ∧
      (node, now) ∈ sites none aggs.tree.branches ∧
      (within former node.content = within now node.content ∨ Open head node) := by
  refine forall_preorderAll ?_ ?_
  · intro top listed
    obtain rfl := List.mem_singleton.mp listed
    exact ⟨scope, around, top_site listed, site, Or.inr .top⟩
  · rintro parent ⟨former, now, before, after, meets⟩ child below
    refine ⟨_, _, child_site scope [head] before below, child_site none _ after below, ?_⟩
    rcases meets with same | hangs
    · exact Or.inl (by rw [same])
    · cases marks : child.content.boundary? with
      | some boundary => exact Or.inl (by rw [within_boundary marks, within_boundary marks])
      | none => exact Or.inr (hangs.down below marks)

theorem Tidy.placed_or_hangs (tidy : Tidy mapping aggs parent stray) (member : node ∈ aggs.tree.live) :
    Placed mapping node.content (aggs.tree.currentScope node.id) ∨
      ∃ head ∈ parent.children, head.id < parent.id ∧ loose head.content = true ∧
        Open head node := by
  have numbered := tidy.whole.numbered
  by_cases covered : ∃ head ∈ aggs.tree.live, head.id ∈ stray ∧ node.id ∈ numbers [head]
  · obtain ⟨head, live, listed, inside⟩ := covered
    obtain ⟨older, child, below, same, adrift⟩ := tidy.astray head.id listed
    have liveChild := mem_preorderAll_trans _ tidy.member (mem_preorderAll_of_mem below)
    obtain rfl := eq_of_id numbered.distinct liveChild live same
    obtain ⟨scope, order⟩ := adrift.2
    obtain ⟨around, site⟩ := exists_site_of_live live
    obtain ⟨former, now, before, after, meets⟩ := same_or_open scope site node
      (branch_of_mem_numbers numbered.distinct live member inside)
    refine meets.imp (fun same => ?_) fun hangs => ⟨child, below, older, adrift.loose_eq, hangs⟩
    have placed := (everywhere_shapes_iff scope [child]).mp order _ before
    rw [currentScope_of_site numbered after, ← same]
    exact placed
  · obtain ⟨around, site⟩ := exists_site_of_live member
    have kept := site_cutOff none aggs.tree.branches site fun head live listed inside =>
      covered ⟨head, live, listed, inside⟩
    rw [currentScope_of_site numbered site]
    exact Or.inl ((everywhere_shapes_iff none _).mp tidy.order _ kept)

/-- In a tidy request exactly what is stranded below the parent is out of its scope. -/
theorem Tidy.placed_iff (tidy : Tidy mapping aggs parent stray)
    (grouped : aggs.grouping = some parent.id) (member : node ∈ aggs.tree.nodes) :
    Placed mapping node.content (aggs.tree.currentScope node.id) ↔
      ¬∃ last head, Stranded mapping aggs last head node := by
  have whole := tidy.whole
  refine ⟨fun placed ⟨last, head, stranded⟩ => stranded.not_placed whole placed, fun free => ?_⟩
  rw [nodes_eq_live whole.settled] at member
  rcases tidy.placed_or_hangs member with placed | ⟨head, below, older, held, hangs⟩
  · exact placed
  · have loosely : head.content.field? = none ∧ head.content.boundary? = none := by
      simpa [loose] using held
    intro _ field named
    rw [hangs.currentScope_eq whole loosely.2 tidy.member below]
    by_contra other
    refine free ⟨parent, head, ⟨?_, grouped⟩, ⟨below, older⟩, loosely, hangs, field, named, other⟩
    rw [nodes_eq_live whole.settled]
    exact tidy.member

end Stranded

/-- A request in order before it is grouped is in order afterwards, but for what is stranded below
the clauses that the grouping took over. -/
theorem groupBy_keeps_scopes {mapping : Mapping} {aggs final : Aggregations}
    (whole : Whole aggs.tree) (bound : aggs.mapping = some mapping)
    (placed : ∀ node ∈ aggs.tree.nodes,
      Placed mapping node.content (aggs.tree.currentScope node.id))
    {input : Input} {below : Option String} (made : aggs.groupBy input below = .ok final) :
    ∀ node ∈ final.tree.nodes,
      Placed mapping node.content (final.tree.currentScope node.id) ↔
        ¬∃ last head, Stranded mapping final last head node := by
  intro node member
  have unmoved {node : Branch AggNode} {reached : Aggregations} (same : reached.tree = aggs.tree)
      (member : node ∈ reached.tree.nodes) :
      Placed mapping node.content (reached.tree.currentScope node.id) ↔
        ¬∃ last head, Stranded mapping reached last head node := by
    rw [same] at member ⊢
    refine iff_of_true (placed node member) fun ⟨last, head, stranded⟩ => ?_
    have lost := stranded.not_placed (same ▸ whole)
    rw [same] at lost
    exact lost (placed node member)
  obtain ⟨request, target, _, _, done⟩ := groupBy_ok made
  rcases done with ⟨_, rfl⟩ | ⟨last, moved, inserted, rfl⟩
  · exact unmoved rfl member
  · cases clauses : clausesOf request with
    | nil =>
        rw [clauses] at inserted
        cases Result.pure_ok.mp inserted
        exact unmoved rfl member
    | cons shape rest =>
        rw [clauses] at inserted
        obtain ⟨_, _, first, _⟩ := insertChain_ok inserted
        obtain ⟨⟨holder, live, rfl⟩, _⟩ := insertBetween_ok first
        have start : Tidy mapping aggs holder [] := by
          refine ⟨whole, bound, live, ?_, fun _ none => by cases none⟩
          rw [cutOff_of_apart _ fun _ _ none => by cases none]
          exact (everywhere_iff whole.numbered whole.settled).mpr placed
        obtain ⟨parent, stray, rfl, tidy⟩ := tidy_insertChain start inserted
        have grouped : Tidy mapping { moved with grouping := some parent.id } parent stray :=
          ⟨tidy.whole, tidy.bound, tidy.member, tidy.order, tidy.astray⟩
        exact grouped.placed_iff rfl member

def priceBelowFilter : Json :=
  .object [("top", .object [("global", .object []), ("aggs", .object [("all", .object [
    ("filter", .object [("match_all", .object [])]), ("aggs", .object [
      ("avg_price", .object [("avg", .object [("field", .string "price")])])])])])])]

def pricesBelowTop : Json :=
  .object [("top", .object [("global", .object []), ("aggs", .object [
    ("all", .object [("filter", .object [("match_all", .object [])]), ("aggs", .object [
      ("lost", .object [("avg", .object [("field", .string "price")])])])]),
    ("prices", .object [("terms", .object [("field", .string "price")]), ("aggs", .object [
      ("kept", .object [("avg", .object [("field", .string "price")])])])])])])]

def castRequest (json : Json) : Result Aggregations :=
  Operation.apply { mapping := some castMapping } (.add (.declaration json) none)

theorem whole_castRequest {json : Json} {aggs : Aggregations} (made : castRequest json = .ok aggs) :
    Whole aggs.tree ∧ aggs.mapping = some castMapping := by
  have ran : [Operation.add (.declaration json) none].foldlM Operation.apply
      { mapping := some castMapping } = .ok aggs := by
    rw [List.foldlM_cons, show Operation.apply _ _ = _ from made]
    rfl
  obtain ⟨soundEmpty, _⟩ := sound_empty (some castMapping) true
  refine ⟨(names_run soundEmpty _ ran).1.toWhole, ?_⟩
  obtain ⟨request, target, _, aimed, inserted⟩ := add_ok made
  cases (show Except.ok 0 = Except.ok target from aimed)
  have site : (.node ⟨⟨none, .root⟩, 0⟩ [], none) ∈
      sites none ({ mapping := some castMapping } : Aggregations).tree.branches := top_site (by
    simp [branches, ofShape, AggNode.emptyRequest, number, numberAll])
  obtain ⟨_, extended⟩ := inserted_insertShapes (clausesOf request) soundEmpty.toWhole rfl site
    inserted
  rw [extended.same]
  rfl

theorem groupBy_keeps_scopes_lost :
    ∃ aggs final, castRequest pricesBelowTop = .ok aggs ∧
      aggs.groupBy (genderTerms "by_gender") (some "top") = .ok final ∧
      ∀ node ∈ final.tree.nodes,
        (∃ last head, Stranded castMapping final last head node) ↔ node.key = some "lost" := by
  have outcome : (castRequest pricesBelowTop).toOption.any (fun aggs =>
      decide (∀ node ∈ aggs.tree.nodes,
        Placed castMapping node.content (aggs.tree.currentScope node.id)) &&
      (aggs.groupBy (genderTerms "by_gender") (some "top")).toOption.any fun final =>
        decide (∀ node ∈ final.tree.nodes,
          ¬Placed castMapping node.content (final.tree.currentScope node.id) ↔
            node.key = some "lost")) = true := by
    decide +kernel
  obtain ⟨aggs, made, outcome⟩ := Result.ok_of_any outcome
  rw [Bool.and_eq_true, decide_eq_true_eq] at outcome
  obtain ⟨final, grouped, lost⟩ := Result.ok_of_any outcome.2
  obtain ⟨whole, bound⟩ := whole_castRequest made
  refine ⟨aggs, final, made, grouped, fun node member => ?_⟩
  rw [← of_decide_eq_true lost node member,
    groupBy_keeps_scopes whole bound outcome.1 grouped node member, not_not]

/-- A filter that is moved takes what is below it out of its scope. -/
theorem groupBy_loses_scope :
    ∃ aggs final, castRequest priceBelowFilter = .ok aggs ∧
      (∀ node ∈ aggs.tree.nodes,
        Placed castMapping node.content (aggs.tree.currentScope node.id)) ∧
      aggs.groupBy (genderTerms "by_gender") (some "top") = .ok final ∧
      ∃ node ∈ final.tree.nodes,
        ¬Placed castMapping node.content (final.tree.currentScope node.id) := by
  have outcome : (castRequest priceBelowFilter).toOption.any (fun aggs =>
      decide (∀ node ∈ aggs.tree.nodes,
        Placed castMapping node.content (aggs.tree.currentScope node.id)) &&
      (aggs.groupBy (genderTerms "by_gender") (some "top")).toOption.any fun final =>
        decide (∃ node ∈ final.tree.nodes,
          ¬Placed castMapping node.content (final.tree.currentScope node.id))) = true := by
    decide +kernel
  obtain ⟨aggs, made, outcome⟩ := Result.ok_of_any outcome
  rw [Bool.and_eq_true, decide_eq_true_eq] at outcome
  obtain ⟨final, grouped, lost⟩ := Result.ok_of_any outcome.2
  exact ⟨aggs, final, made, outcome.1, grouped, of_decide_eq_true lost⟩

end Aggregations

end ScopedClauses
