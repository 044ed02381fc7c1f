import ScopedClauses.Proofs.Query.Widening

/-!
Clauses that are put into a new `bool`. The positions they held lead to the `must` of that `bool`
from then on, and there they are the first ones.
-/

namespace ScopedClauses

namespace Query

open Rose Tree Weaving QueryNode

variable {query final : Query} {position : Position} {compound slot id occupant : Nat}
  {name : String} {node : QueryNode} {key : Option String}

theorem occupant?_must (structured : query.Structured Known) (bool : query.isBool compound = true)
    (found : query.findSlot? compound "must" = some slot) : query.occupant? slot = none := by
  obtain ⟨below, ⟨node, got⟩, place, gotSlot, named⟩ := slot_of_found structured.numbered found
  rw [isBool_of_get? got] at bool
  obtain ⟨holder, looked, rfl⟩ := Option.map_eq_some_iff.mp got
  obtain ⟨member, rfl⟩ := live_of_find? looked
  have holds := holds_iff.mpr (structured.holds member).1
  obtain ⟨clause, content, kind⟩ := kind_of_isBool holds bool
  rw [children_of_live structured.numbered member] at below
  obtain ⟨child, inside, rfl⟩ := List.mem_map.mp below
  have live := mem_preorderAll_trans _ member (mem_preorderAll_of_mem inside)
  rw [get?_live structured.numbered live] at gotSlot
  rw [content] at holds
  obtain ⟨own, same, declares⟩ := holds.2.1 child.content (by
    rw [contents_shapes]
    exact List.mem_map_of_mem inside)
  rw [Option.some.inj gotSlot] at same
  cases same
  rw [named, kind, boolean_must, Option.some.injEq] at declares
  rw [occupant?_of_get? ((get?_live structured.numbered live).trans gotSlot), ← declares]
  rfl

structure Wraps (query : Query) (occupant outer must : Nat) (final : Query) : Prop where
  numbered : final.tree.Numbered
  contents : ∀ {id node}, query.tree.get? id = some node → final.tree.get? id = some node
  scopes : ∀ {id node}, query.tree.get? id = some node →
    final.tree.currentScope id = query.tree.currentScope id
  root : final.tree.rootId? =
    if query.tree.rootId? = some occupant then some outer else query.tree.rootId?
  children : ∀ {id node}, query.tree.get? id = some node → final.tree.children id =
    if occupant ∈ query.tree.children id then [outer] else query.tree.children id
  alone : ∀ {id}, occupant ∈ query.tree.children id →
    query.tree.children id = [occupant] ∧ query.occupant? id = some occupant
  bare : ∀ place, query.tree.get? occupant ≠ some (.slot place)
  bool : final.isBool outer = true
  found : final.findSlot? outer "must" = some must
  below : final.tree.children must = [occupant]

namespace Wraps

variable {outer must : Nat} (wraps : query.Wraps occupant outer must final)
  (structured : query.Structured Known)

include wraps

theorem slotted_must : final.slotted outer "must" = [occupant] := by
  rw [slotted_of_found wraps.found, wraps.below]

theorem standing_held (held : query.held? position = some occupant) :
    query.standing position = [occupant] := by
  cases position with
  | top =>
      rw [held?] at held
      rw [standing, held]
      rfl
  | slot compound name =>
      obtain ⟨slot, found, met⟩ := Option.bind_eq_some_iff.mp held
      rw [standing, slotted_of_found found, (wraps.alone (child_of_occupant? met)).1]

include structured

theorem findSlot? (found : query.findSlot? compound name = some slot) :
    final.findSlot? compound name = some slot := by
  obtain ⟨below, ⟨node, got⟩, place, gotSlot, _⟩ := slot_of_found structured.numbered found
  have kept : occupant ∉ query.tree.children compound := fun inside => by
    rw [(wraps.alone inside).1, List.mem_singleton] at below
    exact wraps.bare place (below ▸ gotSlot)
  rw [Query.findSlot?] at found ⊢
  refine findChild?_kept structured.numbered wraps.numbered (fun _ _ => wraps.contents) ?_ found
  rw [wraps.children got, if_neg kept]

theorem held?_outer (held : query.held? position = some occupant) :
    final.held? position = some outer := by
  cases position with
  | top =>
      rw [held?] at held ⊢
      rw [wraps.root, if_pos held]
  | slot compound name =>
      obtain ⟨slot, found, met⟩ := Option.bind_eq_some_iff.mp held
      obtain ⟨_, _, place, got, _⟩ := slot_of_found structured.numbered found
      rw [held?, wraps.findSlot? structured found, Option.bind_some,
        occupant?_of_get? (wraps.contents got), wraps.children got, if_pos (child_of_occupant? met)]
      rw [occupant?_of_get? got] at met
      split at met
      · cases met
      · rename_i single
        rw [if_neg single]
        rfl

theorem held?_other (position : Position) (other : query.held? position ≠ some occupant) :
    (query.held? position = none ∧ query.standing position = []) ∨
      final.held? position = query.held? position ∧
        final.standing position = query.standing position := by
  cases position with
  | top =>
      rw [held?] at other
      rw [held?, held?, standing, standing, wraps.root, if_neg other]
      exact Or.inr ⟨rfl, rfl⟩
  | slot compound name =>
      simp only [held?, standing] at other ⊢
      cases found : query.findSlot? compound name with
      | none => exact Or.inl ⟨rfl, by rw [slotted, found]⟩
      | some slot =>
          obtain ⟨_, _, place, got, _⟩ := slot_of_found structured.numbered found
          have apart : occupant ∉ query.tree.children slot := fun inside =>
            other (by rw [found, Option.bind_some, (wraps.alone inside).2])
          have kept := wraps.findSlot? structured found
          have below : final.tree.children slot = query.tree.children slot := by
            rw [wraps.children got, if_neg apart]
          rw [kept, Option.bind_some, Option.bind_some, occupant?_of_get? got,
            occupant?_of_get? (wraps.contents got), slotted_of_found found, slotted_of_found kept, below]
          exact Or.inr ⟨rfl, rfl⟩

theorem slotted_bool (bool : query.isBool compound = true) :
    query.slotted compound "must" <+: final.slotted compound "must" := by
  have other : query.held? (.slot compound "must") ≠ some occupant := fun held => by
    obtain ⟨slot, found, met⟩ := Option.bind_eq_some_iff.mp held
    rw [occupant?_must structured bool found] at met
    cases met
  rcases wraps.held?_other structured (.slot compound "must") other with
    ⟨_, empty⟩ | ⟨_, same⟩
  · rw [standing] at empty
    simp [empty]
  · rw [standing, standing] at same
    rw [same]

theorem widens (plain : query.isBool occupant = false) : query.Widens final := by
  refine ⟨wraps.contents, wraps.scopes, fun position => ?_⟩
  by_cases here : query.held? position = some occupant
  · have stays : ∀ clause, query.held? position = some clause → query.isBool clause = false := by
      intro clause held
      rw [here] at held
      cases held
      exact plain
    rw [clausesAt_of_plain stays, wraps.standing_held here,
      clausesAt_of_bool (wraps.held?_outer structured here) wraps.bool, wraps.slotted_must]
  · have same : ∀ clause, query.held? position = some clause →
        final.isBool clause = query.isBool clause := by
      intro clause held
      obtain ⟨node, got⟩ := known_of_held structured.numbered held
      exact isBool_congr ((wraps.contents got).trans got.symm)
    rcases wraps.held?_other structured position here with
      ⟨nothing, empty⟩ | ⟨held, standing⟩
    · have stays : ∀ clause, query.held? position = some clause → query.isBool clause = false := by
        simp [nothing]
      rw [clausesAt_of_plain stays, empty]
      exact List.nil_prefix
    · rcases bool_or_plain query position with ⟨clause, holds, bool⟩ | stays
      · rw [clausesAt_of_bool holds bool,
          clausesAt_of_bool (held.trans holds) ((same clause holds).trans bool)]
        exact wraps.slotted_bool structured bool
      · have after : ∀ clause, final.held? position = some clause → final.isBool clause = false := by
          intro clause holds
          rw [held] at holds
          rw [same clause holds, stays clause holds]
        rw [clausesAt_of_plain stays, clausesAt_of_plain after, standing]

end Wraps

/-! ### What joining leaves -/

def Rerouted (old new : List (Entry QueryNode)) : Prop :=
  ∃ front between back, old = front ++ back ∧ new = front ++ between ++ back ∧
    (between ≠ [] → front ≠ []) ∧ ∀ entry ∈ between, entry.content.nestedPath? = none

theorem Rerouted.refl (way : List (Entry QueryNode)) : Rerouted way way :=
  ⟨way, [], [], by simp, by simp, by simp, by simp⟩

theorem Rerouted.append {old new : List (Entry QueryNode)} (rerouted : Rerouted old new)
    (outer : List (Entry QueryNode)) : Rerouted (old ++ outer) (new ++ outer) := by
  obtain ⟨front, between, back, rfl, rfl, starts, plain⟩ := rerouted
  exact ⟨front, between, back ++ outer, by simp, by simp, starts, plain⟩

theorem get?_rerouted {before after : Tree QueryNode}
    (rerouted : Rerouted (lineage id before.branches) (lineage id after.branches)) :
    after.get? id = before.get? id := by
  obtain ⟨front, between, back, old, new, starts, _⟩ := rerouted
  rw [get?_eq_lineage, get?_eq_lineage, old, new]
  cases front with
  | nil =>
      have none : between = [] := Decidable.byContradiction fun some => starts some rfl
      rw [none]
      rfl
  | cons first rest => rfl

theorem currentScope_rerouted {before after : Tree QueryNode}
    (rerouted : Rerouted (lineage id before.branches) (lineage id after.branches)) :
    after.currentScope id = before.currentScope id := by
  obtain ⟨front, between, back, old, new, _, plain⟩ := rerouted
  have passed : (between.findSome? fun entry => Scoped.boundary? entry.content) = none := by
    refine List.findSome?_eq_none_iff.mpr fun entry listed => ?_
    simp [Scoped.boundary?, plain entry listed]
  rw [currentScope_eq_lineage, currentScope_eq_lineage, old, new]
  simp only [List.findSome?_append, passed, Option.or_none]

theorem rerouted_joined {outer must occupant : Branch QueryNode}
    (distinct : (numbers [outer]).Nodup) (outerBelow : outer.children = [must])
    (mustBelow : must.children = [occupant]) (outerPlain : outer.content.nestedPath? = none)
    (mustPlain : must.content.nestedPath? = none) {number : Nat}
    (inside : number ∈ numbers [occupant]) :
    Rerouted (lineage number [occupant]) (lineage number [outer]) := by
  obtain ⟨outerLabel, outerChildren⟩ := outer
  obtain ⟨mustLabel, mustChildren⟩ := must
  cases outerBelow
  cases mustBelow
  obtain ⟨notOuter, _, belowOuter, _, _⟩ := distinct_cons distinct
  obtain ⟨notMust, _, _, _, _⟩ := distinct_cons belowOuter
  have inMust : number ∈ numbers [.node mustLabel [occupant]] := by
    simp [inside]
  have way : lineage number [.node outerLabel [.node mustLabel [occupant]]] =
      lineage number [occupant] ++ [mustLabel, outerLabel] := by
    rw [lineage_below (fun same => notOuter (same ▸ inMust)) inMust,
      lineage_below (fun same => notMust (same ▸ inside)) inside, List.append_assoc]
    rfl
  refine ⟨lineage number [occupant], [mustLabel, outerLabel], [], by simp, by simp [way], fun _ => ?_,
    by simpa using ⟨mustPlain, outerPlain⟩⟩
  rw [Ne, lineage_eq_nil_iff]
  exact fun outside => outside inside

theorem nestedPath?_of_keyed {branch : Branch QueryNode} (keyed : branch.label.toKeyed = ⟨key, node⟩) :
    branch.content.nestedPath? = node.nestedPath? :=
  congrArg (·.content.nestedPath?) keyed

theorem wraps_of_live {outer must occupant : Branch QueryNode} (whole : query.Whole)
    (numbered : final.tree.Numbered) (live : occupant ∈ query.tree.live)
    (bare : occupant.content.slot? = none) (liveOuter : outer ∈ final.tree.live)
    (outerKeyed : outer.label.toKeyed = ⟨none, QueryNode.emptyBool⟩) (outerBelow : outer.children = [must])
    (mustKeyed : must.label.toKeyed = ⟨some "must", .slot mustPlace⟩)
    (mustBelow : must.children = [occupant])
    (ways : ∀ number ∈ numbers query.tree.branches,
      Rerouted (lineage number query.tree.branches) (lineage number final.tree.branches))
    (root : final.tree.rootId? =
      if query.tree.rootId? = some occupant.id then some outer.id else query.tree.rootId?)
    (children : ∀ number ∈ numbers query.tree.branches, final.tree.children number =
      if occupant.id ∈ query.tree.children number then [outer.id] else query.tree.children number)
    (alone : ∀ number, occupant.id ∈ query.tree.children number →
      query.tree.children number = [occupant.id] ∧ query.occupant? number = some occupant.id) :
    query.Wraps occupant.id outer.id must.id final := by
  have liveMust : must ∈ final.tree.live :=
    mem_preorderAll_trans _ liveOuter (mem_preorderAll_of_mem (by simp [outerBelow]))
  have outerContent : outer.content = QueryNode.emptyBool := congrArg Keyed.content outerKeyed
  have mustContent : must.content = .slot mustPlace := congrArg Keyed.content mustKeyed
  have below : final.tree.children outer.id = [must.id] := by
    rw [children_of_live numbered liveOuter, outerBelow]
    rfl
  refine ⟨numbered, fun got => ?_, fun got => ?_, root, fun got => children _ (mem_numbers_of_get? got),
    alone _, fun place got => ?_, ?_, ?_, ?_⟩
  · rw [get?_rerouted (ways _ (mem_numbers_of_get? got)), got]
  · exact currentScope_rerouted (ways _ (mem_numbers_of_get? got))
  · rw [get?_live whole.numbered live, Option.some.injEq] at got
    rw [got] at bare
    cases bare
  · rw [isBool_live numbered liveOuter, outerContent]
    rfl
  · rw [Query.findSlot?, findChild?_eq numbered, below, List.find?_singleton,
      get?_live numbered liveMust, mustContent]
    rfl
  · rw [children_of_live numbered liveMust, mustBelow]
    rfl

theorem rerouted_slot {before after : Tree QueryNode} (numbered : before.Numbered)
    {entry : Entry QueryNode} {outer must occupant : Branch QueryNode}
    (member : .node entry [occupant] ∈ before.live)
    (grew : Regrown before (.node entry [occupant]) (.node entry [outer]) after)
    (outerBelow : outer.children = [must]) (mustBelow : must.children = [occupant])
    (outerPlain : outer.content.nestedPath? = none) (mustPlain : must.content.nestedPath? = none)
    {number : Nat} (present : number ∈ numbers before.branches) :
    Rerouted (lineage number before.branches) (lineage number after.branches) := by
  have known : ∀ other ∈ numbers [.node entry [outer]], other ∈ numbers before.branches →
      other ∈ numbers [.node entry [occupant]] := by
    intro other inside old
    have bound := numbered.bounded other old
    exact (grew.fresh other inside).resolve_right fun new => by omega
  rw [grew.branches]
  by_cases inside : number ∈ numbers [.node entry [occupant]]
  · have stays : ∀ other, other ∈ numbers [occupant] → other ∈ numbers [outer] := by
      intro other below
      rw [← node_eta outer, outerBelow, ← node_eta must, mustBelow]
      simp [below]
    have whole := numbered.distinct.sublist (sublist_numbers _ member)
    obtain ⟨notOld, _⟩ := distinct_cons whole
    obtain ⟨notNew, _, distinct, _⟩ := distinct_cons grew.distinct
    have alone : Rerouted (lineage number [.node entry [occupant]])
        (lineage number [.node entry [outer]]) := by
      by_cases own : entry.id = number
      · subst own
        rw [lineage_here, lineage_here]
        exact .refl _
      · have below : number ∈ numbers [occupant] := by
          simpa [Ne.symm own] using inside
        rw [lineage_below own below, lineage_below own (stays number below)]
        exact (rerouted_joined distinct outerBelow mustBelow outerPlain mustPlain below).append [entry]
    have inNew : number ∈ numbers [.node entry [outer]] := by
      rw [numbers_cons] at inside ⊢
      simp only [numbers_nil, List.append_nil, List.mem_cons] at inside ⊢
      exact inside.imp_right (stays number)
    rw [lineage_inside numbered.distinct member inside,
      lineage_replaced numbered.distinct member known inNew]
    exact alone.append _
  · have label : (Rose.node entry [outer]).label = (Rose.node entry [occupant]).label := rfl
    rw [lineage_updateAt_of_not_mem numbered.distinct member label inside
      fun inNew => inside (known number inNew present)]
    exact .refl _

theorem wraps_slot (whole : query.Whole) {entry : Entry QueryNode} {occupant : Branch QueryNode}
    (member : .node entry [occupant] ∈ query.tree.live) {place : Slot}
    (content : entry.content = .slot place) (single : place.multiple = false)
    (bare : occupant.content.slot? = none) {outer must : Nat}
    (wrapped : query.wrapInBool occupant.id = .ok (outer, must, final)) :
    query.Wraps occupant.id outer must final := by
  obtain ⟨bool, slot, after, made, boolKeyed, boolBelow, slotKeyed, slotBelow, grew⟩ :=
    wrapInBool_slot whole member content bare
  cases made.symm.trans wrapped
  have live : occupant ∈ query.tree.live :=
    mem_preorderAll_trans _ member (mem_preorderAll_of_mem (by simp))
  have numbered := grew.numbered whole.numbered member
  have liveEntry := grew.live_new whole.numbered member
  have liveBool : bool ∈ after.live :=
    mem_preorderAll_trans _ liveEntry (mem_preorderAll_of_mem (by simp))
  have parent := parent?_of_child whole.numbered member (List.mem_singleton_self occupant)
  have here : ∀ {number}, occupant.id ∈ query.tree.children number → number = entry.id := by
    intro number below
    have again := parent?_of_mem_children whole.numbered below
    rw [parent] at again
    exact (Option.some.inj again).symm
  have children := children_of_live whole.numbered member
  rw [id_node, children_node, List.map_singleton] at children
  refine wraps_of_live whole numbered live bare liveBool boolKeyed boolBelow slotKeyed slotBelow
    (fun number present => ?_) ?_ (fun number present => ?_) (fun number below => ?_)
  · exact rerouted_slot whole.numbered member grew boolBelow slotBelow
      (nestedPath?_of_keyed boolKeyed)
      (nestedPath?_of_keyed slotKeyed) present
  · rw [if_neg]
    · exact grew.rootId? rfl
    · intro rooted
      have top := (whole.numbered.linked.root rooted).2
      rw [parent] at top
      cases top
  · by_cases own : number = entry.id
    · have grown := children_of_live numbered liveEntry
      subst own
      rw [children, if_pos (List.mem_singleton_self _)]
      exact grown
    · rw [if_neg fun below => own (here below)]
      refine grew.children_elsewhere whole.numbered member rfl (fun branch below => ?_) present own
      rw [children_node] at below ⊢
      rw [← node_eta bool, boolBelow, ← node_eta slot, slotBelow]
      simp [below]
  · rw [here below]
    refine ⟨children, ?_⟩
    have holds : query.tree.get? entry.id = some (.slot place) := by
      have got := get?_live whole.numbered member
      rw [id_node, content_node, content] at got
      exact got
    rw [occupant?_of_get? holds, children, single]
    rfl

theorem wraps_root (whole : query.Whole) {root : Branch QueryNode}
    (rooted : query.tree.root = some root) (bare : root.content.slot? = none) {outer must : Nat}
    (wrapped : query.wrapInBool root.id = .ok (outer, must, final)) :
    query.Wraps root.id outer must final := by
  obtain ⟨bool, slot, after, rfl, rfl, rfl, wholeAfter, only, rootIs, grown, boolKeyed, boolBelow,
    slotKeyed, slotBelow⟩ := wrapInBool_root_ok whole rooted wrapped
  have numbered : after.Numbered := wholeAfter.numbered
  have live : root ∈ query.tree.live := mem_preorderAll_of_mem (by simp [only])
  have liveBool : bool ∈ after.live := mem_preorderAll_of_mem (by simp [grown])
  have distinct := numbered.distinct
  rw [grown] at distinct
  have top : ∀ {number}, root.id ∉ query.tree.children number := by
    intro number below
    have parent := parent?_of_mem_children whole.numbered below
    rw [parent?_of_top whole.numbered (by simp [only])] at parent
    cases parent
  refine wraps_of_live whole numbered live bare liveBool boolKeyed boolBelow slotKeyed slotBelow
    (fun number present => ?_) ?_ (fun number present => ?_) (fun number below => absurd below top)
  · rw [tree_withTree, only, grown]
    rw [only] at present
    exact rerouted_joined distinct boolBelow slotBelow
      (nestedPath?_of_keyed boolKeyed)
      (nestedPath?_of_keyed slotKeyed) present
  · rw [tree_withTree, rootId?, rootIs, rootId?_root rooted, if_pos rfl]
    rfl
  · rw [if_neg top]
    obtain ⟨branch, member, rfl⟩ := exists_of_mem_numbers present
    have liveSlot : slot ∈ after.live :=
      mem_preorderAll_trans _ liveBool (mem_preorderAll_of_mem (by simp [boolBelow]))
    have liveRoot : root ∈ after.live :=
      mem_preorderAll_trans _ liveSlot (mem_preorderAll_of_mem (by simp [slotBelow]))
    have inside : branch ∈ preorderAll [root] := only ▸ member
    rw [children_of_live whole.numbered member]
    exact children_of_live numbered (live_of_branches liveRoot inside)

end Query

end ScopedClauses
