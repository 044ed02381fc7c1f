import ScopedClauses.Proofs.Scope.Cutting

/-!
Branches that grow. Nodes keep their ways, and whatever part of the branch was in order stays
so; children that are not in order in their new place are named.
-/

namespace ScopedClauses

namespace Rose

variable {N : Type}

def putAt (number : Nat) (new branch : Branch N) : Branch N :=
  update (·.id = number) (fun _ => new) branch

theorem updateAt_singleton (number : Nat) (new branch : Branch N) :
    updateAt number (fun _ => new) [branch] = [putAt number new branch] := rfl

theorem putAt_self (new branch : Branch N) : putAt branch.id new branch = new := by
  obtain ⟨label, children⟩ := branch
  simp [putAt, update]

theorem label_putAt {old branch new : Branch N} (distinct : (numbers [old]).Nodup)
    (member : branch ∈ preorderAll [old]) (same : new.label = branch.label) :
    (putAt branch.id new old).label = old.label := by
  obtain ⟨label, children⟩ := old
  simp only [putAt, update, decide_eq_true_eq]
  split
  · rename_i here
    rw [same, eq_of_id distinct member (self_mem _) here.symm]
  · rfl

theorem updateAt_inside {forest : List (Branch N)} (distinct : (numbers forest).Nodup)
    {outer old : Branch N} (member : outer ∈ preorderAll forest) (within : old ∈ preorderAll [outer])
    (new : Branch N) :
    updateAt old.id (fun _ => new) forest = updateAt outer.id (fun _ => putAt old.id new outer) forest := by
  have twice := updateAt_updateAt forest distinct outer member
    (fun _ => id_mem_numbers within) (fun _ => new)
  rw [updateAt_self forest distinct member] at twice
  exact twice

theorem numbers_putAt {old branch : Branch N} (distinct : (numbers [old]).Nodup)
    (member : branch ∈ preorderAll [old]) (new : Branch N) :
    (numbers [putAt branch.id new old] ++ numbers [branch]).Perm
      (numbers [old] ++ numbers [new]) := by
  rw [← updateAt_singleton]
  exact numbers_updateAt [old] distinct new member

theorem mem_numbers_putAt {old branch new : Branch N} (distinct : (numbers [old]).Nodup)
    (member : branch ∈ preorderAll [old]) {number : Nat}
    (inside : number ∈ numbers [putAt branch.id new old]) :
    number ∈ numbers [old] ∨ number ∈ numbers [new] :=
  List.mem_append.mp ((numbers_putAt distinct member new).subset (List.mem_append_left _ inside))

theorem lineage_append_left {number : Nat} {front : List (Branch N)} (back : List (Branch N))
    (inside : number ∈ numbers front) : lineage number (front ++ back) = lineage number front := by
  induction front with
  | nil => simp at inside
  | cons branch rest ih =>
      obtain ⟨label, children⟩ := branch
      rw [List.cons_append, lineage_cons, lineage_cons]
      simp only [numbers_cons, List.mem_cons, List.mem_append] at inside
      by_cases here : label.id = number
      · rw [if_pos here, if_pos here]
      · rw [if_neg here, if_neg here]
        by_cases below : number ∈ numbers children
        · rw [if_pos below, if_pos below]
        · rw [if_neg below, if_neg below]
          exact ih ((inside.resolve_left (Ne.symm here)).resolve_left below)

theorem lineage_append_right {number : Nat} {front : List (Branch N)} (back : List (Branch N))
    (absent : number ∉ numbers front) : lineage number (front ++ back) = lineage number back := by
  induction front with
  | nil => rfl
  | cons branch rest ih =>
      obtain ⟨label, children⟩ := branch
      simp only [numbers_cons, List.mem_cons, List.mem_append, not_or] at absent
      rw [List.cons_append, lineage_beside (Ne.symm absent.1) absent.2.1, ih absent.2.2]

theorem lineage_extended {holder child : Branch N} {number : Nat} (inside : number ∈ numbers [child])
    (absent : number ∉ numbers [holder]) :
    lineage number [Tree.extended holder child] = lineage number [child] ++ [holder.label] := by
  obtain ⟨label, children⟩ := holder
  simp only [numbers_cons, numbers_nil, List.append_nil, List.mem_cons, not_or] at absent
  have present : number ∈ numbers (children ++ [child]) := by simp [numbers_append, inside]
  rw [Tree.extended, label_node, children_node, lineage_below (Ne.symm absent.1) present,
    lineage_append_right _ absent.2]

theorem lineage_extended_of_mem {holder : Branch N} (child : Branch N) {number : Nat}
    (inside : number ∈ numbers [holder]) :
    lineage number [Tree.extended holder child] = lineage number [holder] := by
  obtain ⟨label, children⟩ := holder
  rw [Tree.extended, lineage_cons, lineage_cons, label_node, children_node]
  by_cases here : label.id = number
  · rw [if_pos here, if_pos here]
  · have below : number ∈ numbers children := by
      simp only [numbers_cons, numbers_nil, List.append_nil, List.mem_cons] at inside
      exact inside.resolve_left (Ne.symm here)
    rw [if_neg here, if_neg here, if_pos (by simp [numbers_append, below]), if_pos below,
      lineage_append_left _ below]

@[simp] theorem lineage_bud (key : Option String) (content : N) (number : Nat) :
    lineage number [Tree.bud key content number] = [⟨⟨key, content⟩, number⟩] :=
  lineage_here ⟨⟨key, content⟩, number⟩ [] []

theorem mem_children_putAt {old here new child : Branch N} (distinct : (numbers [old]).Nodup)
    (inside : here ∈ preorderAll [old]) (below : child ∈ old.children)
    (apart : here.id ∉ numbers [child]) (kept : here = old → child ∈ new.children) :
    child ∈ (putAt here.id new old).children := by
  by_cases same : here.id = old.id
  · obtain rfl := eq_of_id distinct inside (self_mem old) same
    rw [putAt_self]
    exact kept rfl
  · obtain ⟨label, children⟩ := old
    have other : child.id ≠ here.id := fun found => apart (found ▸ id_mem_numbers (self_mem child))
    have absent : here.id ∉ numbers child.children := fun within =>
      apart ((numbers_children_sublist child).subset within)
    have stays : _ ∈ updateAt here.id (fun _ => new) children := mem_updateAt_top below other
    rw [updateAt_of_not_mem _ _ absent, node_eta] at stays
    rw [putAt, update, if_neg (by simpa using Ne.symm same)]
    exact stays

variable [Scoped N] {good : N → Option String → Prop}

def Spares (old new : Branch N) : Prop :=
  ∀ child ∈ old.children, Scoped.boundary? child.content = none → child ∈ new.children

theorem Spares.refl (branch : Branch N) : Spares branch branch := fun _ below _ => below

theorem Spares.trans {old mid new : Branch N} (first : Spares old mid) (second : Spares mid new) :
    Spares old new := fun child below plain => second child (first child below plain) plain

/-- What grows behind boundaries only spares the other children. -/
theorem spares_putAt {old here new : Branch N} (distinct : (numbers [old]).Nodup)
    (inside : here ∈ preorderAll [old]) {markers : List (Entry N)}
    (way : lineage here.id [old] = markers ++ [old.label])
    (marked : ∀ marker ∈ markers, (Scoped.boundary? marker.content).isSome)
    (kept : ∀ child ∈ here.children, child ∈ new.children) : Spares old (putAt here.id new old) := by
  intro child below plain
  refine mem_children_putAt distinct inside below (fun within => ?_) fun same =>
    kept child (same ▸ below)
  have line := lineage_child distinct (self_mem old) below
  have member := mem_preorderAll_trans [old] (self_mem old) (mem_preorderAll_of_mem below)
  have passed := (passes_iff distinct member).mpr within
  rw [way, List.map_append, List.mem_append] at passed
  rcases passed with onWay | top
  · obtain ⟨marker, listed, same⟩ := List.mem_map.mp onWay
    obtain ⟨front, back, split⟩ := List.append_of_mem listed
    rw [split, List.append_assoc, List.cons_append] at way
    have suffix := lineage_suffix distinct way
    rw [same, line] at suffix
    have held := marked marker listed
    rw [← (List.cons.inj suffix).1, show child.label.content = child.content from rfl, plain] at held
    cases held
  · refine not_mem_children distinct (self_mem old) ?_
    have same : child.id = old.id := List.mem_singleton.mp top
    exact same ▸ id_mem_numbers (mem_preorderAll_of_mem below)

theorem Spares.at_new {old more here new : Branch N} (spares : Spares old more)
    (distinct : (numbers [more]).Nodup) (inside : here ∈ preorderAll [more])
    (same : more.id = old.id) (fresh : here.id ∉ numbers [old]) :
    Spares old (putAt here.id new more) := by
  intro child below plain
  have part := sublist_numbers [old]
    (mem_preorderAll_trans _ (self_mem old) (mem_preorderAll_of_mem below))
  refine mem_children_putAt distinct inside (spares child below plain)
    (fun within => fresh (part.subset within)) fun top => absurd ?_ fresh
  rw [top, same]
  exact id_mem_numbers (self_mem old)

/-- The branch `new` is the branch `old` grown, in the scope `around`; the children under the
numbers `more` need not be in order. -/
structure Grown (good : N → Option String → Prop) (around : Option String) (more : List Nat)
    (old new : Branch N) : Prop where
  label : new.label = old.label
  lines : ∀ number ∈ numbers [old], lineage number [new] = lineage number [old]
  keeps : ∀ gone, Everywhere good around (shapes (cutOff gone [old])) →
    Everywhere good around (shapes (cutOff (gone ++ more) [new]))

namespace Grown

variable {around inner : Option String} {more further : List Nat} {old mid new : Branch N}

theorem refl (branch : Branch N) : Grown good around [] branch branch :=
  ⟨rfl, fun _ _ => rfl, fun gone holds => by rwa [List.append_nil]⟩

theorem id_eq (grown : Grown good around more old new) : new.id = old.id :=
  congrArg Entry.id grown.label

theorem mem (grown : Grown good around more old new) {number : Nat}
    (inside : number ∈ numbers [old]) : number ∈ numbers [new] := by
  refine Decidable.byContradiction fun absent => ?_
  have way := grown.lines number inside
  rw [lineage_of_not_mem absent, eq_comm, lineage_eq_nil_iff] at way
  exact way inside

theorem trans (first : Grown good around more old mid) (second : Grown good around further mid new) :
    Grown good around (more ++ further) old new := by
  refine ⟨second.label.trans first.label, fun number inside => ?_, fun gone holds => ?_⟩
  · rw [second.lines number (first.mem inside), first.lines number inside]
  · rw [← List.append_assoc]
    exact second.keeps _ (first.keeps gone holds)

theorem inside {branch grown : Branch N} (distinct : (numbers [old]).Nodup)
    (site : (branch, inner) ∈ sites around [old])
    (known : ∀ number ∈ numbers [grown], number ∈ numbers [old] → number ∈ numbers [branch])
    (growth : Grown good inner more branch grown) :
    Grown good around more old (putAt branch.id grown old) := by
  have member := mem_of_site site
  refine ⟨label_putAt distinct member growth.label, fun number present => ?_, fun gone holds => ?_⟩
  · rw [← updateAt_singleton]
    by_cases within : number ∈ numbers [branch]
    · rw [lineage_replaced distinct member known (growth.mem within), growth.lines number within,
        ← lineage_inside distinct member within]
    · exact lineage_updateAt_of_not_mem distinct member growth.label within
        fun new => within (known number new present)
  · rw [← updateAt_singleton]
    refine everywhere_cutOff_updateAt (List.subset_append_left gone more) around [old] distinct
      member holds fun other otherSite here => ?_
    rw [site_unique distinct otherSite site] at here ⊢
    exact growth.keeps gone here

theorem extended {holder child : Branch N} (order : child.id ∈ more ∨
    Everywhere good (within around holder.content) [child.shape]) :
    Grown good around more holder (Tree.extended holder child) := by
  refine ⟨rfl, fun number present => lineage_extended_of_mem child present, fun gone holds => ?_⟩
  obtain ⟨label, children⟩ := holder
  rw [Tree.extended, label_node, children_node, cutOff_cons]
  by_cases cut : label.id ∈ gone ++ more
  · rw [if_pos cut]
    trivial
  · rw [cutOff_cons, if_neg fun early => cut (List.mem_append_left _ early), shapes_cons,
      everywhere_cons] at holds
    rw [if_neg cut, shapes_cons, everywhere_cons, cutOff_append, shapes_append,
      everywhere_append]
    refine ⟨holds.1, ⟨?_, ?_⟩, trivial⟩
    · exact everywhere_cutOff_mono (List.subset_append_left gone more) holds.2.1
    · rcases order with named | fits
      · obtain ⟨head, below⟩ := child
        rw [id_node] at named
        rw [cutOff_cons, if_pos (List.mem_append_right _ named)]
        trivial
      · exact everywhere_cutOff _ _ [child] (by rw [shapes_cons_eq]; exact fits)

end Grown

end Rose

namespace Tree

open Rose

variable {N : Type}

theorem Regrown.inside {before after : Tree N} {outer old new : Branch N}
    (regrown : Regrown before old new after) (numbered : before.Numbered)
    (member : outer ∈ before.live) (within : old ∈ preorderAll [outer]) :
    Regrown before outer (putAt old.id new outer) after := by
  have whole := numbered.distinct.sublist (sublist_numbers before.branches member)
  have trade := numbers_putAt whole within new
  have part := (sublist_numbers [outer] within).subset
  have known := (sublist_numbers before.branches member).subset
  refine ⟨?_, regrown.rooted, regrown.later, ?_, ?_⟩
  · rw [regrown.branches]
    exact updateAt_inside numbered.distinct member within new
  · refine nodup_of_trade trade whole part regrown.distinct fun number inside => ?_
    refine (regrown.fresh number inside).imp_right fun bounds present => ?_
    have bound := numbered.bounded number (known present)
    omega
  · intro number inside
    rcases List.mem_append.mp (trade.subset (List.mem_append_left _ inside)) with kept | added
    · exact Or.inl kept
    · exact (regrown.fresh number added).imp_left fun old => part old

structure Grows [Scoped N] (good : N → Option String → Prop) (around : Option String)
    (before : Tree N) (old new : Branch N) (after : Tree N) : Prop
    extends Regrown before old new after where
  grown : Grown good around [] old new

theorem Regrown.known {before after : Tree N} {outer old new : Branch N}
    (regrown : Regrown before old new after) (numbered : before.Numbered)
    (member : outer ∈ before.live) :
    ∀ number ∈ numbers [new], number ∈ numbers [outer] → number ∈ numbers [old] := by
  intro number inside present
  refine (regrown.fresh number inside).resolve_right fun bounds => ?_
  have bound := numbered.bounded number ((sublist_numbers before.branches member).subset present)
  omega

namespace Grows

variable [Scoped N] {good : N → Option String → Prop} {around inner : Option String}
  {before middle after : Tree N} {outer old mid new : Branch N}

theorem refl (numbered : before.Numbered) (member : old ∈ before.live) :
    Grows good around before old old before :=
  ⟨.refl numbered member, .refl old⟩

theorem trans (first : Grows good around before old mid middle)
    (second : Grows good around middle mid new after) (numbered : before.Numbered)
    (member : old ∈ before.live) : Grows good around before old new after :=
  ⟨first.toRegrown.trans second.toRegrown numbered member, first.grown.trans second.grown⟩

theorem inside (growth : Grows good inner before old new after) (numbered : before.Numbered)
    (member : outer ∈ before.live) (site : (old, inner) ∈ sites around [outer]) :
    Grows good around before outer (putAt old.id new outer) after := by
  have whole := numbered.distinct.sublist (sublist_numbers before.branches member)
  exact ⟨growth.toRegrown.inside numbered member (mem_of_site site),
    .inside whole site (growth.known numbered member) growth.grown⟩

theorem bud {key : Option String} {content : N} {id : Nat}
    (regrown : Regrown before old (extended old (bud key content id)) after)
    (fits : good content (within (within around old.content) content)) :
    Grows good around before old (extended old (Tree.bud key content id)) after := by
  refine ⟨regrown, .extended (Or.inr ?_)⟩
  rw [Tree.bud, shape_node, everywhere_cons]
  exact ⟨fits, trivial, trivial⟩

end Grows

end Tree

end ScopedClauses
