import ScopedClauses.Proofs.Aggregation.Inserting
import ScopedClauses.Proofs.Aggregation.Sheltered
import ScopedClauses.Proofs.Tree.Adding

/-!
Adding aggregations beside others. An insertion adds one node for each clause, and markers for the
scopes that the clauses ask for; what was there stays where it was, in the scope where it was.
-/

namespace ScopedClauses

namespace Aggregations

open Rose Tree

def Synthesized (node : Keyed AggNode) : Prop :=
  ∃ name boundary, node = ⟨some name, .clause (AggClause.ofBoundary boundary)⟩

theorem Synthesized.boundary? {node : Keyed AggNode} (synthesized : Synthesized node) :
    node.content.boundary?.isSome = true := by
  obtain ⟨name, boundary, rfl⟩ := synthesized
  exact Option.isSome_iff_exists.mpr ⟨boundary, boundary?_ofBoundary boundary⟩

theorem Synthesized.clause? {node : Keyed AggNode} (synthesized : Synthesized node) :
    node.content.clause?.isSome = true := by
  obtain ⟨name, boundary, rfl⟩ := synthesized
  rfl

def nodesOf (forest : List (Shape AggNode)) : List (Keyed AggNode) :=
  (preorderAll forest).map Rose.label

theorem nodesOf_cons (label : Keyed AggNode) (children rest : List (Shape AggNode)) :
    nodesOf (.node label children :: rest) = label :: (nodesOf children ++ nodesOf rest) := by
  simp [nodesOf]

def Copies (nodes : List (Keyed AggNode)) (new : List (Entry AggNode)) : Prop :=
  ∃ markers, (new.map Entry.toKeyed).Perm (nodes ++ markers) ∧
    ∀ marker ∈ markers, Synthesized marker

namespace Copies

variable {nodes others : List (Keyed AggNode)} {new more : List (Entry AggNode)}

theorem single (entry : Entry AggNode) : Copies [entry.toKeyed] [entry] :=
  ⟨[], .refl _, fun _ none => (by cases none)⟩

theorem markers (synthesized : ∀ entry ∈ new, Synthesized entry.toKeyed) : Copies [] new :=
  ⟨_, .refl _, List.forall_mem_map.mpr synthesized⟩

theorem append (first : Copies nodes new) (second : Copies others more) :
    Copies (nodes ++ others) (new ++ more) := by
  obtain ⟨left, reordered, synthesized⟩ := first
  obtain ⟨right, reorderedMore, synthesizedMore⟩ := second
  refine ⟨left ++ right, ?_, List.forall_mem_append.mpr ⟨synthesized, synthesizedMore⟩⟩
  rw [List.map_append, List.append_assoc]
  refine (reordered.append reorderedMore).trans ?_
  rw [List.append_assoc]
  exact (List.perm_append_comm_assoc left others right).append_left nodes

end Copies

section Steps

variable {aggs middle final : Aggregations} {parent id inner here : Nat} {content : AggClause}
  {name : String} {new more passed further : List (Entry AggNode)}

theorem added_insertNode (whole : Whole aggs.tree)
    (placed : aggs.insertNode content parent name = .ok (id, final)) :
    final = aggs.withTree final.tree ∧ Whole final.tree ∧
      Added aggs.tree final.tree [⟨⟨some name, .clause content⟩, id⟩] ∧
      lineage id final.tree.branches =
        ⟨⟨some name, .clause content⟩, id⟩ :: lineage parent aggs.tree.branches := by
  obtain ⟨holder, member, after, rfl, new, rfl, regrown⟩ := insertNode_ok whole.numbered placed
  refine ⟨rfl, whole.regrown regrown member, .bud regrown whole.numbered member new, ?_⟩
  rw [tree_withTree, regrown.lineage_bud whole.numbered member new, if_pos rfl]

structure Passed (aggs : Aggregations) (parent : Nat) (final : Aggregations) (here : Nat)
    (passed new : List (Entry AggNode)) : Prop where
  same : final = aggs.withTree final.tree
  whole : Whole final.tree
  added : Added aggs.tree final.tree new
  way : lineage here final.tree.branches = passed ++ lineage parent aggs.tree.branches
  marked : ∀ entry ∈ passed, entry.content.boundary?.isSome = true
  opened : ∀ entry ∈ new, Synthesized entry.toKeyed ∧ entry ∈ passed

namespace Passed

theorem refl (whole : Whole aggs.tree) : Passed aggs parent aggs parent [] [] :=
  ⟨rfl, whole, .refl whole.numbered, rfl, fun _ none => (by cases none),
    fun _ none => (by cases none)⟩

theorem existing (standing : Passed aggs parent final here passed new) {boundary : Boundary}
    (found : final.existingMarker? here boundary = some inner) :
    ∃ marker, Passed aggs parent final inner (marker :: passed) new := by
  have numbered := standing.whole.numbered
  cases holds : final.tree.find? here with
  | none => simp [existingMarker?, findChild?, childBranches, holds] at found
  | some holder =>
      obtain ⟨member, rfl⟩ := live_of_find? holds
      obtain ⟨child, below, rfl, marks⟩ := existingMarker?_ok numbered member found
      have marked : child.label.content.boundary?.isSome = true :=
        Option.isSome_iff_exists.mpr ⟨boundary, marks⟩
      refine ⟨child.label, standing.same, standing.whole, standing.added, ?_,
        List.forall_mem_cons.mpr ⟨marked, standing.marked⟩, fun entry listed => ?_⟩
      · rw [lineage_child numbered.distinct member below, standing.way, List.cons_append]
      · exact (standing.opened entry listed).imp_right (List.mem_cons_of_mem _)

theorem insertNode (standing : Passed aggs parent middle here passed new)
    (placed : middle.insertNode (AggClause.ofBoundary boundary) here name = .ok (id, final)) :
    ∃ marker, Passed aggs parent final id (marker :: passed) (new ++ [marker]) := by
  obtain ⟨same, whole, added, way⟩ := added_insertNode standing.whole placed
  let marker : Entry AggNode := ⟨⟨some name, .clause (AggClause.ofBoundary boundary)⟩, id⟩
  have synthesized : Synthesized marker.toKeyed := ⟨name, boundary, rfl⟩
  refine ⟨marker, ?_, whole, standing.added.trans added, ?_,
    List.forall_mem_cons.mpr ⟨synthesized.boundary?, standing.marked⟩, fun entry listed => ?_⟩
  · rw [same, standing.same]
    rfl
  · rw [way, standing.way, List.cons_append]
  · rcases List.mem_append.mp listed with early | last
    · exact (standing.opened entry early).imp_right (List.mem_cons_of_mem _)
    · rw [List.mem_singleton.mp last]
      exact ⟨synthesized, List.mem_cons_self⟩

end Passed

theorem passed_resettle (whole : Whole aggs.tree) {node : AggNode}
    (settled : aggs.resettle parent node = .ok (id, final)) :
    ∃ passed new, Passed aggs parent final id passed new := by
  rcases resettle_ok settled with ⟨rfl, rfl, _⟩ | ⟨mapping, field, _, _, made⟩
  · exact ⟨[], [], .refl whole⟩
  · obtain ⟨required, refusal, _, crossed⟩ := reconcile_ok made
    let Holds := fun (_ : List Boundary) (reached : Aggregations) (position : Nat) =>
      ∃ passed new, Passed aggs parent reached position passed new
    have ends : Holds [] final id := by
      refine cross_along ?_ ?_ ⟨[], [], .refl whole⟩ crossed
      · rintro boundary rest reached position next ⟨passed, new, standing⟩ found
        obtain ⟨marker, further⟩ := standing.existing found
        exact ⟨_, _, further⟩
      · rintro boundary rest reached position next grown ⟨passed, new, standing⟩ placed
        obtain ⟨marker, further⟩ := standing.insertNode placed
        exact ⟨_, _, further⟩
    exact ends

end Steps

/-! ### Insertion -/

structure Filled (aggs : Aggregations) (parent : Nat) (shapes : List (Shape AggNode))
    (final : Aggregations) (new : List (Entry AggNode)) : Prop where
  same : final = aggs.withTree final.tree
  whole : Whole final.tree
  added : Added aggs.tree final.tree new
  copies : Copies (nodesOf shapes) new
  below : ∀ entry ∈ new, Above final.tree.branches parent entry.id

structure Grafted (aggs : Aggregations) (parent : Nat) (shape : Shape AggNode)
    (final : Aggregations) (id : Nat) (passed new : List (Entry AggNode)) : Prop where
  same : final = aggs.withTree final.tree
  whole : Whole final.tree
  added : Added aggs.tree final.tree new
  copies : Copies (nodesOf [shape]) new
  fresh : aggs.tree.next ≤ id
  way : lineage id final.tree.branches =
    ⟨shape.label, id⟩ :: (passed ++ lineage parent aggs.tree.branches)
  marked : ∀ entry ∈ passed, entry.content.boundary?.isSome = true
  around : ∀ entry ∈ new, entry ∈ passed ∨ Above final.tree.branches id entry.id

theorem Grafted.below {aggs final : Aggregations} {parent id : Nat} {shape : Shape AggNode}
    {passed new : List (Entry AggNode)} (grafted : Grafted aggs parent shape final id passed new)
    (live : parent ∈ numbers aggs.tree.branches) :
    ∀ entry ∈ new, Above final.tree.branches parent entry.id := by
  have distinct := grafted.whole.numbered.distinct
  have start := Above.self live
  intro entry listed
  rcases grafted.around entry listed with onWay | further
  · obtain ⟨front, back, rfl⟩ := List.append_of_mem onWay
    have way : lineage id final.tree.branches = (⟨shape.label, id⟩ :: front) ++
        entry :: (back ++ lineage parent aggs.tree.branches) := by
      rw [grafted.way]
      simp
    rw [Above, lineage_suffix distinct way, List.map_cons, List.map_append]
    exact List.mem_cons_of_mem _ (List.mem_append_right _ start)
  · refine Above.trans distinct ?_ further
    rw [Above, grafted.way, List.map_cons, List.map_append]
    exact List.mem_cons_of_mem _ (List.mem_append_right _ start)

mutual

theorem grafted_insertShape {aggs final : Aggregations} {parent id : Nat} :
    ∀ shape, Whole aggs.tree → aggs.insertShape parent shape = .ok (id, final) →
      ∃ passed new, Grafted aggs parent shape final id passed new
  | .node entry below, whole, made => by
      obtain ⟨name, content, position, settled, grown, keyed, holds, _, settles, placed, rest⟩ :=
        insertShape_ok made
      obtain ⟨passed, opened, standing⟩ := passed_resettle whole (resettle_of_settle settles)
      obtain ⟨same, wholeGrown, added, way⟩ := added_insertNode standing.whole placed
      have self := mem_numbers_of_lineage way
      obtain ⟨new, filled⟩ := filled_insertShapes below wholeGrown self rest
      have label : (⟨some name, .clause content⟩ : Keyed AggNode) = entry := by
        rw [← keyed, ← holds]
      have line := filled.added.lines id self
      -- the markers come first, then the clause, then what is below it
      refine ⟨passed, opened ++ [⟨entry, id⟩] ++ new, ?_, filled.whole,
        (standing.added.trans (label ▸ added)).trans filled.added, ?_, ?_, ?_, standing.marked, ?_⟩
      · rw [filled.same, same, standing.same]
        rfl
      · have copies := ((Copies.markers fun entry listed => (standing.opened entry listed).1).append
          (.single ⟨entry, id⟩)).append filled.copies
        simpa [nodesOf] using copies
      · exact Nat.le_trans standing.added.later (added.fresh _ (List.mem_singleton_self _))
      · rw [line, way, standing.way, label_node, label]
      · intro other listed
        rcases List.mem_append.mp listed with before | after
        · rcases List.mem_append.mp before with marker | here
          · exact Or.inl (standing.opened other marker).2
          · rw [List.mem_singleton.mp here, Above, line, way]
            exact Or.inr List.mem_cons_self
        · exact Or.inr (filled.below other after)

theorem filled_insertShapes {aggs final : Aggregations} {parent : Nat} :
    ∀ shapes, Whole aggs.tree → parent ∈ numbers aggs.tree.branches →
      aggs.insertShapes parent shapes = .ok final → ∃ new, Filled aggs parent shapes final new
  | [], whole, _, made => by
      cases Result.pure_ok.mp made
      exact ⟨[], rfl, whole, .refl whole.numbered, .markers fun _ none => (by cases none),
        fun _ none => (by cases none)⟩
  | shape :: rest, whole, live, made => by
      obtain ⟨id, grown, first, later⟩ := insertShapes_ok made
      obtain ⟨passed, new, grafted⟩ := grafted_insertShape shape whole first
      have present := grafted.added.mem_numbers_iff.mpr (Or.inl live)
      obtain ⟨more, filled⟩ := filled_insertShapes rest grafted.whole present later
      refine ⟨new ++ more, ?_, filled.whole, grafted.added.trans filled.added, ?_, ?_⟩
      · rw [filled.same, grafted.same]
        rfl
      · have copies := grafted.copies.append filled.copies
        rw [nodesOf, nodesOf, ← List.map_append, ← preorderAll_append] at copies
        exact copies
      · intro entry listed
        rcases List.mem_append.mp listed with early | late
        · have there := grafted.added.mem_numbers_iff.mpr (Or.inr (List.mem_map_of_mem early))
          rw [Above, filled.added.lines entry.id there]
          exact grafted.below live entry early
        · exact filled.below entry late

end

mutual

theorem clauses_insertShape {aggs final : Aggregations} {parent id : Nat} :
    ∀ shape, aggs.insertShape parent shape = .ok (id, final) →
      ∀ node ∈ nodesOf [shape], node.content.clause?.isSome = true
  | .node entry below, made => by
      obtain ⟨_, _, _, _, _, _, holds, _, _, _, rest⟩ := insertShape_ok made
      rw [nodesOf_cons, List.forall_mem_cons, List.forall_mem_append]
      refine ⟨by rw [holds]; rfl, clauses_insertShapes below rest, fun _ none => ?_⟩
      cases none

theorem clauses_insertShapes {aggs final : Aggregations} {parent : Nat} :
    ∀ shapes, aggs.insertShapes parent shapes = .ok final →
      ∀ node ∈ nodesOf shapes, node.content.clause?.isSome = true
  | [], _, _, listed => by cases listed
  | shape :: rest, made, own, listed => by
      obtain ⟨_, _, first, later⟩ := insertShapes_ok made
      rw [nodesOf, ← List.singleton_append, preorderAll_append, List.map_append,
        List.mem_append] at listed
      exact listed.elim (clauses_insertShape shape first own) (clauses_insertShapes rest later own)

end

theorem Copies.clause? {nodes : List (Keyed AggNode)} {new : List (Entry AggNode)}
    (copies : Copies nodes new) (clauses : ∀ node ∈ nodes, node.content.clause?.isSome = true) :
    ∀ entry ∈ new, entry.content.clause?.isSome = true := by
  obtain ⟨markers, same, synthesized⟩ := copies
  intro entry listed
  rcases List.mem_append.mp (same.subset (List.mem_map_of_mem listed)) with copy | marker
  · exact clauses _ copy
  · exact (synthesized _ marker).clause?

/-! ### Runs of additions -/

structure Arranged (mapping : Mapping) (aggs : Aggregations) : Prop where
  whole : Whole aggs.tree
  bound : aggs.mapping = some mapping
  order : Everywhere (Placed mapping) none (shapes aggs.tree.branches)

section Runs

variable {mapping : Mapping} {aggs start final : Aggregations} {parent : Nat}

theorem arranged_empty (mapping : Mapping) (autocorrect : Bool) :
    Arranged mapping { mapping := some mapping, autocorrect := autocorrect } := by
  refine ⟨(sound_empty (some mapping) autocorrect).1.toWhole, rfl, ?_⟩
  rw [branches_empty, shapes_cons, everywhere_cons]
  refine ⟨fun _ field named => ?_, trivial, trivial⟩
  cases named

theorem Arranged.insertShapes (arranged : Arranged mapping aggs)
    (live : parent ∈ numbers aggs.tree.branches) {shapes : List (Shape AggNode)}
    (made : aggs.insertShapes parent shapes = .ok final) : Arranged mapping final := by
  obtain ⟨old, member, rfl⟩ := exists_of_mem_numbers live
  obtain ⟨around, site⟩ := exists_site_of_live member
  obtain ⟨new, extended⟩ := inserted_insertShapes shapes arranged.whole arranged.bound site made
  have grows := extended.grows
  refine ⟨arranged.whole.regrown grows.toRegrown member, ?_, ?_⟩
  · rw [extended.same]
    exact arranged.bound
  · refine grows.toRegrown.everywhere arranged.whole.numbered member arranged.order
      fun other otherSite here => ?_
    rw [site_unique arranged.whole.numbered.distinct otherSite site] at here ⊢
    have kept := grows.grown.keeps [] (by rwa [cutOff_none])
    rwa [List.nil_append, cutOff_none] at kept

structure Addition where
  input : Input
  below : Option String := none
  autocorrect : Bool := true

def Addition.apply (aggs : Aggregations) (addition : Addition) : Result Aggregations :=
  { aggs with autocorrect := addition.autocorrect }.add addition.input addition.below

inductive Begun (mapping : Mapping) : Aggregations → Prop where
  | empty (autocorrect : Bool) :
      Begun mapping { mapping := some mapping, autocorrect := autocorrect }
  | read {json : Json} {aggs : Aggregations} (made : ofJson json (some mapping) = .ok aggs) :
      Begun mapping aggs

theorem Begun.arranged (begun : Begun mapping start) : Arranged mapping start := by
  cases begun with
  | empty autocorrect => exact arranged_empty mapping autocorrect
  | read made =>
      obtain ⟨request, _, inserted⟩ := ofJson_ok made
      refine (arranged_empty mapping true).insertShapes ?_ inserted
      rw [branches_empty]
      simp

theorem Addition.apply_ok {addition : Addition} (applied : addition.apply aggs = .ok final) :
    ∃ request target, addition.input.read = .ok request ∧ target ∈ numbers aggs.tree.branches ∧
      { aggs with autocorrect := addition.autocorrect }.insertShapes target (clausesOf request) =
        .ok final := by
  obtain ⟨request, read, holder, member, _, inserted⟩ := add_live applied
  exact ⟨request, holder.id, read, id_mem_numbers member, inserted⟩

theorem Arranged.apply (arranged : Arranged mapping aggs) {addition : Addition}
    (applied : addition.apply aggs = .ok final) : Arranged mapping final := by
  obtain ⟨request, target, _, live, inserted⟩ := Addition.apply_ok applied
  have switched : Arranged mapping { aggs with autocorrect := addition.autocorrect } :=
    ⟨arranged.whole, arranged.bound, arranged.order⟩
  exact switched.insertShapes live inserted

theorem Arranged.run (arranged : Arranged mapping aggs) (additions : List Addition)
    (ran : additions.foldlM Addition.apply aggs = .ok final) : Arranged mapping final := by
  induction additions generalizing aggs with
  | nil =>
      cases Result.pure_ok.mp ran
      exact arranged
  | cons addition rest ih =>
      rw [List.foldlM_cons] at ran
      obtain ⟨middle, applied, later⟩ := Result.bind_ok.mp ran
      exact ih (arranged.apply applied) later

/-- After any additions, each clause on a field stands in the scope of the field. A further one
adds one copy of each clause that it reads, and markers; what was there stays in its place, and
before what is new. -/
theorem add_appends (begun : Begun mapping start) (additions : List Addition)
    (ran : additions.foldlM Addition.apply start = .ok final) :
    (∀ node ∈ final.tree.nodes,
      Placed mapping node.content (final.tree.currentScope node.id)) ∧
    ∀ (addition : Addition) (next : Aggregations), addition.apply final = .ok next →
      ∃ request new, addition.input.read = .ok request ∧
        (∀ node ∈ final.tree.nodes, (∃ kept ∈ next.tree.nodes, kept.label = node.label) ∧
          next.tree.parent? node.id = final.tree.parent? node.id ∧
          final.tree.children node.id <+: next.tree.children node.id) ∧
        (next.tree.nodes.map Rose.id).Nodup ∧
        (next.tree.nodes.map Rose.label).Perm (final.tree.nodes.map Rose.label ++ new) ∧
        Copies (nodesOf (clausesOf request)) new := by
  have arranged := begun.arranged.run additions ran
  have settled := arranged.whole.settled
  refine ⟨(everywhere_iff arranged.whole.numbered settled).mp arranged.order,
    fun addition next applied => ?_⟩
  obtain ⟨request, target, read, live, inserted⟩ := Addition.apply_ok applied
  have whole : Whole { final with autocorrect := addition.autocorrect }.tree := arranged.whole
  obtain ⟨new, filled⟩ := filled_insertShapes (clausesOf request) whole live inserted
  have added : Added final.tree next.tree new := filled.added
  have listed := added.nodes_perm settled filled.whole.settled
  refine ⟨request, new, read, fun node member => ⟨?_, ?_, added.children node.id⟩, ?_, listed,
    filled.copies⟩
  · exact List.mem_map.mp (listed.mem_iff.mpr
      (List.mem_append_left _ (List.mem_map_of_mem member)))
  · rw [nodes_eq_live settled] at member
    exact added.parent?_eq (id_mem_numbers member)
  · rw [nodes_eq_live filled.whole.settled]
    exact filled.whole.numbered.distinct

end Runs

def genderAddition : Addition := ⟨genderTerms "by_gender", none, true⟩

def priceAddition : Addition :=
  ⟨.named "prices" "histogram" (.object [("field", .string "price")]), some "by_gender", true⟩

theorem add_appends_price :
    ∃ final next, [genderAddition].foldlM Addition.apply { mapping := some castMapping } =
        .ok final ∧
      (∀ node ∈ final.tree.nodes,
        Placed castMapping node.content (final.tree.currentScope node.id)) ∧
      priceAddition.apply final = .ok next ∧
      (final.tree.nodes.filterMap Rose.key = ["nested_below_root", "by_gender"] ∧
        next.tree.nodes.filterMap Rose.key =
          ["nested_below_root", "by_gender", "reverse_nested_below_by_gender", "prices"]) ∧
      ∀ node ∈ final.tree.nodes, final.tree.children node.id <+: next.tree.children node.id := by
  have made : (([genderAddition].foldlM Addition.apply { mapping := some castMapping }).bind
      fun final => (priceAddition.apply final).map fun next =>
        (final.tree.nodes.filterMap Rose.key, next.tree.nodes.filterMap Rose.key)).toOption =
      some (["nested_below_root", "by_gender"],
        ["nested_below_root", "by_gender", "reverse_nested_below_by_gender", "prices"]) := by
    decide +kernel
  cases ran : [genderAddition].foldlM Addition.apply { mapping := some castMapping } with
  | error error => simp [ran, Except.bind, Except.toOption] at made
  | ok final =>
      cases applied : priceAddition.apply final with
      | error error => simp [ran, applied, Except.bind, Except.map, Except.toOption] at made
      | ok next =>
          obtain ⟨placed, appends⟩ := add_appends (.empty true) [genderAddition] ran
          obtain ⟨_, _, _, stays, _⟩ := appends priceAddition next applied
          exact ⟨final, next, rfl, placed, applied,
            by simpa [ran, applied, Except.bind, Except.map, Except.toOption] using made,
            fun node member => (stays node member).2.2⟩

end Aggregations

end ScopedClauses
