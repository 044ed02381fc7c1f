import ScopedClauses.Proofs.Query.Normal
import ScopedClauses.Proofs.Query.Structured
import ScopedClauses.Proofs.Tree.Keeping

/-!
What insertions keep. Clauses may be joined below new `bool` clauses and wrapped into new `nested`
ones, but none is lost, doubled or moved past another one: a query keeps its nodes in their order,
and the clauses that come are those of the input, once each, and those that join or wrap.
-/

namespace ScopedClauses

namespace Query

open Rose Tree Weaving QueryNode

inductive Synthesized : Keyed QueryNode → Prop where
  | join : Synthesized ⟨none, .compound ⟨QueryKind.boolean, []⟩⟩
  | wrap (path : String) :
      Synthesized ⟨none, .compound ⟨QueryKind.nested, [("path", .string path)]⟩⟩

def clause? : Keyed QueryNode → Option (Keyed QueryNode) :=
  Option.guard fun node => !node.content.isSlot

theorem seen_clause {key : Option String} {node : QueryNode} (bare : node.slot? = none) :
    seen clause? ⟨key, node⟩ = {⟨key, node⟩} := by
  rw [seen, clause?, Option.guard, isSlot, bare]
  rfl

theorem seen_slot (key : Option String) (place : Slot) : seen clause? ⟨key, .slot place⟩ = 0 := rfl

/-- The query `final` keeps the nodes of `query` in their order. Beside their clauses it has the
clauses `added`, and clauses made on the way. -/
def Conserves (query : Query) (added : Multiset (Keyed QueryNode)) (final : Query) : Prop :=
  ∃ synthesized : List (Keyed QueryNode), (∀ clause ∈ synthesized, Synthesized clause) ∧
    Keeps clause? query.tree (added + synthesized) final.tree

variable {query middle final : Query} {added more : Multiset (Keyed QueryNode)}

namespace Conserves

theorem of_keeps (keeps : Keeps clause? query.tree added final.tree) :
    query.Conserves added final :=
  ⟨[], by simp, by rwa [Multiset.coe_nil, add_zero]⟩

theorem numbered (conserves : query.Conserves added final) : final.tree.Numbered := by
  obtain ⟨_, _, keeps⟩ := conserves
  exact keeps.numbered

theorem refl (numbered : query.tree.Numbered) : query.Conserves 0 query :=
  .of_keeps (.refl numbered)

theorem trans (first : query.Conserves added middle) (second : middle.Conserves more final) :
    query.Conserves (added + more) final := by
  obtain ⟨made, makes, keeps⟩ := first
  obtain ⟨further, makesFurther, keepsFurther⟩ := second
  refine ⟨made ++ further, List.forall_mem_append.mpr ⟨makes, makesFurther⟩, ?_⟩
  rw [← Multiset.coe_add, add_add_add_comm]
  exact keeps.trans keepsFurther

theorem then_none (first : query.Conserves added middle) (second : middle.Conserves 0 final) :
    query.Conserves added final := by
  simpa using first.trans second

theorem none_then (first : query.Conserves 0 middle) (second : middle.Conserves added final) :
    query.Conserves added final := by
  simpa using first.trans second

theorem uncounted {clause : Keyed QueryNode} (conserves : query.Conserves {clause} final)
    (synthesized : Synthesized clause) : query.Conserves 0 final := by
  obtain ⟨made, makes, keeps⟩ := conserves
  refine ⟨clause :: made, List.forall_mem_cons.mpr ⟨synthesized, makes⟩, ?_⟩
  rwa [zero_add, ← Multiset.cons_coe, ← Multiset.singleton_add]

end Conserves

/-! ### Joining -/

section Join

variable {outer must occupant : Branch QueryNode}

theorem sublist_joined (outerBelow : outer.children = [must]) (mustBelow : must.children = [occupant]) :
    (entries [occupant]).Sublist (entries [outer]) := by
  rw [← node_eta outer, outerBelow, ← node_eta must, mustBelow, entries_cons, entries_cons,
    entries_nil, List.append_nil, List.append_nil]
  exact ((List.Sublist.refl _).cons _).cons _

theorem shown_joined (outerKeyed : outer.label.toKeyed = ⟨none, QueryNode.emptyBool⟩)
    (outerBelow : outer.children = [must])
    (mustKeyed : must.label.toKeyed = ⟨some "must", .slot mustPlace⟩)
    (mustBelow : must.children = [occupant]) :
    shown clause? [outer.shape] =
      shown clause? [occupant.shape] + {⟨none, QueryNode.emptyBool⟩} := by
  rw [← node_eta outer, outerBelow, ← node_eta must, mustBelow, shape_node, shapes_cons, shapes_cons_eq,
    shapes_nil, shown_node, shown_node, mustKeyed, outerKeyed, seen_slot, zero_add,
    seen_clause rfl, add_comm]

end Join

theorem conserves_ensureSlot (numbered : query.tree.Numbered) {compound slot : Nat} {name : String}
    (ensured : query.ensureSlot compound name = .ok (slot, final)) : query.Conserves 0 final := by
  cases found : query.findSlot? compound name with
  | some old =>
      rw [ensureSlot, found] at ensured
      cases Result.pure_ok.mp ensured
      exact .refl numbered
  | none =>
      simp only [ensureSlot, found, Result.bind_ok] at ensured
      obtain ⟨node, _, opened⟩ := ensured
      split at opened
      · split at opened
        · rename_i place _
          obtain ⟨⟨made, tree⟩, inserted, same⟩ := Result.bind_ok.mp opened
          cases Result.pure_ok.mp same
          have keeps : Keeps clause? _ _ _ := keeps_insert numbered inserted
          rw [seen_slot] at keeps
          exact .of_keeps keeps
        · cases opened
      · cases opened

theorem conserves_insertNode (numbered : query.tree.Numbered) {node : QueryNode}
    {key : Option String} {slot id : Nat} (bare : node.slot? = none)
    (inserted : query.insertNode node key slot = .ok (id, final)) :
    query.Conserves {⟨key, node⟩} final := by
  obtain ⟨⟨number, after⟩, made, same⟩ := Result.bind_ok.mp inserted
  cases Result.pure_ok.mp same
  have keeps : Keeps clause? _ _ _ := keeps_insert numbered made
  rw [seen_clause bare] at keeps
  exact .of_keeps keeps

theorem conserves_wrapInBool_slot (whole : query.Whole) {entry : Entry QueryNode}
    {occupant : Branch QueryNode} (member : .node entry [occupant] ∈ query.tree.live) {place : Slot}
    (content : entry.content = .slot place) (bare : occupant.content.slot? = none) {outer must : Nat}
    (wrapped : query.wrapInBool occupant.id = .ok (outer, must, final)) :
    query.Conserves 0 final := by
  obtain ⟨bool, slot, after, made, boolKeyed, boolBelow, slotKeyed, slotBelow, grew⟩ :=
    wrapInBool_slot whole member content bare
  cases made.symm.trans wrapped
  have keeps : query.Conserves {⟨none, QueryNode.emptyBool⟩} (query.withTree after) := by
    refine .of_keeps (.of_regrown grew whole.numbered member ?_ ?_)
    · rw [entries_cons, entries_cons, entries_nil, List.append_nil, List.append_nil]
      exact (sublist_joined boolBelow slotBelow).cons_cons _
    · rw [shape_node, shape_node, shown_node, shown_node, shapes_cons_eq, shapes_cons_eq, shapes_nil,
        shown_joined boolKeyed boolBelow slotKeyed slotBelow, add_assoc]
  exact keeps.uncounted .join

theorem conserves_wrapInBool_root (whole : query.Whole) {root : Branch QueryNode}
    (rooted : query.tree.root = some root) {outer must : Nat}
    (wrapped : query.wrapInBool root.id = .ok (outer, must, final)) : query.Conserves 0 final := by
  obtain ⟨bool, slot, after, rfl, rfl, rfl, wholeAfter, only, _, grown, boolKeyed, boolBelow,
    slotKeyed, slotBelow⟩ := wrapInBool_root_ok whole rooted wrapped
  have keeps : query.Conserves {⟨none, QueryNode.emptyBool⟩} (query.withTree after) :=
    .of_keeps (.of_top wholeAfter.numbered only grown (sublist_joined boolBelow slotBelow)
      (shown_joined boolKeyed boolBelow slotKeyed slotBelow))
  exact keeps.uncounted .join

theorem conserves_joinWith {node : QueryNode} {key : Option String} {occupant id : Nat}
    (bare : node.slot? = none)
    (wraps : ∀ {outer must : Nat} {middle : Query},
      query.wrapInBool occupant = .ok (outer, must, middle) → query.Conserves 0 middle)
    (joined : query.joinWith node key occupant = .ok (id, final)) :
    query.Conserves {⟨key, node⟩} final := by
  obtain ⟨⟨outer, must, middle⟩, wrapped, inserted⟩ := Result.bind_ok.mp joined
  have first := wraps wrapped
  exact first.none_then (conserves_insertNode first.numbered bare inserted)

/-! ### Placing -/

section Placing

variable {good : QueryNode → Prop} {node : QueryNode} {key : Option String} {id : Nat}

theorem conserves_joinSlot (structured : query.Structured good) {slot : Branch QueryNode}
    {place : Slot} (member : slot ∈ query.tree.live) (content : slot.content = .slot place)
    {occupant : Nat} (met : query.occupant? slot.id = some occupant) (bare : node.slot? = none)
    (joined : query.joinWith node key occupant = .ok (id, final)) :
    query.Conserves {⟨key, node⟩} final := by
  obtain ⟨branch, below, rfl, bareBranch⟩ := structured.sole_occupant member content met
  obtain ⟨entry, children⟩ := slot
  cases below
  exact conserves_joinWith bare
    (conserves_wrapInBool_slot structured.toWhole member content bareBranch) joined

theorem conserves_place (structured : query.Structured good) {position : Position}
    (bare : node.slot? = none) (placed : query.place position node key = .ok (id, final)) :
    query.Conserves {⟨key, node⟩} final := by
  cases effective : query.effective position with
  | top =>
      simp only [place, effective] at placed
      split at placed
      · obtain ⟨⟨number, after⟩, inserted, same⟩ := Result.bind_ok.mp placed
        cases Result.pure_ok.mp same
        have keeps : Keeps clause? _ _ _ := keeps_insertRoot structured.numbered inserted
        rw [seen_clause bare] at keeps
        exact .of_keeps keeps
      · rename_i number found
        obtain ⟨root, rooted, rfl⟩ := Option.map_eq_some_iff.mp found
        exact conserves_joinWith bare (conserves_wrapInBool_root structured.toWhole rooted) placed
  | slot compound name =>
      rw [place_of_effective effective] at placed
      obtain ⟨⟨number, made⟩, ensured, placed⟩ := Result.bind_ok.mp placed
      have first := conserves_ensureSlot structured.numbered ensured
      obtain ⟨structuredMade, slot, member, rfl, place, content⟩ := structured.ensureSlot ensured
      refine first.none_then ?_
      simp only at placed
      split at placed
      · exact conserves_insertNode structuredMade.numbered bare placed
      · rename_i occupant met
        exact conserves_joinSlot structuredMade member content met bare placed

theorem conserves_cross (structured : query.Structured good) {refusal : Error}
    {boundaries : List Boundary} {position reached : Position}
    (crossed : cross refusal query position boundaries = .ok (reached, final)) :
    query.Conserves 0 final := by
  let Holds := fun (_ : List Boundary) (middle : Query) (_ : Position) =>
    middle.Structured good ∧ query.Conserves 0 middle
  have ends : Holds [] final reached := by
    refine cross_induction (fun stays _ => stays) ?_ ⟨structured, .refl structured.numbered⟩ crossed
    rintro _ _ _ _ _ _ ⟨stays, conserves⟩ _ opened
    obtain ⟨path, id, _, _, placed⟩ := opened?_ok opened
    have wrapped := (conserves_place stays rfl placed).uncounted (.wrap path)
    exact ⟨stays.place (stays.inert.enter path) rfl placed, conserves.then_none wrapped⟩
  exact ends.2

theorem conserves_settle (structured : query.Structured good) {position reached : Position}
    (settled : query.settle position node = .ok (reached, final)) : query.Conserves 0 final := by
  rcases settle_cases query position node with ⟨error, _, failed⟩ | ⟨route, refusal, _, crossed⟩
  · rw [failed] at settled
    cases settled
  · rw [crossed] at settled
    exact conserves_cross structured settled

end Placing

/-! ### Inserting -/

theorem slots_of_takes {node : QueryNode} {below : List QueryNode} (bare : node.slot? = none)
    (takes : Takes node below) : ∀ child ∈ below, child.slot?.isSome = true := by
  intro child inside
  obtain ⟨siblings, taken⟩ := takes child inside
  cases node with
  | slot place => cases bare
  | leaf clause => cases taken
  | compound clause =>
      cases child with
      | slot place => rfl
      | leaf inner | compound inner => cases taken

mutual

theorem conserves_insertClause {good : QueryNode → Prop} {query final : Query} {position : Position}
    {id : Nat} (structured : query.Structured good) : ∀ shape, Ruled (Enters good) [shape] →
      shape.label.content.slot? = none → query.insertClause position shape = .ok (id, final) →
        query.Conserves (shown clause? [shape]) final
  | .node entry slots, takes, bare, inserted => by
      obtain ⟨spot, crossed, placed, settling, placing, filling⟩ := insertClause_ok inserted
      rw [ruled_singleton] at takes
      have structuredSettled := structured.settle settling
      have first := conserves_settle structured settling
      have second := conserves_place structuredSettled bare placing
      have third := conserves_insertSlots (structuredSettled.place takes.1.1 bare placing) slots
        takes.2 (fun slot inside => slots_of_takes bare takes.1.2 _ (List.mem_map_of_mem inside))
        filling
      rw [shown_node, show seen clause? entry = {entry} from seen_clause bare]
      exact (first.none_then second).trans third
  termination_by structural shape => shape

theorem conserves_insertSlots {good : QueryNode → Prop} {query final : Query} {compound : Nat}
    (structured : query.Structured good) : ∀ slots, Ruled (Enters good) slots →
      (∀ slot ∈ slots, slot.label.content.slot?.isSome = true) →
      query.insertSlots compound slots = .ok final → query.Conserves (shown clause? slots) final
  | [], _, _, inserted => by
      cases Result.pure_ok.mp inserted
      exact .refl structured.numbered
  | .node entry clauses :: rest, takes, slots, inserted => by
      rw [ruled_cons] at takes
      rw [List.forall_mem_cons] at slots
      obtain ⟨here, below, beside⟩ := takes
      rcases insertSlots_ok inserted with
        ⟨place, slot, made, filled, isSlot, ensured, filling, others⟩ | ⟨none, _⟩
      · obtain ⟨key, node⟩ := entry
        cases isSlot
        have bare : ∀ clause ∈ clauses, clause.label.content.slot? = none := fun clause inside =>
          bare_of_takes here.2 _ (List.mem_map_of_mem inside)
        have structuredMade := (structured.ensureSlot ensured).1
        have first := conserves_ensureSlot structured.numbered ensured
        have second := conserves_insertClauses structuredMade clauses below bare filling
        have third := conserves_insertSlots
          (structured_insertClauses structuredMade clauses below bare filling) rest beside slots.2
          others
        rw [shown_cons, shown_node, seen_slot, zero_add]
        exact (first.none_then second).trans third
      · simp [none] at slots
  termination_by structural slots => slots

theorem conserves_insertClauses {good : QueryNode → Prop} {query final : Query} {position : Position}
    (structured : query.Structured good) : ∀ clauses, Ruled (Enters good) clauses →
      (∀ clause ∈ clauses, clause.label.content.slot? = none) →
        query.insertClauses position clauses = .ok final →
          query.Conserves (shown clause? clauses) final
  | [], _, _, inserted => by
      cases Result.pure_ok.mp inserted
      exact .refl structured.numbered
  | clause :: rest, takes, bare, inserted => by
      rw [ruled_cons_iff] at takes
      rw [List.forall_mem_cons] at bare
      obtain ⟨id, middle, first, others⟩ := insertClauses_ok inserted
      rw [shown_cons]
      have added := conserves_insertClause structured clause takes.1 bare.1 first
      exact added.trans (conserves_insertClauses
        (structured_insertClause structured clause takes.1 bare.1 first) rest takes.2 bare.2 others)
  termination_by structural clauses => clauses

end

theorem conserves_insertShape {good : QueryNode → Prop} (structured : query.Structured good)
    {position : Position} {incoming : Option (Shape QueryNode)}
    (takes : ∀ shape, incoming = some shape → Ruled (Enters good) [shape])
    (inserted : query.insertShape position incoming = .ok final) :
    query.Conserves (shown clause? incoming.toList) final := by
  cases incoming with
  | none =>
      cases Result.pure_ok.mp inserted
      exact .refl structured.numbered
  | some shape =>
      have edges := takes shape rfl
      obtain ⟨⟨key, node⟩, children⟩ := shape
      cases node with
      | slot place =>
          rw [ruled_singleton] at edges
          rw [Option.toList_some, shown_node, seen_slot, zero_add]
          refine conserves_insertClauses structured children edges.2 (fun clause inside => ?_) inserted
          exact bare_of_takes edges.1.2 _ (List.mem_map_of_mem inside)
      | leaf clause =>
          obtain ⟨⟨id, made⟩, placed, rfl⟩ := Result.map_ok.mp inserted
          exact conserves_insertClause structured _ edges rfl placed
      | compound clause =>
          obtain ⟨⟨id, made⟩, placed, rfl⟩ := Result.map_ok.mp inserted
          exact conserves_insertClause structured _ edges rfl placed

theorem conserves_ensureBoolRoot {good : QueryNode → Prop} (structured : query.Structured good)
    {id : Nat} (ensured : query.ensureBoolRoot = .ok (id, final)) : query.Conserves 0 final := by
  rcases ensureBoolRoot_cases ensured with ⟨_, placed⟩ | ⟨root, rooted, rfl | ⟨must, wrapped⟩⟩
  · exact (conserves_place structured rfl placed).uncounted .join
  · exact .refl structured.numbered
  · exact conserves_wrapInBool_root structured.toWhole rooted wrapped

theorem conserves_insert {good : QueryNode → Prop} (structured : query.Structured good)
    {input : Input} (admitted : input.Admitted good) {options : Options} (apart : options.onto = none)
    (inserted : query.insert input options = .ok final) :
    ∃ incoming, input.read = .ok incoming ∧
      query.Conserves (shown clause? incoming.toList) final := by
  obtain ⟨incoming, position, read, inserted⟩ := insert_position apart inserted
  refine ⟨incoming, read, conserves_insertShape structured ?_ inserted⟩
  rintro shape rfl
  exact admitted shape read

theorem conserves_insertInBool {good : QueryNode → Prop} (structured : query.Structured good)
    {input : Input} (admitted : input.Admitted good) {name : String}
    (inserted : query.insertInBool name input = .ok final) :
    ∃ incoming, input.read = .ok incoming ∧
      query.Conserves (shown clause? incoming.toList) final := by
  simp only [insertInBool, Result.bind_ok] at inserted
  obtain ⟨incoming, read, ⟨id, rooted⟩, ensured, inserted⟩ := inserted
  refine ⟨incoming, read, (conserves_ensureBoolRoot structured ensured).none_then
    (conserves_insertShape (structured.ensureBoolRoot ensured) ?_ inserted)⟩
  rintro shape rfl
  exact admitted shape read

theorem conserves_apply {good : QueryNode → Prop} (structured : query.Structured good)
    {operation : Operation} (admitted : operation.input.Admitted good)
    (applied : operation.apply query = .ok final) :
    ∃ incoming, operation.input.read = .ok incoming ∧
      query.Conserves (shown clause? incoming.toList) final := by
  cases operation with
  | query input =>
      have inserted : query.insert input {} = .ok final := applied
      exact conserves_insert structured admitted rfl inserted
  | must input | should input | filter input | mustNot input =>
      exact conserves_insertInBool structured admitted applied
  | insert input below mode parameter => exact conserves_insert structured admitted rfl applied

def clausesOf (forest : List (Shape QueryNode)) : List (Keyed QueryNode) :=
  ((preorderAll forest).map Rose.label).filter fun node => !node.content.isSlot

theorem filterMap_clause (nodes : List (Keyed QueryNode)) :
    Multiset.filterMap clause? (nodes : Multiset (Keyed QueryNode)) =
      (nodes.filter fun node => !node.content.isSlot : List (Keyed QueryNode)) := by
  rw [Multiset.filterMap_coe, clause?, List.filterMap_eq_filter]

theorem shown_clause (forest : List (Shape QueryNode)) :
    shown clause? forest = clausesOf forest := by
  rw [shown, filterMap_clause, clausesOf]

theorem takes_of_carries {node : QueryNode} {below : List QueryNode} (carries : Carries node below) :
    Takes node below := by
  cases node with
  | leaf clause =>
      cases carries
      exact read_takes.leaf clause
  | compound clause =>
      intro child inside
      obtain ⟨place, rfl, declares⟩ := carries.1 child inside
      exact ⟨0, by simp [NodeRules.checkChild, checkChild, declares, pure, Except.pure]⟩
  | slot place => exact takes_slot place carries.1

theorem Structured.accepted {good : QueryNode → Prop} (structured : query.Structured good) :
    (Input.tree query.tree.shape?).Accepted := by
  rw [shape?]
  cases rooted : query.tree.root with
  | none => trivial
  | some root =>
      intro shape inside
      exact takes_of_carries (structured.below (structured.bare_root rooted).1 shape inside).2

/-- Whatever run made a query, a further insertion leaves it all nodes, unchanged and in their
order. The other clauses are a copy of each clause that was read, joining and wrapping ones
apart. -/
theorem insertion_conserves (acts : List (Act Step Position))
    (accepted : ∀ edit, Act.own (.edit edit) ∈ acts → edit.input.Accepted) {query next : Query}
    (ran : acts.foldlM (Act.apply Step.apply) {} = .ok query) {operation : Operation}
    (given : operation.input.Accepted) (applied : operation.apply query = .ok next) :
    (query.tree.nodes.map Rose.label).Sublist (next.tree.nodes.map Rose.label) ∧
    (next.tree.nodes.map Rose.id).Nodup ∧
    ∃ incoming synthesized, operation.input.read = .ok incoming ∧
      (((next.tree.nodes.map Rose.label).filter fun entry =>
        !query.tree.contains entry.id && !entry.content.isSlot).map Entry.toKeyed).Perm
          (clausesOf incoming.toList ++ synthesized) ∧
      ∀ clause ∈ synthesized, Synthesized clause := by
  have structured := structured_acts (structured_empty inert_true none true .add) acts
    (fun edit member => (accepted edit member).admitted) ran
  obtain ⟨incoming, read, synthesized, makes, keeps⟩ := conserves_apply structured given.admitted applied
  have settled : next.tree.detached = [] := by
    have admitted : operation.edit.input.Admitted fun _ => True := by
      cases operation <;> exact given.admitted
    exact (structured.apply admitted ((operation.apply_edit query).trans applied)).settled
  have before := branches_of_settled structured.settled
  have after := branches_of_settled settled
  have kept := keeps.kept
  have distinct := keeps.numbered.distinct
  have others := keeps.shown_others
  rw [filterMap_clause, shown_clause, Multiset.coe_add,
    Multiset.coe_eq_coe, List.filter_map, List.filter_filter, after] at others
  rw [after] at distinct
  rw [before, after] at kept
  refine ⟨kept, distinct, incoming, synthesized, read, ?_, makes⟩
  have unknown : ∀ entry : Entry QueryNode,
      (!query.tree.contains entry.id && !entry.content.isSlot) =
        (!entry.content.isSlot && decide (entry.id ∉ numbers query.tree.branches)) := by
    intro entry
    rw [Bool.and_comm, decide_not,
      Bool.eq_iff_iff.mpr ((contains_iff structured.numbered).trans decide_eq_true_iff.symm)]
  rw [funext unknown]
  exact others

def genderTerm (gender : String) : Input :=
  .document (.object [("term", .object [("roles.gender", .string gender)])])

def femaleRun : List (Act Step Position) :=
  [.own (.configure (some rolesMapping) true .add), .own (.edit (.insert (genderTerm "F") {}))]

def maleRun : List (Act Step Position) := [.own (.edit (.insert (genderTerm "M") {}))]

theorem insertion_conserves_roles :
    ∃ query other next, femaleRun.foldlM (Act.apply Step.apply) {} = .ok query ∧
      maleRun.foldlM (Act.apply Step.apply) {} = .ok other ∧
      (Operation.insert (.tree other.tree.shape?) (some (.id 0)) none none).apply query = .ok next ∧
      query.tree.nodes.map Rose.id = [0, 1, 2] ∧ next.tree.nodes.map Rose.id = [0, 1, 3, 4, 2, 5] ∧
      (query.tree.nodes.map Rose.label).Sublist (next.tree.nodes.map Rose.label) := by
  obtain ⟨query, ran, checked⟩ := Result.ok_of_any
    (show (femaleRun.foldlM (Act.apply Step.apply) {}).toOption.any (fun query =>
      (maleRun.foldlM (Act.apply Step.apply) {}).toOption.any fun other =>
        ((Operation.insert (.tree other.tree.shape?) (some (.id 0)) none none).apply
          query).toOption.any fun next =>
            query.tree.nodes.map Rose.id = [0, 1, 2] &&
              next.tree.nodes.map Rose.id = [0, 1, 3, 4, 2, 5]) = true by decide +kernel)
  obtain ⟨other, otherRan, checked⟩ := Result.ok_of_any checked
  obtain ⟨next, applied, checked⟩ := Result.ok_of_any checked
  simp only [Bool.and_eq_true, decide_eq_true_eq] at checked
  have documents : ∀ run ∈ [femaleRun, maleRun], ∀ edit, Act.own (.edit edit) ∈ run →
      edit.input.Accepted := by
    simp [femaleRun, maleRun, genderTerm, Edit.input, Input.Accepted]
  have structured := structured_acts (structured_empty inert_true none true .add) maleRun
    (fun edit member => (documents maleRun (by simp) edit member).admitted) otherRan
  have given : (Operation.insert (.tree other.tree.shape?) (some (.id 0)) none
      none).input.Accepted := structured.accepted
  exact ⟨query, other, next, ran, otherRan, applied, checked.1, checked.2,
    (insertion_conserves femaleRun (documents femaleRun (by simp)) ran given applied).1⟩

end Query

end ScopedClauses
