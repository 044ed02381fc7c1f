import ScopedClauses.Proofs.Query.Lodging
import ScopedClauses.Proofs.Query.Rescoping

/-!
The modes of a merge. Without a mapping a clause can always be merged onto one of its kind, and
each slot of the target then holds what the mode says; nothing outside the target changes.
-/

namespace ScopedClauses

namespace Tree

open Rose

variable {N : Type} {tree : Tree N} (numbered : tree.Numbered)

include numbered

theorem remove_live {branch : Branch N} (member : branch ∈ tree.live) :
    ∃ removed after, tree.remove branch.id = .ok (removed, after) := by
  have found := find_of_find? (find?_of_live numbered member)
  simp [remove, subtree, detach, found, Result.ok_bind, pure, Except.pure]

theorem removeAll_live {label : Entry N} (kids : List (Branch N)) (settled : tree.detached = [])
    (member : .node label kids ∈ tree.live) :
    ∃ after, (kids.map Rose.id).foldlM (fun tree number => (·.2) <$> tree.remove number) tree =
      .ok after := by
  induction kids generalizing tree with
  | nil => exact ⟨tree, rfl⟩
  | cons child rest ih =>
      have live : child ∈ tree.live :=
        mem_preorderAll_trans _ member (mem_preorderAll_of_mem (by simp))
      obtain ⟨removed, middle, done⟩ := remove_live numbered live
      obtain ⟨grew, settledMiddle⟩ := regrown_removed numbered settled member done
      obtain ⟨after, others⟩ :=
        ih (grew.numbered numbered member) settledMiddle (grew.live_new numbered member)
      refine ⟨after, ?_⟩
      rw [List.map_cons, List.foldlM_cons, done]
      exact others

theorem assign_live {branch : Branch N} (member : branch ∈ tree.live) (content : N)
    (key : Option String) : ∃ first after, tree.assign branch.id content = .ok first ∧
      first.setKey branch.id key = .ok after := by
  have kept : ∀ entry : Entry N, { entry with content := content }.id = entry.id := fun _ => rfl
  have grew := regrown_updateEntry numbered member kept
  have live := grew.live_new numbered member
  have assigned : tree.assign branch.id content =
      .ok (tree.updateEntry branch.id fun entry => { entry with content := content }) := by
    rw [assign, find_of_find? (find?_of_live numbered member), Result.ok_bind]
    rfl
  have still := find_of_find? (find?_of_live (grew.numbered numbered member) live)
  exact ⟨_, _, assigned, Result.bind_ok.mpr ⟨_, still, rfl⟩⟩

end Tree

namespace Query

open Rose Tree Weaving QueryNode

def vacated : MergeMode → List (Branch QueryNode) → List (Branch QueryNode)
  | .replace, _ => []
  | _, old => old

/-- What a slot of the target holds after a merge. Whether the new clause names the slot is
`named`, and `clauses` are those it has there. -/
def Merges (mode : MergeMode) (next : Nat) (place : Slot) (old : List (Branch QueryNode))
    (named : Bool) (clauses : List (Shape QueryNode)) (result : List (Branch QueryNode)) : Prop :=
  match mode with
  | .add => Lodged next place old clauses result
  | .replace => if named then Fresh next clauses result else result = old
  | .replaceAll => Fresh next clauses result

structure Merged (mode : MergeMode) (next : Nat) (current added : CompoundClause)
    (slots : List (Shape QueryNode)) (target grown : Branch QueryNode) : Prop where
  label : grown.label = ⟨⟨(QueryNode.compound (blend mode current added)).name?,
    .compound (blend mode current added)⟩, target.id⟩
  body : ∀ name, (blend mode current added).body.lookup name = if mode = .replaceAll
    then added.body.lookup name else (added.body.lookup name).or (current.body.lookup name)
  clauses : ∀ place, current.kind.slot? place.name = some place →
    Merges mode next place (under place.name target) (slots.any (isNamed place.name))
      (clausesIn place.name slots) (under place.name grown)

section Stages

variable {query : Query}

theorem removeAll_done (whole : query.Whole) {branch : Branch QueryNode}
    (member : branch ∈ query.tree.live) :
    ∃ after, query.removeAll (query.tree.children branch.id) = .ok (query.withTree after) ∧
      Regrown query.tree branch (.node branch.label []) after := by
  have parts : .node branch.label branch.children ∈ query.tree.live := by rwa [node_eta]
  obtain ⟨after, done⟩ := removeAll_live whole.numbered branch.children whole.settled parts
  have removed : query.removeAll (query.tree.children branch.id) = .ok (query.withTree after) := by
    rw [children_of_live whole.numbered member]
    exact Result.bind_ok.mpr ⟨after, done, rfl⟩
  obtain ⟨_, same, grew⟩ := removeAll_ok whole member removed
  cases same
  exact ⟨after, removed, grew⟩

theorem mergeBody_done (whole : query.Whole) {target : Branch QueryNode}
    (member : target ∈ query.tree.live) (current added : CompoundClause) (mode : MergeMode) :
    ∃ after, query.mergeBody target.id current added mode = .ok (query.withTree after) ∧
      Regrown query.tree target (.node ⟨⟨(QueryNode.compound (blend mode current added)).name?,
        .compound (blend mode current added)⟩, target.id⟩ target.children) after := by
  obtain ⟨first, after, assigned, keyed⟩ := assign_live whole.numbered member
    (.compound (blend mode current added)) (QueryNode.compound (blend mode current added)).name?
  refine ⟨after, Result.bind_ok.mpr ⟨first, assigned, Result.bind_ok.mpr ⟨after, keyed, rfl⟩⟩, ?_⟩
  exact regrown_assigned whole.numbered member (Result.bind_ok.mpr ⟨first, assigned, keyed⟩)

theorem strip_done (structured : query.Structured Known) {target : Branch QueryNode}
    (member : target ∈ query.tree.live) (mode : MergeMode) :
    ∃ held after, query.strip target.id mode = .ok (query.withTree after) ∧
      (query.withTree after).Structured Known ∧ Regrown query.tree target held after ∧
      held.label = target.label ∧
      ∀ name, under name held = if mode = .replaceAll then [] else under name target := by
  by_cases all : mode = .replaceAll
  · subst all
    obtain ⟨after, removed, grew⟩ := removeAll_done structured.toWhole member
    exact ⟨_, after, removed, (structured.removeAll member removed).1, grew, rfl, fun _ => rfl⟩
  · have kept : query.strip target.id mode = .ok query := by
      cases mode with
      | replaceAll => exact absurd rfl all
      | add | replace => rfl
    exact ⟨target, query.tree, kept, structured, Regrown.refl structured.numbered member, rfl,
      fun _ => (if_neg all).symm⟩

end Stages

/-! ### Slots -/

theorem clausesIn_cons (name : String) (slot : Shape QueryNode) (rest : List (Shape QueryNode)) :
    clausesIn name (slot :: rest) =
      if isNamed name slot then slot.children else clausesIn name rest := by
  simp only [clausesIn, List.find?_cons]
  cases isNamed name slot <;> rfl

theorem unnamed_of_apart {name : String} {slots : List (Shape QueryNode)}
    (apart : name ∉ (contents slots).map tag) :
    slots.any (isNamed name) = false ∧ clausesIn name slots = [] := by
  have absent : ∀ slot ∈ slots, isNamed name slot = false := fun slot inside => by
    refine Bool.eq_false_iff.mpr fun named => apart ?_
    obtain ⟨place, content, rfl⟩ := isNamed_iff.mp named
    exact List.mem_map.mpr ⟨_, List.mem_map_of_mem inside, by rw [content]; rfl⟩
  exact ⟨List.any_eq_false.mpr fun slot inside => by simp [absent slot inside],
    clausesIn_absent absent⟩

theorem lodged_cons {mode : MergeMode} {next later : Nat} (earlier : next ≤ later) {own place : Slot}
    (equal : place.name = own.name → place = own) {key : Option String}
    {clauses rest : List (Shape QueryNode)} (apart : own.name ∉ (contents rest).map tag)
    {holder middle grown : Branch QueryNode} {result : List (Branch QueryNode)}
    (refilled : Refilled own.name result holder middle)
    (first : Lodged next own (vacated mode (under own.name holder)) clauses result)
    (others : Lodged later place
      (if rest.any (isNamed place.name) then vacated mode (under place.name middle)
        else under place.name middle)
      (clausesIn place.name rest) (under place.name grown)) :
    Lodged next place
      (if (Rose.node ⟨key, .slot own⟩ clauses :: rest).any (isNamed place.name) then
        vacated mode (under place.name holder) else under place.name holder)
      (clausesIn place.name (.node ⟨key, .slot own⟩ clauses :: rest)) (under place.name grown) := by
  rw [List.any_cons, clausesIn_cons]
  by_cases names : place.name = own.name
  · -- the rest does not name the slot again
    obtain rfl := equal names
    have named : isNamed place.name (.node ⟨key, .slot place⟩ clauses) = true :=
      isNamed_iff.mpr ⟨place, rfl, rfl⟩
    obtain ⟨unnamed, nothing⟩ := unnamed_of_apart apart
    rw [unnamed, nothing] at others
    rw [Lodged.none_iff.mp others, if_neg Bool.false_ne_true, refilled.here, named]
    exact first
  · have unnamed : isNamed place.name (.node ⟨key, .slot own⟩ clauses) = false := by
      simp [isNamed, QueryNode.slot?, Ne.symm names]
    rw [refilled.elsewhere _ names] at others
    rw [unnamed, Bool.false_or, if_neg Bool.false_ne_true]
    exact others.mono earlier

section Slots

variable {query : Query} (structured : query.Structured Known) {holder : Branch QueryNode}
  (member : holder ∈ query.tree.live) {clause : CompoundClause}
  (content : holder.content = .compound clause) {place : Slot}
  (declares : clause.kind.slot? place.name = some place) (mode : MergeMode)

include structured member

theorem clear_done (name : String) : ∃ grown after, query.clear holder.id mode name =
      .ok (query.withTree after) ∧ Regrown query.tree holder grown after ∧
      Refilled name (vacated mode (under name holder)) holder grown := by
  cases mode with
  | add | replaceAll =>
      exact ⟨holder, query.tree, rfl, Regrown.refl structured.numbered member, Refilled.refl _ _⟩
  | replace =>
      rcases findSlot?_cases structured.numbered member name with
        ⟨missing, absent⟩ | ⟨front, slot, back, first, found⟩
      · have stays := Refilled.refl name holder
        rw [under_absent absent] at stays
        refine ⟨holder, query.tree, ?_, Regrown.refl structured.numbered member, stays⟩
        simp only [clear, missing]
        rfl
      · obtain ⟨after, removed, emptied⟩ := removeAll_done structured.toWhole (first.live member)
        obtain ⟨grown, grew, refilled⟩ := first.lifts structured.numbered member emptied rfl
        refine ⟨grown, after, ?_, grew, refilled⟩
        simp only [clear, found]
        exact removed

include content declares

theorem mergeSlot_lodges (free : query.mapping = none) {key : Option String}
    {clauses : List (Shape QueryNode)} (sheer : Sheer [.node ⟨key, .slot place⟩ clauses]) :
    query.Lodges holder place (vacated mode (under place.name holder)) clauses
      (query.clear holder.id mode place.name >>= fun query =>
        query.insertSlots holder.id [.node ⟨key, .slot place⟩ clauses]) := by
  obtain ⟨middle, tree, cleared, grew, emptied⟩ := clear_done structured member mode place.name
  have kept := structured.clear cleared
  have number : middle.id = holder.id := congrArg (·.id) emptied.label
  have same : middle.content = holder.content := congrArg (·.content) emptied.label
  have freeCleared : (query.withTree tree).mapping = none := free
  obtain ⟨result, grown, after, inserted, again, filled, lodged⟩ :=
    insertSlot_lodges kept freeCleared (grew.live_new structured.numbered member)
      (same.trans content) declares sheer
  rw [number] at inserted
  rw [emptied.here] at lodged
  refine ⟨result, grown, after, ?_, grew.trans again structured.numbered member,
    emptied.trans filled, lodged.mono grew.later⟩
  rw [cleared, Result.ok_bind]
  exact inserted

omit declares in
theorem mergeSlots_lodged (free : query.mapping = none) {slots : List (Shape QueryNode)}
    (formed : FormedSlots (.compound clause) slots) (legible : AllLegible none slots) :
    ∃ grown after, query.mergeSlots holder.id mode slots = .ok (query.withTree after) ∧
      Regrown query.tree holder grown after ∧ grown.label = holder.label ∧
      ∀ place, clause.kind.slot? place.name = some place →
        Lodged query.tree.next place
          (if slots.any (isNamed place.name) then vacated mode (under place.name holder)
            else under place.name holder)
          (clausesIn place.name slots) (under place.name grown) := by
  induction slots generalizing query holder with
  | nil =>
      exact ⟨holder, query.tree, rfl, Regrown.refl structured.numbered member, rfl,
        fun place _ => Lodged.none_iff.mpr rfl⟩
  | cons slot rest ih =>
      obtain ⟨here, ⟨own, slotted, declares⟩, apart, formedRest⟩ := formedSlots_cons.mp formed
      have readable := (allLegible_cons_iff _ _).mp legible
      obtain ⟨⟨key, node⟩, clauses⟩ := slot
      cases slotted
      obtain ⟨result, middle, tree, made, grew, refilled, lodged⟩ :=
        mergeSlot_lodges structured member content declares mode free ⟨here, readable.1⟩
      obtain ⟨cleared, clearing, inserted⟩ := Result.bind_ok.mp made
      have kept := structured_insertSlots (structured.clear clearing) _ (enters_of_formed here)
        inserted
      have number : middle.id = holder.id := congrArg (·.id) refilled.label
      have same : middle.content = holder.content := congrArg (·.content) refilled.label
      have freeMiddle : (query.withTree tree).mapping = none := free
      obtain ⟨grown, after, merged, again, label, others⟩ :=
        ih kept (grew.live_new structured.numbered member) (same.trans content) freeMiddle formedRest
          readable.2
      refine ⟨grown, after, ?_, grew.trans again structured.numbered member,
        label.trans refilled.label, fun place declared => ?_⟩
      · rw [mergeSlots_cons, ← bind_assoc, made, Result.ok_bind, ← number]
        exact merged
      · refine lodged_cons grew.later (fun equal => ?_) apart refilled lodged (others place declared)
        rw [equal, declares] at declared
        exact (Option.some.inj declared).symm

end Slots

/-! ### Merges -/

theorem Lodged.merges {mode : MergeMode} {next : Nat} {place : Slot}
    {old start result : List (Branch QueryNode)} {slots : List (Shape QueryNode)}
    (begins : start = if mode = .replaceAll then [] else old)
    (lodged : Lodged next place
      (if slots.any (isNamed place.name) then vacated mode start else start)
      (clausesIn place.name slots) result) :
    Merges mode next place old (slots.any (isNamed place.name)) (clausesIn place.name slots)
      result := by
  subst begins
  cases mode with
  | add =>
      have kept : Lodged next place old (clausesIn place.name slots) result := by
        simpa [vacated] using lodged
      exact kept
  | replaceAll =>
      have bare : Lodged next place [] (clausesIn place.name slots) result := by
        simpa [vacated] using lodged
      exact bare.fresh
  | replace =>
      cases named : slots.any (isNamed place.name) with
      | true =>
          rw [named] at lodged
          exact lodged.fresh
      | false =>
          have absent : ∀ slot ∈ slots, isNamed place.name slot = false := by simpa using named
          rw [named, clausesIn_absent absent] at lodged
          exact Lodged.none_iff.mp lodged

theorem mergeOnto_done {query : Query} (structured : query.Structured Known)
    (free : query.mapping = none) {target : Branch QueryNode} (member : target ∈ query.tree.live)
    {current added : CompoundClause} (content : target.content = .compound current)
    (same : added.kind = current.kind) {address : Address} (found : query.find address = .ok target.id)
    {key : Option String} {slots : List (Shape QueryNode)}
    (sheer : Sheer [.node ⟨key, .compound added⟩ slots]) (distinct : added.body.keys.Nodup)
    (mode : MergeMode) :
    ∃ grown after, query.mergeOnto address (some (.node ⟨key, .compound added⟩ slots)) mode =
        .ok (query.withTree after) ∧ Regrown query.tree target grown after ∧
      Merged mode query.tree.next current added slots target grown := by
  obtain ⟨held, bare, stripped, structuredBare, grewBare, label, kept⟩ :=
    strip_done structured member mode
  have liveHeld := grewBare.live_new structured.numbered member
  have number : held.id = target.id := congrArg (·.id) label
  have heldContent : held.content = .compound current :=
    (congrArg (·.content) label).trans content
  obtain ⟨middle, blended, grewBody⟩ :=
    mergeBody_done structuredBare.toWhole liveHeld current added mode
  have structuredBody := structuredBare.mergeBody liveHeld heldContent blended
  have liveBody := grewBody.live_new structuredBare.numbered liveHeld
  have formed : FormedSlots (.compound (blend mode current added)) slots := by
    have parts := (formed_cons _ _ _).mp sheer.1
    refine ⟨parts.2.1, ?_⟩
    have holds := parts.1
    rwa [Holds, same] at holds
  have freeBody : ((query.withTree bare).withTree middle).mapping = none := free
  obtain ⟨grown, after, merged, grewSlots, labelled, lodged⟩ :=
    mergeSlots_lodged structuredBody liveBody rfl mode freeBody formed
      ((allLegible_singleton _ _).mp sheer.2).2
  have early := grewBare.trans grewBody structured.numbered member
  refine ⟨grown, after, ?_, early.trans grewSlots structured.numbered member,
    ⟨labelled.trans (by rw [← number]; rfl), fun name => ?_, fun place declares => ?_⟩⟩
  · refine (mergeOnto_ok structured.numbered).mpr ⟨target, member, found, current, added, content,
      rfl, by rw [same], ?_⟩
    rw [id_node, number] at merged
    rw [number] at blended
    rw [stripped, Result.ok_bind, blended, Result.ok_bind]
    exact merged
  · rw [lookup_blend, Members.lookup_reverse distinct]
  · exact ((lodged place declares).mono early.later).merges (kept place.name)

/-- After any run, a document can be merged onto any clause of its kind. Everything outside the
target stays as it was. The attributes of the target are extended by the new ones, or replaced
with them under `replaceAll`, and each of its slots holds the old clauses, the new ones, or the old
ones and the new. -/
theorem merges_by_mode (steps : List Step)
    (admitted : ∀ edit, Step.edit edit ∈ steps → edit.input.Accepted ∧ edit.input.Registered)
    {query : Query} (ran : steps.foldlM Step.apply {} = .ok query) (free : query.mapping = none)
    {target : Branch QueryNode} (member : target ∈ query.tree.nodes) {current : CompoundClause}
    (content : target.content = .compound current) {address : Address}
    (found : query.find address = .ok target.id) {input : Input} (distinct : input.distinct = true)
    {key : Option String} {added : CompoundClause} {slots : List (Shape QueryNode)}
    (read : input.read = .ok (some (.node ⟨key, .compound added⟩ slots)))
    (same : added.kind = current.kind) {options : Options} (onto : options.onto = some address)
    (apart : options.below = none) :
    ∃ grown after, query.insert input options = .ok (query.withTree after) ∧
      Regrown query.tree target grown after ∧
      Merged (options.mode.getD query.mergeMode) query.tree.next current added slots target
        grown := by
  have structured := structured_run (structured_empty inert_known none true .add) steps
    (fun edit inside => (admitted edit inside).1.admitted_known (admitted edit inside).2) ran
  rw [nodes_eq_live structured.settled] at member
  obtain ⟨shape, isShape, plain⟩ := plain_of_read distinct read
  cases isShape
  obtain ⟨grown, after, merged, rest⟩ :=
    mergeOnto_done structured free member content same found plain.sheer (plain.distinct added rfl)
      (options.mode.getD query.mergeMode)
  refine ⟨grown, after, ?_, rest⟩
  simp only [insert, read, Result.ok_bind, onto, apart]
  exact merged

def nestedRun : List Step :=
  [.edit (.insert (.document (nestedTerm "roles" "roles.gender" "F")) {})]

def isNested : QueryNode → Bool
  | .leaf _ => false
  | .compound clause => clause.kind = QueryKind.nested
  | .slot _ => false

theorem isNested_iff {node : QueryNode} : isNested node = true ↔
    ∃ clause, node = .compound clause ∧ clause.kind = QueryKind.nested := by
  cases node <;> simp [isNested]

/-- A nested clause on one term is merged onto another, so the one slot holds both terms. -/
theorem merges_by_mode_joined :
    ∃ query target final grown clauses, nestedRun.foldlM Step.apply {} = .ok query ∧
      target ∈ query.tree.nodes ∧
      query.insert (.document (nestedTerm "offers" "offers.price" "1"))
        { onto := some (.id 0), mode := some .add } = .ok final ∧
      Regrown query.tree target grown final.tree ∧
      (under "query" target).length = 1 ∧ clauses.length = 1 ∧
      Lodged query.tree.next queryPlace (under "query" target) clauses (under "query" grown) := by
  have made : (nestedRun.foldlM Step.apply {}).toOption.any (fun query => query.mapping.isNone &&
      query.tree.nodes.any fun node => isNested node.content && (under "query" node).length = 1 &&
        (query.find (.id 0)).toOption = some node.id) = true := by decide +kernel
  have parsed : (Input.document (nestedTerm "offers" "offers.price" "1")).read.toOption.any (fun
      incoming => incoming.any fun shape => isNested shape.label.content &&
        (clausesIn "query" shape.children).length = 1) = true := by decide +kernel
  obtain ⟨query, ran, facts⟩ := Result.ok_of_any made
  obtain ⟨incoming, read, new⟩ := Result.ok_of_any parsed
  simp only [Bool.and_eq_true, List.any_eq_true, Option.any_eq_true, Option.isNone_iff_eq_none,
    decide_eq_true_eq, isNested_iff] at facts new
  obtain ⟨free, target, member, ⟨⟨current, content, nested⟩, old⟩, found⟩ := facts
  obtain ⟨⟨⟨key, node⟩, slots⟩, rfl, ⟨added, adding, kind⟩, one⟩ := new
  cases adding
  have onto : ({ onto := some (.id 0), mode := some .add } : Options).onto = some (.id 0) := rfl
  obtain ⟨grown, after, inserted, grew, merged⟩ := merges_by_mode nestedRun
    (by simp [nestedRun, Edit.input, Input.Accepted, Input.Registered]) ran free member content
    (Result.toOption_eq_some.mp found) (by decide +kernel) read (kind.trans nested.symm) onto rfl
  exact ⟨query, target, _, grown, _, ran, member, inserted, grew, old, one,
    merged.clauses queryPlace (by rw [nested]; decide +kernel)⟩

end Query

end ScopedClauses
