import ScopedClauses.Proofs.Query.RoundTrip

/-!
Correction is idempotent. In a corrected query every leaf stands in its scope already, so reading
its document again, with the same mapping, opens no scope and joins nothing.
-/

namespace ScopedClauses

namespace Weaving

open Rose QueryNode

section Correction

variable {mapping : Mapping} {autocorrect : Bool}

theorem routeFor_direct {scope : Option String} {node : QueryNode}
    (checked : Checked (some mapping) node) (fits : Fits mapping node (within scope node)) :
    routeFor (some mapping) autocorrect scope node = .ok [] := by
  cases node with
  | slot place => rfl
  | compound clause => rfl
  | leaf clause =>
      cases named : clause.field with
      | none =>
          simp only [routeFor, named]
          rfl
      | some field =>
          obtain ⟨type, passed⟩ := checked mapping field rfl named
          have here : mapping.nestedAt field = .ok scope := fits.inScope field named
          simp only [Mapping.nestedAt, Functor.map, Except.map] at here
          simp only [routeFor, named, passed, Result.ok_bind, routeTo]
          cases resolved : mapping.nestedScopes field with
          | error error => simp [resolved] at here
          | ok required =>
              simp only [resolved, Except.ok.injEq] at here
              simp only [Result.ok_bind, Crossing.plan, here, if_true]
              rfl

mutual

/-- A clause with every leaf in its scope is corrected to itself. -/
theorem correct_self {scope : Option String} : ∀ shape, Formed [shape] →
    AllLegible (some mapping) [shape] → Everywhere (Fits mapping) scope [shape] →
    shape.label.content.slot? = none →
    correct (some mapping) autocorrect scope shape = .ok shape
  | .node ⟨key, content⟩ children, formed, legible, fits, bare => by
      rw [formed_cons] at formed
      rw [allLegible_singleton] at legible
      rw [everywhere_cons] at fits
      rw [correct]
      match content, formed, fits with
      | .leaf clause, formed, _ =>
          have empty : children = [] := List.map_eq_nil_iff.mp formed.1
          subst empty
          rfl
      | .compound clause, formed, fits =>
          rw [correctSlots_self children [] ⟨formed.2.1, formed.1⟩ legible.2 fits.2.1]
          rfl
  termination_by structural shape => shape

theorem correctSlots_self {scope : Option String} {clause : CompoundClause} :
    ∀ slots done, FormedSlots (.compound clause) (done ++ slots) →
      AllLegible (some mapping) slots → Everywhere (Fits mapping) scope slots →
      correctSlots (some mapping) autocorrect scope (.compound clause) slots done =
        .ok (done ++ slots)
  | [], done, _, _, _ => by
      rw [List.append_nil]
      rfl
  | .node ⟨key, held⟩ clauses :: rest, done, formed, legible, fits => by
      obtain ⟨here, below, beside⟩ := (allLegible_cons _ _ _).mp legible
      rw [everywhere_cons] at fits
      obtain ⟨place, slotted, declares⟩ := formed.2.2.1 held (by simp)
      subst slotted
      have keyed : key = some place.name := here.key
      subst keyed
      have asked : declared (.compound clause) place.name = .ok place :=
        declared_ok.mpr ⟨clause, rfl, declares⟩
      have slot := ((formed_append _ _).mp formed.1).2
      rw [formed_cons] at slot
      have absent := absent_of_formed formed rfl
      have first : correctClauses (some mapping) autocorrect scope place clauses
          (done ++ [.node ⟨some place.name, .slot place⟩ []]) =
            .ok (done ++ [.node ⟨some place.name, .slot place⟩ clauses]) :=
        correctClauses_self rfl absent clauses [] slot.2.1 below fits.2.1 slot.1.1
          (by simpa using slot.1.2)
      have made : changeSlot place (fun old => old) done =
          done ++ [.node ⟨some place.name, .slot place⟩ []] := changeSlot_absent _ absent
      have again := correctSlots_self rest
        (done ++ [.node ⟨some place.name, .slot place⟩ clauses]) (by simpa using formed) beside
        fits.2.2
      simp only [correctSlots, QueryNode.slot?, asked, Result.ok_bind, made]
      rw [first, Result.ok_bind, again, List.append_assoc]
      rfl
  termination_by structural slots => slots

theorem correctClauses_self {scope : Option String} {place : Slot} {label : Keyed QueryNode}
    {front : List (Shape QueryNode)} (content : label.content = .slot place)
    (absent : ∀ other ∈ front, isNamed place.name other = false) :
    ∀ clauses old, Formed clauses → AllLegible (some mapping) clauses →
      Everywhere (Fits mapping) scope clauses → (∀ node ∈ contents clauses, node.slot? = none) →
      (place.multiple = false → old.length + clauses.length ≤ 1) →
      correctClauses (some mapping) autocorrect scope place clauses (front ++ [.node label old]) =
        .ok (front ++ [.node label (old ++ clauses)])
  | [], old, _, _, _, _, _ => by
      rw [List.append_nil]
      rfl
  | clause :: rest, old, formed, legible, fits, bare, few => by
      rw [formed_cons_iff] at formed
      rw [allLegible_cons_iff] at legible
      rw [everywhere_cons_iff] at fits
      simp only [contents, List.map_cons, List.forall_mem_cons] at bare
      have self := correct_self clause formed.1 legible.1 fits.1 bare.1
      have route : routeFor (some mapping) autocorrect scope clause.label.content = .ok [] := by
        obtain ⟨entry, below⟩ := clause
        exact routeFor_direct ((allLegible_singleton _ _).mp legible.1).1.checked
          ((everywhere_cons _ _ _ _).mp fits.1).1
      have refused : refuseSlot clause.label.content = .ok () := refuseSlot_ok.mpr bare.1
      have named : isNamed place.name (.node label old) = true :=
        isNamed_iff.mpr ⟨place, content, rfl⟩
      have added : add place.multiple clause old = old ++ [clause] := by
        cases many : place.multiple with
        | true => rfl
        | false =>
            have length := few many
            rw [List.length_cons] at length
            have empty : old = [] := List.length_eq_zero_iff.mp (by omega)
            rw [empty, add_nil, List.nil_append]
      have again := correctClauses_self content absent rest (old ++ [clause]) formed.2 legible.2
        fits.2 bare.2 (fun single => by
          have length := few single
          simp only [List.length_cons, List.length_append, List.length_nil] at length ⊢
          omega)
      simp only [correctClauses, route, Result.ok_bind, refused, arrive, self, weave]
      rw [changeSlot_split _ absent named, children_node, label_node, added, again]
      simp
  termination_by structural clauses => clauses

end

end Correction

end Weaving

namespace Query

open Rose Tree Weaving QueryNode

def Operation.edit : Operation → Edit
  | .query input => .insert input {}
  | .must input => .must input
  | .should input => .should input
  | .filter input => .filter input
  | .mustNot input => .mustNot input
  | .insert input below mode parameter =>
      .insert input { below := below, mode := mode, parameter := parameter }

theorem Operation.apply_edit (query : Query) (operation : Operation) :
    operation.edit.apply query = operation.apply query := by
  cases operation <;> rfl

theorem registered_of_distinct {input : Input} (distinct : input.distinct = true) :
    input.Registered := by
  cases input with
  | tree given => cases distinct
  | _ => trivial

theorem normal_run {mapping : Mapping} {query final : Query} (intact : query.Intact (some mapping))
    (inScope : query.InScope mapping) (operations : List Operation)
    (distinct : ∀ operation ∈ operations, operation.input.distinct = true)
    (ran : operations.foldlM Operation.apply query = .ok final) :
    final.Intact (some mapping) ∧ final.InScope mapping := by
  have registered : ∀ operation ∈ operations, operation.input.Registered :=
    fun operation inside => registered_of_distinct (distinct operation inside)
  refine ⟨?_, inScope_run inScope operations registered ran⟩
  induction operations generalizing query with
  | nil =>
      cases Result.pure_ok.mp ran
      exact intact
  | cons operation rest ih =>
      rw [List.forall_mem_cons] at distinct registered
      rw [List.foldlM_cons] at ran
      obtain ⟨middle, applied, ran⟩ := Result.bind_ok.mp ran
      have kept : operation.edit.input.distinct = true := by
        cases operation <;> exact distinct.1
      rw [← Operation.apply_edit] at applied
      have between := intact_apply intact kept applied
      rw [Operation.apply_edit] at applied
      exact ih between (inScope_apply inScope registered.1 applied) distinct.2 ran registered.2

theorem ofJson_self {mapping : Mapping} {shape : Shape QueryNode} {json : Json}
    (read : QueryNode.ofJson json = .ok shape) (formed : Formed [shape])
    (legible : AllLegible (some mapping) [shape]) (fits : Everywhere (Fits mapping) none [shape]) :
    ∃ query, Query.ofJson json (some mapping) = .ok query ∧ query.tree.shape? = some shape := by
  have bare := slot?_ofJson read
  have follows : FollowsTop _ (weaveTop (some mapping) true shape []) _ :=
    insertClause_top (sound_empty (some mapping)) shape (allKnown_of_formed formed)
  have route : routeFor (some mapping) true none shape.label.content = .ok [] := by
    obtain ⟨entry, below⟩ := shape
    exact routeFor_direct ((allLegible_singleton _ _).mp legible).1.checked
      ((everywhere_cons _ _ _ _).mp fits).1
  have woven : weaveTop (some mapping) true shape [] = .ok [shape] := by
    simp only [weaveTop, route, Result.ok_bind, refuseJoin, Result.pure_bind, arrive,
      correct_self shape formed legible fits bare]
    rfl
  rw [← ofJson_of_read read, woven] at follows
  obtain ⟨after, made, sound, shapeIs⟩ := follows
  exact ⟨_, made, shape?_of_branches sound.toWhole shapeIs⟩

/-- Correcting what was corrected changes nothing: the document of a query that was built with a
mapping is read, with that mapping, as a query of the same document and as many nodes. -/
theorem ofJson_toJson (mapping : Mapping) (autocorrect : Bool) (mode : MergeMode)
    (operations : List Operation)
    (distinct : ∀ operation ∈ operations, operation.input.distinct = true) {final : Query}
    (ran : operations.foldlM Operation.apply
      { mapping := some mapping, autocorrect := autocorrect, mergeMode := mode } = .ok final)
    (filled : final.isEmpty = false) :
    ∃ json again, final.toJson? = some json ∧ Query.ofJson json (some mapping) = .ok again ∧
      again.toJson? = some json ∧ again.tree.shape? = final.tree.shape? ∧
      again.tree.len = final.tree.len := by
  obtain ⟨intact, inScope⟩ := normal_run (intact_empty (some mapping) autocorrect mode)
    (inScope_empty mapping autocorrect mode) operations distinct ran
  obtain ⟨shape, json, rooted, written, read⟩ := intact.reads filled
  have only : shapes final.tree.branches = [shape] := by
    rw [branches_of_root intact.toWhole]
    rw [Tree.shape?] at rooted
    obtain ⟨root, top, rfl⟩ := Option.map_eq_some_iff.mp rooted
    rw [top, Option.toList_some, shapes_cons_eq, shapes_nil]
  have formed := intact.formed
  have legible := intact.legible
  have fits := inScope.fits
  rw [only] at formed legible fits
  obtain ⟨again, made, same⟩ := ofJson_self read formed legible fits
  have shapesEq : again.tree.shape? = final.tree.shape? := same.trans rooted.symm
  refine ⟨json, again, written, made, ?_, shapesEq, len_eq_of_shape? shapesEq⟩
  rw [← written, toJson?, toJson?, documentOf, documentOf, shapesEq]

theorem ofJson_toJson_genderRun :
    ∃ final json again, genderRun.foldlM Operation.apply { mapping := some rolesMapping : Query } =
        .ok final ∧ final.isEmpty = false ∧
      final.toJson? = some json ∧ Query.ofJson json (some rolesMapping) = .ok again ∧
      again.toJson? = some json ∧ again.tree.shape? = final.tree.shape? ∧
      again.tree.len = final.tree.len := by
  have made : (genderRun.foldlM Operation.apply
      { mapping := some rolesMapping : Query }).toOption.any (fun final => !final.isEmpty) = true := by
    decide +kernel
  obtain ⟨final, ran, filled⟩ := Result.ok_of_any made
  rw [Bool.not_eq_true'] at filled
  obtain ⟨json, again, facts⟩ :=
    ofJson_toJson rolesMapping true .add genderRun (by decide +kernel) ran filled
  exact ⟨final, json, again, ran, filled, facts⟩

end Query

end ScopedClauses
