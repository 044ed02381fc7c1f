import ScopedClauses.Proofs.Aggregation.Accepted
import ScopedClauses.Proofs.Tree.Appending

/-!
What becomes of an accepted declaration. It is written back level by level. Where its clauses
settle where they are inserted, as all do without a mapping, it is inserted as it is read: every
clause becomes the last child of its parent and takes the next number.
-/

namespace ScopedClauses

open Rose Tree

theorem Members.filter_key {key : String} {members : Members} (distinct : members.keys.Nodup) :
    members.filter (fun member => member.1 = key) =
      ((members.lookup key).map fun content => (key, content)).toList := by
  induction members with
  | nil => rfl
  | cons member rest ih =>
      obtain ⟨name, content⟩ := member
      obtain ⟨fresh, tail⟩ := List.nodup_cons.mp distinct
      rw [lookup_member]
      by_cases here : key = name
      · subst here
        rw [List.filter_cons_of_pos (by simp), ih tail, lookup_of_not_mem_keys fresh, if_pos rfl]
        rfl
      · rw [List.filter_cons_of_neg (by simpa using Ne.symm here), ih tail, if_neg here]

namespace AggNode

open Aggregations

/-! ### Writing -/

def rewrittenMembers (declared level written : Members) : Members :=
  declared.filter (fun member => !isBelow member) ++
    if level.isEmpty then [] else [("aggs", .object written)]

/-- How a level is written back: the same names in the same order, and the members of each
declaration in some order. -/
inductive Rewritten : Members → Members → Prop where
  | nil : Rewritten [] []
  | cons {name : String} {declared level written output rest others : Members}
      (here : levelBelow declared = .object level) (below : Rewritten level written)
      (same : output.Perm (rewrittenMembers declared level written)) (beside : Rewritten rest others) :
      Rewritten ((name, .object declared) :: rest) ((name, .object output) :: others)

theorem Rewritten.isEmpty_eq {level written : Members} (rewritten : Rewritten level written) :
    written.isEmpty = level.isEmpty := by
  cases rewritten <;> rfl

theorem clauseJson_eq {clause : AggClause} (registered : clause.kind ∈ AggKind.all)
    (written : Members) :
    clauseJson clause written = .object ((clause.kind.tag, .object clause.body) ::
      ((if written.isEmpty then [] else [("aggs", .object written)]) ++
        (clause.annotation.map fun members => ("meta", Json.object members)).toList)) := by
  obtain ⟨beside, _, apart⟩ := AggKind.tag_apart registered
  unfold clauseJson
  cases clause.annotation <;> cases written <;> simp [Members.put, beside, apart]

namespace Declares

variable {declared : Members} {clause : AggClause} (declares : Declares declared clause)

include declares

theorem beside_perm (distinct : declared.keys.Nodup) :
    (declared.filter fun member => !isBelow member).Perm
      ((clause.kind.tag, .object clause.body) ::
        (clause.annotation.map fun members => ("meta", Json.object members)).toList) := by
  have typed : (declared.filter fun member => !isBelow member).filter isTyped =
      [(clause.kind.tag, .object clause.body)] := by
    rw [← declares.typed, List.filter_filter]
    exact List.filter_congr fun member _ => by cases here : isBelow member <;> simp [isTyped, here]
  have others : (declared.filter fun member => !isBelow member).filter (fun member =>
      !isTyped member) = declared.filter fun member => member.1 = "meta" := by
    rw [List.filter_filter]
    refine List.filter_congr fun member _ => ?_
    by_cases here : member.1 = "meta"
    · simp [isTyped, isBelow, here, isChildrenKey]
    · cases below : isBelow member <;> simp [isTyped, here, below]
  have parts := List.filter_append_perm isTyped (declared.filter fun member => !isBelow member)
  rw [typed, others, Members.filter_key distinct, declares.noted, Option.map_map] at parts
  exact parts.symm

theorem clauseJson_rewritten (distinct : declared.keys.Nodup) {level written : Members}
    (empty : written.isEmpty = level.isEmpty) :
    ∃ output, clauseJson clause written = .object output ∧
      output.Perm (rewrittenMembers declared level written) := by
  refine ⟨_, clauseJson_eq declares.registered written, ?_⟩
  rw [rewrittenMembers, ← empty]
  exact (List.perm_append_comm.cons _).trans ((declares.beside_perm distinct).symm.append_right _)

end Declares

theorem Reads.rewritten {parent : AggNode} {level : Members} {shapes : List (Shape AggNode)}
    (reads : Reads parent level shapes) (distinct : Json.distinctMembers level = true) :
    Rewritten level (toMembers shapes) := by
  induction reads with
  | nil => exact .nil
  | @cons parent name declared level rest clause children shapes declares fits here below beside
      ihBelow ihBeside =>
      rw [Json.distinctMembers_cons, Json.distinct_object] at distinct
      obtain ⟨⟨unique, inside⟩, others⟩ := distinct
      have below := distinct_levelBelow inside
      rw [here, Json.distinct_object] at below
      have written := ihBelow below.2
      obtain ⟨output, made, same⟩ := declares.clauseJson_rewritten unique written.isEmpty_eq
      rw [toMembers, ownMembers]
      dsimp only
      rw [made]
      exact .cons here written same (ihBeside others)

/-! ### Inserting -/

theorem namesOf_shapes (forest : List (Branch AggNode)) :
    namesOf (shapes forest) = (entries forest).filterMap (·.key) := by
  rw [namesOf, nodesOf, preorderAll_shapes, entries, List.map_map, List.filterMap_map,
    List.filterMap_map]
  exact List.filterMap_congr fun branch _ => by
    simp only [Function.comp, label_shape]

theorem names_appended {before after : Tree AggNode} {holder : Branch AggNode}
    {forest : List (Shape AggNode)} (numbered : before.Numbered) (member : holder ∈ before.live)
    (appended : Appended before holder forest after) {further : List String}
    (unused : (names before ++ (namesOf forest ++ further)).Nodup) :
    (names after ++ further).Nodup := by
  have grown := (appended.entries_perm numbered member).filterMap (fun entry => entry.key)
  rw [List.filterMap_append, ← namesOf_shapes (numberAll _ _), shapes_numberAll] at grown
  exact (grown.append_right further).nodup_iff.mpr (by rwa [List.append_assoc])

theorem checkChild_siblings (parent child : AggNode) (siblings : Nat) :
    checkChild parent child siblings = checkChild parent child 0 := by
  cases parent <;> cases child <;> rfl

structure Steady (given : Option Mapping) (clause : AggClause) (scope : Option String) : Prop where
  leads : ∀ mapping ∈ given, ∀ path, clause.boundary?.bind Boundary.inside = some path →
    mapping.isNested path = true
  checked : ∀ mapping ∈ given, ∀ field, clause.field? = some field →
    (∃ type, mapping.checkField clause.kind.tag clause.kind.rule field = .ok type) ∧
      mapping.nestedAt field = .ok scope

theorem steady_free (clause : AggClause) (scope : Option String) : Steady none clause scope :=
  ⟨fun _ absent => (by cases absent), fun _ absent => (by cases absent)⟩

theorem settle_steady {aggs : Aggregations} {parent : Nat} {clause : AggClause}
    (steady : Steady aggs.mapping clause (aggs.tree.currentScope parent)) :
    aggs.settle parent clause = .ok (parent, aggs) := by
  rw [settle]
  split
  · rfl
  · rename_i mapping bound
    rw [checkMarker_ok.mpr (steady.leads mapping bound), Result.ok_bind]
    split
    · rename_i field named
      obtain ⟨⟨type, passed⟩, nested⟩ := steady.checked mapping bound field named
      rw [passed, Result.ok_bind]
      exact reconcile_here nested _
    · rfl

inductive Rests (given : Option Mapping) :
    AggNode → Option String → List (Shape AggNode) → Prop where
  | nil {parent : AggNode} {scope : Option String} : Rests given parent scope []
  | cons {parent : AggNode} {scope : Option String} {name : String} {clause : AggClause}
      {children shapes : List (Shape AggNode)}
      (fits : checkChild parent (.clause clause) 0 = .ok ()) (steady : Steady given clause scope)
      (below : Rests given (.clause clause) (within scope (AggNode.clause clause)) children)
      (beside : Rests given parent scope shapes) :
      Rests given parent scope (.node ⟨some name, .clause clause⟩ children :: shapes)

theorem Reads.rests {parent : AggNode} {level : Members} {shapes : List (Shape AggNode)}
    (reads : Reads parent level shapes) (scope : Option String) : Rests none parent scope shapes := by
  induction reads generalizing scope with
  | nil => exact .nil
  | cons _ fits _ _ _ ihBelow ihBeside =>
      exact .cons fits (steady_free _ scope) (ihBelow _) (ihBeside scope)

/-- A clause that settles where it is inserted becomes the last child there. -/
theorem insertShape_settled {aggs : Aggregations} (whole : Whole aggs.tree)
    {holder : Branch AggNode} (member : holder ∈ aggs.tree.live) {name : String}
    (unused : name ∉ names aggs.tree) {clause : AggClause}
    (settled : aggs.settle holder.id clause = .ok (holder.id, aggs))
    (fits : checkChild holder.content (.clause clause) 0 = .ok ())
    (children : List (Shape AggNode)) :
    ∃ middle, Appended aggs.tree holder [.node ⟨some name, .clause clause⟩ []] middle ∧
      aggs.insertShape holder.id (.node ⟨some name, .clause clause⟩ children) =
        (fun final => (aggs.tree.next, final)) <$>
          (aggs.withTree middle).insertShapes aggs.tree.next children := by
  have absent := (findByKey?_eq_none_iff whole.settled).mpr unused
  obtain ⟨middle, placed, grew, next⟩ := insert_taken whole.numbered member (some name)
    ((checkChild_siblings _ _ _).trans fits)
  have node : aggs.insertNode clause holder.id name = .ok (aggs.tree.next, aggs.withTree middle) := by
    rw [insertNode, placed]
    rfl
  refine ⟨middle, ⟨grew, next⟩, ?_⟩
  rw [insertShape]
  simp [absent, settled, node]

theorem Rests.inserted {given : Option Mapping} {parent : AggNode} {scope : Option String}
    {shapes : List (Shape AggNode)} (rests : Rests given parent scope shapes)
    {aggs : Aggregations} (bound : aggs.mapping = given) (whole : Whole aggs.tree)
    {holder : Branch AggNode} {around : Option String}
    (site : (holder, around) ∈ sites none aggs.tree.branches) (content : holder.content = parent)
    (inside : within around holder.content = scope)
    (unused : (names aggs.tree ++ namesOf shapes).Nodup) :
    ∃ after, aggs.insertShapes holder.id shapes = .ok (aggs.withTree after) ∧
      Appended aggs.tree holder shapes after := by
  have member := mem_of_site site
  induction rests generalizing aggs holder around with
  | nil => exact ⟨aggs.tree, rfl, Appended.nil whole.numbered member⟩
  | @cons parent scope name clause children shapes fits steady below beside ihBelow ihBeside =>
      subst content inside
      have numbered := whole.numbered
      rw [namesOf_cons] at unused
      have fresh : name ∉ names aggs.tree :=
        fun present => (List.nodup_append.mp unused).2.2 name present name (by simp) rfl
      rw [← currentScope_of_site numbered site, ← bound] at steady
      obtain ⟨middle, bud, step⟩ :=
        insertShape_settled whole member fresh (settle_steady steady) fits children
      have opened := bud.grew.site_new numbered site
      have budSite := child_site none middle.branches opened
        (show Tree.bud (some name) (AggNode.clause clause) aggs.tree.next ∈ _ by
          simp [numberAll, Rose.number, Tree.bud])
      -- what is below the clause
      have unusedBelow : (names aggs.tree ++ (name :: namesOf children)).Nodup :=
        unused.sublist (((List.sublist_append_left _ _).cons_cons _).append_left _)
      have boundMiddle : (aggs.withTree middle).mapping = given := bound
      obtain ⟨inner, inserted, filled⟩ := ihBelow boundMiddle (whole.regrown bud.grew member)
        budSite rfl rfl (names_appended numbered member bud unusedBelow) (mem_of_site budSite)
      have first := bud.nest numbered member filled
      -- what is beside the clause
      have unusedBeside : (names inner ++ namesOf shapes).Nodup := by
        refine names_appended numbered member first ?_
        rw [namesOf_cons]
        simpa [namesOf, nodesOf, preorderAll] using unused
      have boundInner : (aggs.withTree inner).mapping = given := bound
      have wholeInner := whole.regrown first.grew member
      have grown := first.grew.site_new numbered site
      obtain ⟨after, others, appended⟩ :=
        ihBeside boundInner wholeInner grown rfl rfl unusedBeside (mem_of_site grown)
      refine ⟨after, ?_, first.append numbered member appended⟩
      rw [insertShapes, step, show (aggs.withTree middle).insertShapes aggs.tree.next children =
        .ok (aggs.withTree inner) from inserted]
      exact others

end AggNode

namespace Aggregations

open AggNode

/-- What is read is inserted as it is, where every clause settles where it is inserted. -/
theorem ofJson_settled {json : Json} {shapes : List (Shape AggNode)} {given : Option Mapping}
    (read : AggNode.ofJson json = .ok (.node ⟨none, .root⟩ shapes))
    (rests : Rests given .root none shapes) (unused : (namesOf shapes).Nodup) :
    ∃ aggs, Aggregations.ofJson json given = .ok aggs ∧
      aggs.tree = ofShape (.node ⟨none, .root⟩ shapes) := by
  obtain ⟨sound, unnamed⟩ := sound_empty given true
  have site : (.node ⟨⟨none, .root⟩, 0⟩ [], none) ∈
      sites none ({ mapping := given } : Aggregations).tree.branches :=
    top_site (by rw [branches_empty]; exact List.mem_singleton_self _)
  obtain ⟨after, inserted, appended⟩ := rests.inserted rfl sound.toWhole site rfl rfl
    (by rwa [unnamed, List.nil_append])
  refine ⟨({ mapping := given } : Aggregations).withTree after, ?_, appended.eq_ofShape⟩
  rw [Aggregations.ofJson, read]
  exact inserted

/-- Without a mapping, a declaration is inserted as it is read. -/
theorem ofJson_exact {json : Json} (distinct : json.distinct = true) {shape : Shape AggNode}
    (read : AggNode.ofJson json = .ok shape) :
    ∃ aggs, Aggregations.ofJson json none = .ok aggs ∧ aggs.tree = ofShape shape := by
  obtain ⟨level, shapes, rfl, reads, unused, rfl⟩ := (ofJson_iff distinct).mp read
  exact ofJson_settled read (reads.rests none) unused

/-- A declaration is accepted exactly when its levels are in order and no name occurs twice in
it. What was read, and what is inserted of it without a mapping, is written back level by level. -/
theorem accepted_and_rewritten {json : Json} (distinct : json.distinct = true) :
    ((∃ shape, AggNode.ofJson json = .ok shape) ↔
      ∃ level names, json = .object level ∧ Level level names ∧ names.Nodup) ∧
    ∀ shape, AggNode.ofJson json = .ok shape →
      ∃ level written, json = .object level ∧ Rewritten level written ∧
        declarationOf (ofShape shape) = written ∧
        ∃ aggs, Aggregations.ofJson json none = .ok aggs ∧ aggs.toJson = .object written := by
  refine ⟨⟨?_, ?_⟩, fun shape read => ?_⟩
  · rintro ⟨shape, read⟩
    obtain ⟨level, shapes, rfl, reads, unused, rfl⟩ := (ofJson_iff distinct).mp read
    exact ⟨level, namesOf shapes, rfl, level_of_reads reads, unused⟩
  · rintro ⟨level, names, rfl, accepted, unused⟩
    obtain ⟨shapes, reads, rfl⟩ : ∃ shapes, Reads .root level shapes ∧ namesOf shapes = names :=
      reads_of_level accepted fun _ _ => rfl
    exact ⟨_, (ofJson_iff distinct).mpr ⟨level, shapes, rfl, reads, unused, rfl⟩⟩
  · obtain ⟨aggs, inserted, same⟩ := ofJson_exact distinct read
    obtain ⟨level, shapes, rfl, reads, unused, rfl⟩ := (ofJson_iff distinct).mp read
    have written : declarationOf (ofShape (.node ⟨none, .root⟩ shapes)) = toMembers shapes := by
      rw [declarationOf, shape?_ofShape]
      rfl
    refine ⟨level, toMembers shapes, rfl, reads.rewritten (Json.distinct_object.mp distinct).2,
      written, aggs, inserted, ?_⟩
    rw [toJson, same, written]

def tagLevel : Members :=
  [("per_tag", .object [("meta", .object []),
    ("aggregations", .object [("top", .object [("max", .object [("field", .string "price")]),
      ("aggs", .object [])])]),
    ("terms", .object [("field", .string "tag")])])]

theorem accepted_and_rewritten_tags :
    ∃ names shape written, Level tagLevel names ∧ names.Nodup ∧
      AggNode.ofJson (.object tagLevel) = .ok shape ∧ (ofShape shape).len = 3 ∧
      Rewritten tagLevel written ∧ declarationOf (ofShape shape) = written ∧
      ∃ aggs, Aggregations.ofJson (.object tagLevel) none = .ok aggs ∧
        aggs.toJson = .object written := by
  have reads : (AggNode.ofJson (.object tagLevel)).toOption.any
      (fun shape => (ofShape shape).len = 3) = true := by decide +kernel
  obtain ⟨shape, read, counted⟩ := Result.ok_of_any reads
  have distinct : (Json.object tagLevel).distinct = true := by decide +kernel
  obtain ⟨accepts, writes⟩ := accepted_and_rewritten distinct
  obtain ⟨_, names, ⟨⟩, accepted, unused⟩ := accepts.mp ⟨shape, read⟩
  obtain ⟨_, written, ⟨⟩, rewritten, parsed⟩ := writes shape read
  exact ⟨names, shape, written, accepted, unused, read, by simpa using counted, rewritten, parsed⟩

end Aggregations

end ScopedClauses
