import ScopedClauses.Proofs.Query.Form

/-!
What a document is read as. Whatever holds of leaves without children, of clauses of registered
kinds over slots of theirs, and of slots over clauses holds of all that is read.
-/

namespace ScopedClauses

namespace QueryKind

theorem mem_of_ofTag {tag : String} {kind : QueryKind} (found : ofTag tag = .ok kind) :
    kind ∈ all := by
  unfold ofTag at found
  split at found
  · rename_i other match_
    cases Result.pure_ok.mp found
    exact List.mem_of_find?_eq_some match_
  · cases found

end QueryKind

namespace QueryNode

open Weaving

theorem ofMembers_many (first second : String × Json) (rest : List (String × Json)) :
    ofMembers (first :: second :: rest) =
      .error (.malformed (.clauseTypeCount (rest.length + 2))) := by
  obtain ⟨tag, content⟩ := first
  cases content <;> rfl

theorem slot?_ofMembers {shape : Shape QueryNode} {members : List (String × Json)}
    (read : ofMembers members = .ok shape) : shape.label.content.slot? = none := by
  unfold ofMembers at read
  split at read
  · obtain ⟨kind, _, read⟩ := Result.bind_ok.mp read
    cases kind with
    | leaf kind =>
        simp only [Result.bind_ok, Result.pure_ok] at read
        obtain ⟨clause, _, rfl⟩ := read
        rfl
    | compound kind =>
        simp only [Result.bind_ok, Result.pure_ok] at read
        obtain ⟨clause, _, slots, _, rfl⟩ := read
        rfl
  · cases read
  · cases read

theorem slot?_ofJson {shape : Shape QueryNode} {json : Json} (read : ofJson json = .ok shape) :
    shape.label.content.slot? = none := by
  cases json with
  | object members =>
      rw [ofJson] at read
      exact slot?_ofMembers read
  | _ => cases read

theorem bare_readAll {items : List Json} {clauses : List (Shape QueryNode)}
    (read : readAll items = .ok clauses) :
    ∀ clause ∈ clauses, clause.label.content.slot? = none := by
  induction items generalizing clauses with
  | nil =>
      cases Result.pure_ok.mp read
      simp
  | cons item rest ih =>
      simp only [readAll, Result.bind_ok, Result.pure_ok] at read
      obtain ⟨first, here, others, beside, rfl⟩ := read
      exact List.forall_mem_cons.mpr ⟨slot?_ofJson here, ih beside⟩

theorem bare_readSlot {tag : String} {place : Slot} {json : Json}
    {clauses : List (Shape QueryNode)} (read : readSlot tag place json = .ok clauses) :
    ∀ clause ∈ clauses, clause.label.content.slot? = none := by
  cases json with
  | array items =>
      rw [readSlot] at read
      split at read
      · exact bare_readAll read
      · cases read
  | object members =>
      simp only [readSlot, Result.bind_ok, Result.pure_ok] at read
      obtain ⟨clause, read, rfl⟩ := read
      simpa using slot?_ofMembers read
  | _ => cases read

theorem few_readSlot {tag : String} {place : Slot} {json : Json} {clauses : List (Shape QueryNode)}
    (single : place.multiple = false) (read : readSlot tag place json = .ok clauses) :
    clauses.length ≤ 1 := by
  cases json with
  | array items =>
      rw [readSlot, single] at read
      cases read
  | object members =>
      simp only [readSlot, Result.bind_ok, Result.pure_ok] at read
      obtain ⟨clause, _, rfl⟩ := read
      exact Nat.le_refl 1
  | _ => cases read

theorem slots_readSlots {kind : CompoundKind} {members : List (String × Json)}
    {slots : List (Shape QueryNode)} (read : readSlots kind members = .ok slots) :
    ∀ slot ∈ slots, ∃ place, slot.label.content = .slot place ∧
      kind.slot? place.name = some place := by
  induction members generalizing slots with
  | nil =>
      cases Result.pure_ok.mp read
      simp
  | cons member rest ih =>
      obtain ⟨key, content⟩ := member
      rw [readSlots] at read
      split at read
      · exact ih read
      · rename_i place declares
        simp only [Result.bind_ok, Result.pure_ok] at read
        obtain ⟨clauses, _, others, beside, rfl⟩ := read
        have named := CompoundKind.slot?_name declares
        exact List.forall_mem_cons.mpr ⟨⟨place, rfl, named ▸ declares⟩, ih beside⟩

structure Read (rule : QueryNode → List QueryNode → Prop) : Prop where
  leaf : ∀ clause, rule (.leaf clause) []
  compound : ∀ clause below, .compound clause.kind ∈ QueryKind.all →
    (∀ child ∈ below, ∃ place, child = .slot place ∧
      clause.kind.slot? place.name = some place) → rule (.compound clause) below
  slot : ∀ place below, (∀ child ∈ below, child.slot? = none) →
    (place.multiple = false → below.length ≤ 1) → rule (.slot place) below

section Ruled

variable {rule : QueryNode → List QueryNode → Prop}

mutual

theorem ruled_ofJson (holds : Read rule) {shape : Shape QueryNode} :
    ∀ json, ofJson json = .ok shape → Ruled rule [shape]
  | .object members, read => ruled_ofMembers holds members (by rwa [ofJson] at read)
  | .null, read => by simp [ofJson, Result.throw_ok] at read
  | .bool _, read => by simp [ofJson, Result.throw_ok] at read
  | .number _, read => by simp [ofJson, Result.throw_ok] at read
  | .string _, read => by simp [ofJson, Result.throw_ok] at read
  | .array _, read => by simp [ofJson, Result.throw_ok] at read
  termination_by structural json => json

theorem ruled_ofMembers (holds : Read rule) {shape : Shape QueryNode} :
    ∀ members, ofMembers members = .ok shape → Ruled rule [shape]
  | [(tag, .object body)], read => by
      rw [ofMembers, Result.bind_ok] at read
      obtain ⟨kind, found, read⟩ := read
      cases kind with
      | leaf kind =>
          simp only [Result.bind_ok, Result.pure_ok] at read
          obtain ⟨clause, _, rfl⟩ := read
          exact (ruled_singleton _ _).mpr ⟨holds.leaf clause, ruled_nil⟩
      | compound kind =>
          simp only [Result.bind_ok, Result.pure_ok] at read
          obtain ⟨clause, made, slots, below, rfl⟩ := read
          have same : clause.kind = kind := by
            unfold CompoundClause.ofBody at made
            split at made
            · cases made
            · cases Result.pure_ok.mp made
              rfl
          refine (ruled_singleton _ _).mpr
            ⟨holds.compound clause _ (same ▸ QueryKind.mem_of_ofTag found) fun child inside => ?_,
              ruled_readSlots holds body below⟩
          obtain ⟨slot, member, rfl⟩ := List.mem_map.mp inside
          exact same ▸ slots_readSlots below slot member
  | [], read => by simp [ofMembers, Result.throw_ok] at read
  | [(_, .null)], read => by simp [ofMembers, Result.throw_ok] at read
  | [(_, .bool _)], read => by simp [ofMembers, Result.throw_ok] at read
  | [(_, .number _)], read => by simp [ofMembers, Result.throw_ok] at read
  | [(_, .string _)], read => by simp [ofMembers, Result.throw_ok] at read
  | [(_, .array _)], read => by simp [ofMembers, Result.throw_ok] at read
  | first :: second :: rest, read => by
      rw [ofMembers_many] at read
      cases read
  termination_by structural members => members

theorem ruled_readSlots (holds : Read rule) {kind : CompoundKind} {slots : List (Shape QueryNode)} :
    ∀ members, readSlots kind members = .ok slots → Ruled rule slots
  | [], read => by
      cases Result.pure_ok.mp read
      exact ruled_nil
  | (key, content) :: rest, read => by
      rw [readSlots] at read
      split at read
      · exact ruled_readSlots holds rest read
      · simp only [Result.bind_ok, Result.pure_ok] at read
        obtain ⟨clauses, inside, others, beside, rfl⟩ := read
        refine (ruled_cons _ _ _).mpr ⟨holds.slot _ _ (fun child below => ?_) (fun single => ?_),
          ruled_readSlot holds content inside, ruled_readSlots holds rest beside⟩
        · obtain ⟨clause, member, rfl⟩ := List.mem_map.mp below
          exact bare_readSlot inside clause member
        · rw [List.length_map]
          exact few_readSlot single inside
  termination_by structural members => members

theorem ruled_readSlot (holds : Read rule) {tag : String} {place : Slot}
    {clauses : List (Shape QueryNode)} :
    ∀ json, readSlot tag place json = .ok clauses → Ruled rule clauses
  | .array items, read => by
      rw [readSlot] at read
      split at read
      · exact ruled_readAll holds items read
      · cases read
  | .object members, read => by
      simp only [readSlot, Result.bind_ok, Result.pure_ok] at read
      obtain ⟨clause, read, rfl⟩ := read
      exact ruled_ofMembers holds members read
  | .null, read => by simp [readSlot, Result.throw_ok] at read
  | .bool _, read => by simp [readSlot, Result.throw_ok] at read
  | .number _, read => by simp [readSlot, Result.throw_ok] at read
  | .string _, read => by simp [readSlot, Result.throw_ok] at read
  termination_by structural json => json

theorem ruled_readAll (holds : Read rule) {clauses : List (Shape QueryNode)} :
    ∀ items, readAll items = .ok clauses → Ruled rule clauses
  | [], read => by
      cases Result.pure_ok.mp read
      exact ruled_nil
  | item :: rest, read => by
      simp only [readAll, Result.bind_ok, Result.pure_ok] at read
      obtain ⟨first, here, others, beside, rfl⟩ := read
      exact (ruled_cons_iff _ _).mpr ⟨ruled_ofJson holds item here, ruled_readAll holds rest beside⟩
  termination_by structural items => items

end

end Ruled

theorem read_known : Read fun node _ => Known node :=
  ⟨fun _ => trivial, fun _ _ known _ => known, fun _ _ _ _ => trivial⟩

theorem allKnown_ofJson {shape : Shape QueryNode} {json : Json} (read : ofJson json = .ok shape) :
    AllKnown [shape] :=
  ruled_ofJson read_known json read

theorem allKnown_ofMembers {shape : Shape QueryNode} {members : List (String × Json)}
    (read : ofMembers members = .ok shape) : AllKnown [shape] :=
  ruled_ofMembers read_known members read

theorem slots_ofJson {shape : Shape QueryNode} {json : Json} (read : ofJson json = .ok shape)
    {clause : CompoundClause} (content : shape.label.content = .compound clause) :
    ∀ slot ∈ shape.children, ∃ place, slot.label.content = .slot place ∧
      clause.kind.slot? place.name = some place := by
  have rule : Read fun node below => ∀ clause, node = .compound clause → ∀ child ∈ below,
      ∃ place, child = .slot place ∧ clause.kind.slot? place.name = some place := by
    refine ⟨fun _ _ impossible => (by cases impossible), fun _ _ _ slots _ same => ?_,
      fun _ _ _ _ _ impossible => (by cases impossible)⟩
    cases same
    exact slots
  have here := ruled_ofJson rule json read shape (Rose.mem_preorderAll_of_mem (by simp))
  exact fun slot below => here clause content _ (List.mem_map_of_mem below)

end QueryNode

theorem Query.ofJson_of_read {json : Json} {shape : Shape QueryNode}
    (read : QueryNode.ofJson json = .ok shape) (mapping : Option Mapping) :
    Query.ofJson json mapping =
      (·.2) <$> ({ mapping := mapping } : Query).insertClause .top shape := by
  have bare : shape.label.content.isSlot = false := by
    rw [QueryNode.isSlot, QueryNode.slot?_ofJson read]
    rfl
  have incoming : (Query.Input.document json).read = .ok (some shape) := by
    rw [Query.Input.read, read]
    rfl
  have top : Query.ofJson json mapping =
      (Query.Input.document json).read >>= fun incoming =>
        ({ mapping := mapping } : Query).insertShape .top incoming := rfl
  rw [top, incoming, Result.ok_bind, Query.insertShape, bare]
  rfl

end ScopedClauses
