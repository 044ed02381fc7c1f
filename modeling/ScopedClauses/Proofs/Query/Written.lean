import ScopedClauses.Proofs.Query.Legible

/-!
Writing and reading undo each other. What is written of a legible clause tree is read as that
tree, and what is written of a document that was read is the document, up to the order of keys,
with every clause that stood alone under a parameter for many in a list.
-/

namespace ScopedClauses

namespace QueryNode

open Rose Weaving

/-! ### Writing slots -/

def writtenSlots (slots : List (Shape QueryNode)) : Members :=
  slots.filterMap fun shape => do
    let place ← shape.label.content.slot?
    let content ← toJson? shape
    some (place.name, content)

theorem writtenSlots_cons {key : Option String} {place : Slot}
    {clauses rest : List (Shape QueryNode)} {content : Json}
    (written : toJson? (.node ⟨key, .slot place⟩ clauses) = some content) :
    writtenSlots (.node ⟨key, .slot place⟩ clauses :: rest) =
      (place.name, content) :: writtenSlots rest := by
  simp [writtenSlots, slot?, written]

theorem keys_writtenSlots {name : String} : ∀ slots : List (Shape QueryNode),
    name ∈ (writtenSlots slots).keys → name ∈ (contents slots).map tag
  | [], inside => by cases inside
  | .node ⟨key, content⟩ clauses :: rest, inside => by
      simp only [List.map_cons, List.mem_cons]
      cases content with
      | slot place =>
          cases written : toJson? (.node ⟨key, .slot place⟩ clauses) with
          | none =>
              have skipped : writtenSlots (.node ⟨key, .slot place⟩ clauses :: rest) =
                  writtenSlots rest := by simp [writtenSlots, slot?, written]
              rw [skipped] at inside
              exact Or.inr (keys_writtenSlots rest inside)
          | some json =>
              rw [writtenSlots_cons written] at inside
              rcases List.mem_cons.mp inside with here | later
              · exact Or.inl here
              · exact Or.inr (keys_writtenSlots rest later)
      | leaf clause => exact Or.inr (keys_writtenSlots rest inside)
      | compound clause => exact Or.inr (keys_writtenSlots rest inside)

theorem writeSlots_eq {clause : CompoundClause} : ∀ (slots : List (Shape QueryNode)) (body : Members),
    FormedSlots (.compound clause) slots → (∀ name ∈ (contents slots).map tag, name ∉ body.keys) →
    writeSlots body slots = body ++ writtenSlots slots
  | [], body, _, _ => by simp [writeSlots, writtenSlots]
  | .node ⟨key, content⟩ clauses :: rest, body, formed, apart => by
      obtain ⟨_, ⟨place, content, _⟩, alone, formedRest⟩ := formedSlots_cons.mp formed
      cases content
      simp only [contents, List.map_cons, List.forall_mem_cons] at apart
      have fresh : place.name ∉ body.keys := apart.1
      rw [writeSlots]
      cases written : toJson? (.node ⟨key, .slot place⟩ clauses) with
      | none =>
          have skipped : writtenSlots (.node ⟨key, .slot place⟩ clauses :: rest) =
              writtenSlots rest := by simp [writtenSlots, slot?, written]
          rw [skipped]
          exact writeSlots_eq rest body formedRest apart.2
      | some json =>
          rw [writtenSlots_cons written]
          simp only [label_node, slot?]
          rw [Members.put_new fresh, writeSlots_eq rest _ formedRest ?_, List.append_assoc]
          · rfl
          · intro name later present
            rw [Members.keys, List.map_append, List.mem_append] at present
            rcases present with before | here
            · exact apart.2 name later before
            · rw [List.map_cons, List.map_nil, List.mem_singleton] at here
              have here : name = place.name := here
              subst here
              exact alone later

theorem names_apart {clause : CompoundClause} {slots : List (Shape QueryNode)}
    (formed : FormedSlots (.compound clause) slots)
    (attributes : ∀ key ∈ clause.body.keys, clause.kind.slot? key = none) :
    ∀ name ∈ (contents slots).map tag, name ∉ clause.body.keys := by
  intro name named inside
  obtain ⟨node, below, rfl⟩ := List.mem_map.mp named
  obtain ⟨place, rfl, declares⟩ := formed.2.2.1 node below
  have free := attributes _ inside
  rw [show tag (.slot place) = place.name from rfl, declares] at free
  cases free

/-! ### Reading what was written -/

section

variable {mapping : Option Mapping}

theorem readSlots_attributes {kind : CompoundKind} (slots : Members) : ∀ body : Members,
    (∀ key ∈ body.keys, kind.slot? key = none) →
    readSlots kind (body ++ slots) = readSlots kind slots
  | [], _ => rfl
  | (key, content) :: rest, apart => by
      simp only [Members.keys, List.map_cons, List.forall_mem_cons] at apart
      rw [List.cons_append, readSlots, apart.1]
      exact readSlots_attributes slots rest apart.2

theorem attributes_append {kind : CompoundKind} {body slots : Members}
    (apart : ∀ key ∈ body.keys, kind.slot? key = none)
    (declared : ∀ key ∈ slots.keys, (kind.slot? key).isSome = true) :
    attributes kind (body ++ slots) = body := by
  rw [attributes, List.filter_append]
  have kept : body.filter (fun member => (kind.slot? member.1).isNone) = body :=
    List.filter_eq_self.mpr fun member inside => by
      simp [apart member.1 (List.mem_map_of_mem inside)]
  have dropped : slots.filter (fun member => (kind.slot? member.1).isNone) = [] :=
    List.filter_eq_nil_iff.mpr fun member inside => by
      have found := declared member.1 (List.mem_map_of_mem inside)
      simpa [Option.isSome_iff_ne_none] using found
  rw [kept, dropped, List.append_nil]

theorem declared_written {clause : CompoundClause} {slots : List (Shape QueryNode)}
    (formed : FormedSlots (.compound clause) slots) :
    ∀ key ∈ (writtenSlots slots).keys, (clause.kind.slot? key).isSome = true := by
  intro key inside
  obtain ⟨node, below, rfl⟩ := List.mem_map.mp (keys_writtenSlots slots inside)
  obtain ⟨place, rfl, declares⟩ := formed.2.2.1 node below
  rw [show tag (.slot place) = place.name from rfl, declares]
  rfl

mutual

theorem ofMembers_toJson : ∀ shape, Formed [shape] → AllLegible mapping [shape] →
    shape.label.content.slot? = none →
    ∃ members, toJson? shape = some (.object members) ∧ ofMembers members = .ok shape
  | .node ⟨key, content⟩ children, formed, legible, bare => by
      rw [formed_cons] at formed
      obtain ⟨here, below⟩ := (allLegible_singleton _ _).mp legible
      match content, here, formed with
      | .leaf clause, here, formed =>
          have empty : children = [] := List.map_eq_nil_iff.mp formed.1
          subst empty
          obtain ⟨known, named⟩ := here.readable
          have keyed : key = name? (.leaf clause) := here.key
          refine ⟨_, rfl, ?_⟩
          rw [ofMembers, show QueryKind.ofTag clause.kind.tag = .ok (.leaf clause.kind) from
            QueryKind.ofTag_tag known]
          rw [keyed]
          simp only [Result.ok_bind, LeafClause.ofBody, named, QueryNode.keyed]
          rfl
      | .compound clause, here, formed =>
          obtain ⟨made, apart⟩ := here.readable
          have keyed : key = name? (.compound clause) := here.key
          have slots : FormedSlots (.compound clause) children := ⟨formed.2.1, formed.1⟩
          have read := readSlots_written children slots below
          refine ⟨_, rfl, ?_⟩
          rw [ofMembers, show QueryKind.ofTag clause.kind.tag = .ok (.compound clause.kind) from
            QueryKind.ofTag_tag formed.1.1]
          simp only [Result.ok_bind]
          rw [writeSlots_eq children clause.body slots (names_apart slots apart),
            attributes_append apart (declared_written slots), made, readSlots_attributes _ _ apart,
            read]
          rw [keyed]
          rfl
  termination_by structural shape => shape

theorem readSlots_written {clause : CompoundClause} : ∀ slots,
    FormedSlots (.compound clause) slots → AllLegible mapping slots →
    readSlots clause.kind (writtenSlots slots) = .ok slots
  | [], _, _ => rfl
  | .node ⟨key, content⟩ clauses :: rest, formed, legible => by
      obtain ⟨formedSlot, ⟨place, content, declares⟩, _, formedRest⟩ := formedSlots_cons.mp formed
      cases content
      rw [formed_cons] at formedSlot
      obtain ⟨here, below, beside⟩ := (allLegible_cons _ _ _).mp legible
      have keyed : key = some place.name := here.key
      subst keyed
      have again := readSlots_written rest formedRest beside
      obtain ⟨written, read⟩ :=
        readAll_written clauses formedSlot.2.1 below formedSlot.1.1
      have restored : ∃ content,
          toJson? (.node ⟨some place.name, .slot place⟩ clauses) = some content ∧
          readSlot clause.kind.tag place content = .ok clauses := by
        cases many : place.multiple with
        | true =>
            refine ⟨.array (writeAll clauses), by rw [toJson?, if_pos many], ?_⟩
            rw [readSlot, if_pos many]
            exact read
        | false =>
            have few := formedSlot.1.2 many
            have filled := here.filled place rfl many
            match clauses, few, filled with
            | [only], _, _ =>
                obtain ⟨body, first⟩ := written only (by simp)
                refine ⟨.object body, by rw [toJson?, many]; simp [writeAll, first], ?_⟩
                simp only [writeAll, first, readAll, ofJson, Result.bind_ok] at read
                obtain ⟨clause, found, _, _, same⟩ := read
                cases Result.pure_ok.mp same
                rw [readSlot, found]
                rfl
      obtain ⟨content, written, read⟩ := restored
      rw [writtenSlots_cons written, readSlots, declares]
      simp only [read, again, Result.ok_bind]
      rfl
  termination_by structural slots => slots

theorem readAll_written : ∀ clauses, Formed clauses → AllLegible mapping clauses →
    (∀ node ∈ contents clauses, node.slot? = none) →
    (∀ clause ∈ clauses, ∃ members, toJson? clause = some (.object members)) ∧
      readAll (writeAll clauses) = .ok clauses
  | [], _, _, _ => ⟨by simp, rfl⟩
  | clause :: rest, formed, legible, bare => by
      rw [formed_cons_iff] at formed
      rw [allLegible_cons_iff] at legible
      simp only [contents, List.map_cons, List.forall_mem_cons] at bare
      obtain ⟨members, written, read⟩ := ofMembers_toJson clause formed.1 legible.1 bare.1
      obtain ⟨others, again⟩ := readAll_written rest formed.2 legible.2 bare.2
      refine ⟨List.forall_mem_cons.mpr ⟨⟨members, written⟩, others⟩, ?_⟩
      simp only [writeAll, written, readAll, ofJson, read, again, Result.ok_bind]
      rfl
  termination_by structural clauses => clauses

end

theorem parse_documentOf {shape : Shape QueryNode} (formed : Formed [shape])
    (legible : AllLegible mapping [shape]) (bare : shape.label.content.slot? = none) :
    ∃ json, toJson? shape = some json ∧ ofJson json = .ok shape := by
  obtain ⟨members, written, read⟩ := ofMembers_toJson shape formed legible bare
  exact ⟨.object members, written, by rw [ofJson, read]⟩

end

/-! ### Writing what was read -/

mutual

def listed : Json → Json
  | .object members => .object (listedMembers members)
  | other => other

def listedMembers : List (String × Json) → Members
  | [(tag, .object body)] =>
      match QueryKind.ofTag tag with
      | .ok (.compound kind) => [(tag, .object (listedSlots kind body))]
      | _ => [(tag, .object body)]
  | members => members

def listedSlots (kind : CompoundKind) : List (String × Json) → Members
  | [] => []
  | (key, content) :: rest =>
      match kind.slot? key with
      | some place => (key, listedContent place content) :: listedSlots kind rest
      | none => (key, content) :: listedSlots kind rest

def listedContent (place : Slot) : Json → Json
  | .array items => .array (listedAll items)
  | .object members =>
      if place.multiple then .array [.object (listedMembers members)]
      else .object (listedMembers members)
  | other => other

def listedAll : List Json → List Json
  | [] => []
  | item :: rest => listed item :: listedAll rest

end

open Json in
mutual

/-- What is written of a document that was read. -/
theorem toJson_ofJson {shape : Shape QueryNode} : ∀ json : Json, json.distinct = true →
    ofJson json = .ok shape → ∃ written, toJson? shape = some written ∧ Alike written (listed json)
  | .object members, distinct, read => by
      rw [ofJson] at read
      obtain ⟨body, written, alike⟩ :=
        toJson_ofMembers members (Json.distinct_object.mp distinct).2 read
      exact ⟨.object body, written, alike⟩
  | .null, _, read => by cases read
  | .bool _, _, read => by cases read
  | .number _, _, read => by cases read
  | .string _, _, read => by cases read
  | .array _, _, read => by cases read
  termination_by structural json => json

theorem toJson_ofMembers {shape : Shape QueryNode} : ∀ members : List (String × Json),
    distinctMembers members = true → ofMembers members = .ok shape →
    ∃ written, toJson? shape = some (.object written) ∧
      Alike (.object written) (.object (listedMembers members))
  | [(tag, .object body)], distinct, read => by
      rw [ofMembers, Result.bind_ok] at read
      obtain ⟨kind, found, read⟩ := read
      have tagged := QueryKind.tag_of_ofTag found
      have known := QueryKind.mem_of_ofTag found
      cases kind with
      | leaf kind =>
          simp only [LeafClause.ofBody, Result.bind_ok, Result.pure_ok] at read
          obtain ⟨_, ⟨field, _, rfl⟩, rfl⟩ := read
          have tagged : kind.tag = tag := tagged
          refine ⟨_, rfl, ?_⟩
          rw [listedMembers, found, tagged]
          exact .refl _
      | compound kind =>
          simp only [Result.bind_ok, Result.pure_ok] at read
          obtain ⟨clause, made, slots, below, rfl⟩ := read
          cases ofBody_ok made
          have tagged : kind.tag = tag := tagged
          have unique := distinct_object.mp (distinctMembers_cons.mp distinct).1
          obtain ⟨formed, _, _⟩ :=
            sheer_readSlots (attributes kind body) known body unique.1 unique.2 below
          have apart := names_apart formed fun key inside => (mem_attributes inside).2
          obtain ⟨others, alike, reordered⟩ := toJson_readSlots body unique.1 unique.2 below
          refine ⟨_, rfl, ?_⟩
          rw [listedMembers, found, tagged, writeSlots_eq slots _ formed apart]
          refine .object (.cons (.object (alike.prepend _) reordered) .nil) (.refl _)
  | [], _, read => by cases read
  | [(_, .null)], _, read => by cases read
  | [(_, .bool _)], _, read => by cases read
  | [(_, .number _)], _, read => by cases read
  | [(_, .string _)], _, read => by cases read
  | [(_, .array _)], _, read => by cases read
  | first :: second :: rest, _, read => by
      rw [ofMembers_many] at read
      cases read
  termination_by structural members => members

theorem toJson_readSlots {kind : CompoundKind} {slots : List (Shape QueryNode)} :
    ∀ members : List (String × Json), (Members.keys members).Nodup →
      distinctMembers members = true → readSlots kind members = .ok slots →
      ∃ others, AlikeMembers (writtenSlots slots) others ∧
        (attributes kind members ++ others).Perm (listedSlots kind members)
  | [], _, _, read => by
      cases Result.pure_ok.mp read
      exact ⟨[], .nil, .refl _⟩
  | (key, content) :: rest, unique, distinct, read => by
      simp only [Members.keys, List.map_cons, List.nodup_cons] at unique
      rw [distinctMembers_cons] at distinct
      rw [readSlots] at read
      split at read
      · rename_i free
        obtain ⟨others, alike, reordered⟩ := toJson_readSlots rest unique.2 distinct.2 read
        refine ⟨others, alike, ?_⟩
        rw [listedSlots, free, attributes, List.filter_cons_of_pos (by simp [free])]
        exact reordered.cons _
      · rename_i place declares
        simp only [Result.bind_ok, Result.pure_ok] at read
        obtain ⟨clauses, inside, slots, beside, rfl⟩ := read
        obtain ⟨others, alike, reordered⟩ := toJson_readSlots rest unique.2 distinct.2 beside
        obtain ⟨written, wrote, same⟩ := toJson_readSlot content distinct.1 inside
        have named : place.name = key := CompoundKind.slot?_name declares
        refine ⟨(key, listedContent place content) :: others, ?_, ?_⟩
        · rw [slotShape, writtenSlots_cons wrote, named]
          exact .cons same alike
        · rw [listedSlots, declares, attributes, List.filter_cons_of_neg (by simp [declares])]
          exact List.perm_middle.trans (reordered.cons _)
  termination_by structural members => members

theorem toJson_readSlot {tag : String} {place : Slot} {clauses : List (Shape QueryNode)} :
    ∀ json : Json, json.distinct = true → readSlot tag place json = .ok clauses →
      ∃ written, toJson? (slotShape place clauses) = some written ∧
        Alike written (listedContent place json)
  | .array items, distinct, read => by
      rw [readSlot] at read
      split at read
      · rename_i many
        have alike := toJson_readAll items (by simpa [Json.distinct] using distinct) read
        exact ⟨.array (writeAll clauses), by rw [slotShape, toJson?, if_pos many], .array alike⟩
      · cases read
  | .object members, distinct, read => by
      simp only [readSlot, Result.bind_ok, Result.pure_ok] at read
      obtain ⟨clause, read, rfl⟩ := read
      obtain ⟨body, written, alike⟩ :=
        toJson_ofMembers members (Json.distinct_object.mp distinct).2 read
      have single : writeAll [clause] = [.object body] := by simp [writeAll, written]
      rw [slotShape, toJson?, single, listedContent]
      split
      · exact ⟨_, rfl, .array (.cons alike .nil)⟩
      · exact ⟨_, rfl, alike⟩
  | .null, _, read => by cases read
  | .bool _, _, read => by cases read
  | .number _, _, read => by cases read
  | .string _, _, read => by cases read
  termination_by structural json => json

theorem toJson_readAll {clauses : List (Shape QueryNode)} : ∀ items : List Json,
    distinctAll items = true → readAll items = .ok clauses →
    AlikeAll (writeAll clauses) (listedAll items)
  | [], _, read => by
      cases Result.pure_ok.mp read
      exact .nil
  | item :: rest, distinct, read => by
      simp only [Json.distinctAll, Bool.and_eq_true] at distinct
      simp only [readAll, Result.bind_ok, Result.pure_ok] at read
      obtain ⟨first, here, others, beside, rfl⟩ := read
      obtain ⟨written, wrote, alike⟩ := toJson_ofJson item distinct.1 here
      rw [writeAll, wrote, listedAll]
      exact .cons alike (toJson_readAll rest distinct.2 beside)
  termination_by structural items => items

end

end QueryNode

end ScopedClauses
