import ScopedClauses.Proofs.Query.Structured
import ScopedClauses.Proofs.Tree.Appending

/-!
The grammar of query documents. Reading succeeds on the documents of the grammar and on no others,
and a tree takes what was read node by node.
-/

namespace ScopedClauses

namespace QueryNode

open Rose Tree Weaving

inductive Names : LeafForm → Members → Prop where
  | keyed (field : String) (content : Json) : Names .keyed [(field, content)]
  | parameter {body : Members} {field : String} (held : body.lookup "field" = some (.string field)) :
      Names .parameter body
  | keyedBeside {listed : List String} {front back : Members} {field : String} {content : Json}
      (outside : field ∉ listed) (others : ∀ key ∈ Members.keys (front ++ back), key ∈ listed) :
      Names (.keyedBeside listed) (front ++ (field, content) :: back)
  | fieldless (body : Members) : Names .fieldless body

mutual

/-- The documents of clauses: an object whose only key is the tag of a registered kind. Below a
compound kind every parameter holds clauses, and a kind that enters a scope names its path. -/
inductive Grammatical : Json → Prop where
  | leaf {kind : LeafKind} {body : Members} (registered : .leaf kind ∈ QueryKind.all)
      (names : Names kind.form body) : Grammatical (.object [(kind.tag, .object body)])
  | compound {kind : CompoundKind} {body : Members} (registered : .compound kind ∈ QueryKind.all)
      (held : ∀ key content place, (key, content) ∈ body → kind.slot? key = some place →
        Holdable place content)
      (path : kind.entersScope = true →
        ∃ path, (attributes kind body).lookup "path" = some (.string path)) :
      Grammatical (.object [(kind.tag, .object body)])

inductive Holdable : Slot → Json → Prop where
  | one {place : Slot} {json : Json} (clause : Grammatical json) : Holdable place json
  | many {place : Slot} {items : List Json} (multiple : place.multiple = true)
      (clauses : ∀ item ∈ items, Grammatical item) : Holdable place (.array items)

end

/-! ### Bodies -/

theorem filter_eq_one_iff {listed : List String} {body : Members} {field : String} {content : Json} :
    body.filter (fun member => !listed.contains member.1) = [(field, content)] ↔
      ∃ front back, body = front ++ (field, content) :: back ∧ field ∉ listed ∧
        ∀ key ∈ Members.keys (front ++ back), key ∈ listed := by
  simp only [List.filter_eq_cons_iff, List.filter_eq_nil_iff, Members.keys, List.forall_mem_map,
    List.forall_mem_append]
  constructor
  · rintro ⟨front, back, rfl, before, outside, after⟩
    exact ⟨front, back, rfl, by simpa using outside, by simpa using before, by simpa using after⟩
  · rintro ⟨front, back, rfl, outside, before, after⟩
    exact ⟨front, back, rfl, by simpa using before, by simpa using outside, by simpa using after⟩

theorem readField_iff {kind : LeafKind} {body : Members} :
    (∃ field, LeafClause.readField kind body = .ok field) ↔ Names kind.form body := by
  obtain ⟨tag, form, rule⟩ := kind
  cases form with
  | keyed =>
      constructor
      · rintro ⟨field, read⟩
        simp only [LeafClause.readField] at read
        split at read
        · exact .keyed _ _
        · cases read
      · rintro ⟨field, content⟩
        exact ⟨some field, rfl⟩
  | parameter =>
      constructor
      · rintro ⟨field, read⟩
        simp only [LeafClause.readField] at read
        split at read
        · rename_i held
          exact .parameter held
        · cases read
      · rintro ⟨⟩
        rename_i field held
        exact ⟨some field, by simp only [LeafClause.readField, held]; rfl⟩
  | keyedBeside listed =>
      constructor
      · rintro ⟨field, read⟩
        simp only [LeafClause.readField] at read
        split at read
        · rename_i name content single
          obtain ⟨front, back, rfl, outside, others⟩ := filter_eq_one_iff.mp single
          exact .keyedBeside outside others
        · cases read
      · rintro ⟨⟩
        rename_i front back field content outside others
        have single : (front ++ (field, content) :: back).filter
            (fun member => !listed.contains member.1) = [(field, content)] :=
          filter_eq_one_iff.mpr ⟨front, back, rfl, outside, others⟩
        exact ⟨some field, by simp only [LeafClause.readField, single]; rfl⟩
  | fieldless => exact ⟨fun _ => .fieldless body, fun _ => ⟨none, rfl⟩⟩

theorem string?_isNone {json : Option Json} :
    (json.bind Json.string?).isNone = false ↔ ∃ path, json = some (.string path) := by
  rcases json with - | json
  · simp
  · cases json <;> simp [Json.string?]

theorem ofBody_iff {kind : CompoundKind} {body : Members} :
    (∃ clause, CompoundClause.ofBody kind body = .ok clause) ↔
      (kind.entersScope = true → ∃ path, body.lookup "path" = some (.string path)) := by
  rw [← string?_isNone]
  cases enters : kind.entersScope with
  | false => simp [CompoundClause.ofBody, enters, pure, Except.pure]
  | true =>
      cases missing : ((body.lookup "path").bind Json.string?).isNone with
      | false => simp [CompoundClause.ofBody, missing, pure, Except.pure]
      | true => simp [CompoundClause.ofBody, enters, missing, Result.throw_ok]

/-! ### Documents -/

mutual

theorem ofJson_iff : ∀ json : Json, (∃ shape, ofJson json = .ok shape) ↔ Grammatical json
  | .object members => by
      rw [ofJson]
      exact ofMembers_iff members
  | .null | .bool _ | .number _ | .string _ | .array _ =>
      ⟨fun ⟨_, read⟩ => (by cases read), fun clause => (by cases clause)⟩
  termination_by structural json => json

theorem ofMembers_iff : ∀ members : List (String × Json),
    (∃ shape, ofMembers members = .ok shape) ↔ Grammatical (.object members)
  | [(tag, .object body)] => by
      rw [ofMembers]
      constructor
      · rintro ⟨shape, parsed⟩
        obtain ⟨kind, found, read⟩ := Result.bind_ok.mp parsed
        have registered := QueryKind.mem_of_ofTag found
        obtain rfl := QueryKind.tag_of_ofTag found
        cases kind with
        | leaf kind =>
            obtain ⟨clause, made, _⟩ := Result.bind_ok.mp read
            obtain ⟨field, named, _⟩ := Result.bind_ok.mp made
            exact .leaf registered (readField_iff.mp ⟨field, named⟩)
        | compound kind =>
            obtain ⟨clause, made, read⟩ := Result.bind_ok.mp read
            obtain ⟨slots, below, _⟩ := Result.bind_ok.mp read
            exact .compound registered ((readSlots_iff kind body).mp ⟨slots, below⟩)
              (ofBody_iff.mp ⟨clause, made⟩)
      · intro clause
        cases clause with
        | leaf registered names =>
            obtain ⟨field, named⟩ := readField_iff.mpr names
            have found := QueryKind.ofTag_tag registered
            rw [QueryKind.tag] at found
            exact ⟨_, by simp only [found, Result.ok_bind, LeafClause.ofBody, named]; rfl⟩
        | compound registered held path =>
            obtain ⟨made, own⟩ := ofBody_iff.mpr path
            obtain ⟨slots, below⟩ := (readSlots_iff _ body).mpr held
            have found := QueryKind.ofTag_tag registered
            rw [QueryKind.tag] at found
            exact ⟨_, by simp only [found, Result.ok_bind, own, below]; rfl⟩
  | [] | [(_, .null)] | [(_, .bool _)] | [(_, .number _)] | [(_, .string _)] | [(_, .array _)] =>
      ⟨fun ⟨_, read⟩ => (by cases read), fun clause => (by cases clause)⟩
  | first :: second :: rest => by
      rw [ofMembers_many]
      exact ⟨fun ⟨_, read⟩ => (by cases read), fun clause => (by cases clause)⟩
  termination_by structural members => members

theorem readSlots_iff (kind : CompoundKind) : ∀ members : List (String × Json),
    (∃ slots, readSlots kind members = .ok slots) ↔
      ∀ key content place, (key, content) ∈ members → kind.slot? key = some place →
        Holdable place content
  | [] => ⟨fun _ _ _ _ absent => (by cases absent), fun _ => ⟨[], rfl⟩⟩
  | (key, content) :: rest => by
      have beside := readSlots_iff kind rest
      rw [readSlots]
      split
      · rename_i apart
        rw [beside]
        refine ⟨fun held name inner place inside declares => ?_,
          fun held name inner place inside => held name inner place (List.mem_cons_of_mem _ inside)⟩
        rcases List.mem_cons.mp inside with same | later
        · cases same
          rw [apart] at declares
          cases declares
        · exact held name inner place later declares
      · rename_i place declares
        have here := readSlot_iff kind.tag place content
        constructor
        · rintro ⟨slots, read⟩ name inner other inside asked
          obtain ⟨clauses, first, read⟩ := Result.bind_ok.mp read
          obtain ⟨others, later, _⟩ := Result.bind_ok.mp read
          rcases List.mem_cons.mp inside with same | after
          · cases same
            cases declares.symm.trans asked
            exact here.mp ⟨clauses, first⟩
          · exact beside.mp ⟨others, later⟩ name inner other after asked
        · intro held
          obtain ⟨clauses, first⟩ := here.mpr (held key content place List.mem_cons_self declares)
          obtain ⟨others, later⟩ := beside.mpr fun name inner other inside =>
            held name inner other (List.mem_cons_of_mem _ inside)
          exact ⟨_, by simp only [first, later, Result.ok_bind]; rfl⟩
  termination_by structural members => members

theorem readSlot_iff (tag : String) (place : Slot) : ∀ json : Json,
    (∃ clauses, readSlot tag place json = .ok clauses) ↔ Holdable place json
  | .array items => by
      rw [readSlot]
      split
      · rename_i multiple
        rw [readAll_iff items]
        exact ⟨.many multiple, fun held => by
          cases held with
          | one clause => cases clause
          | many _ clauses => exact clauses⟩
      · rename_i single
        exact ⟨fun ⟨_, read⟩ => (by cases read), fun held => by
          cases held with
          | one clause => cases clause
          | many multiple _ => exact absurd multiple single⟩
  | .object members => by
      rw [readSlot]
      constructor
      · rintro ⟨clauses, read⟩
        obtain ⟨clause, read, _⟩ := Result.bind_ok.mp read
        exact .one ((ofMembers_iff members).mp ⟨clause, read⟩)
      · intro held
        cases held with
        | one clause =>
            obtain ⟨clause, read⟩ := (ofMembers_iff members).mpr clause
            exact ⟨[clause], by rw [read]; rfl⟩
  | .null | .bool _ | .number _ | .string _ =>
      ⟨fun ⟨_, read⟩ => (by cases read), fun held => (by cases held; rename_i clause; cases clause)⟩
  termination_by structural json => json

theorem readAll_iff : ∀ items : List Json,
    (∃ clauses, readAll items = .ok clauses) ↔ ∀ item ∈ items, Grammatical item
  | [] => ⟨fun _ _ absent => (by cases absent), fun _ => ⟨[], rfl⟩⟩
  | item :: rest => by
      rw [readAll, List.forall_mem_cons, ← ofJson_iff item, ← readAll_iff rest]
      constructor
      · rintro ⟨clauses, read⟩
        obtain ⟨first, here, read⟩ := Result.bind_ok.mp read
        obtain ⟨others, beside, _⟩ := Result.bind_ok.mp read
        exact ⟨⟨first, here⟩, others, beside⟩
      · rintro ⟨⟨first, here⟩, others, beside⟩
        exact ⟨first :: others, by rw [here, Result.ok_bind, beside]; rfl⟩
  termination_by structural items => items

end

/-! ### Inserting what was read -/

def Accepts (node : QueryNode) (below : List QueryNode) : Prop :=
  ∀ front child back, below = front ++ child :: back →
    NodeRules.checkChild node child front.length = .ok ()

theorem read_accepts : Read Accepts := by
  refine ⟨fun clause front child back parts => ?_, fun clause below _ slots front child back parts => ?_,
    fun place below bare few front child back parts => ?_⟩
  · cases front <;> cases parts
  · obtain ⟨place, rfl, declares⟩ := slots child (by simp [parts])
    simp [NodeRules.checkChild, checkChild, declares, pure, Except.pure]
  · refine Query.slot_takes place (bare child (by simp [parts])) fun single => ?_
    have room := few single
    rw [parts, List.length_append, List.length_cons] at room
    omega

end QueryNode

namespace Tree

open Rose Weaving QueryNode

mutual

theorem graftBelow_accepted {tree : Tree QueryNode} (numbered : tree.Numbered)
    {holder : Branch QueryNode} (member : holder ∈ tree.live) : ∀ shape : Shape QueryNode,
    NodeRules.checkChild holder.content shape.label.content holder.children.length = .ok () →
    Ruled Accepts [shape] →
    ∃ id after, graftBelow holder.id shape tree = (after, .ok id) ∧ Appended tree holder [shape] after
  | .node entry children, taken, ruled => by
      obtain ⟨accepts, below⟩ := (ruled_singleton _ _).mp ruled
      obtain ⟨middle, inserted, grew, next⟩ := insert_taken numbered member entry.key taken
      have first : Appended tree holder [.node entry []] middle := ⟨grew, next⟩
      obtain ⟨after, grafted, second⟩ := graftAll_accepted (grew.numbered numbered member)
        (first.live_bud numbered member) children accepts below
      refine ⟨tree.next, after, ?_, first.nest numbered member second⟩
      have grafted : graftAll tree.next children middle = (after, .ok ()) := grafted
      have inserted : tree.insert entry.content holder.id entry.key = .ok (tree.next, middle) :=
        inserted
      simp only [graftBelow, inserted, grafted]
  termination_by structural shape => shape

theorem graftAll_accepted {tree : Tree QueryNode} (numbered : tree.Numbered)
    {holder : Branch QueryNode} (member : holder ∈ tree.live) : ∀ shapes : List (Shape QueryNode),
    Accepts holder.content (contents (Rose.shapes holder.children) ++ contents shapes) →
    Ruled Accepts shapes →
    ∃ after, graftAll holder.id shapes tree = (after, .ok ()) ∧ Appended tree holder shapes after
  | [], _, _ => ⟨tree, rfl, .nil numbered member⟩
  | shape :: rest, accepts, ruled => by
      obtain ⟨here, beside⟩ := (ruled_cons_iff _ _).mp ruled
      have taken := accepts _ shape.label.content _ rfl
      rw [List.length_map, length_shapes] at taken
      obtain ⟨id, middle, grafted, first⟩ := graftBelow_accepted numbered member shape taken here
      have later : Accepts holder.content (contents (Rose.shapes (holder.children ++
          numberAll tree.next [shape])) ++ contents rest) := by
        rw [shapes_append, shapes_numberAll, contents, List.map_append, List.append_assoc]
        exact accepts
      obtain ⟨after, others, second⟩ := graftAll_accepted (first.grew.numbered numbered member)
        (first.grew.live_new numbered member) rest later beside
      have others : graftAll holder.id rest middle = (after, .ok ()) := others
      exact ⟨after, by simp only [graftAll, grafted, others], first.append numbered member second⟩
  termination_by structural shapes => shapes

end

/-- A shape whose nodes accept one another is inserted node by node as a whole. -/
theorem graft_accepted {shape : Shape QueryNode} (accepts : Ruled Accepts [shape]) :
    ({} : Tree QueryNode).graft (some shape) none = (ofShape shape, .ok (some 0)) := by
  obtain ⟨entry, children⟩ := shape
  obtain ⟨accepts, below⟩ := (ruled_singleton _ _).mp accepts
  have live : .node ⟨entry, 0⟩ [] ∈ (ofShape (.node entry [])).live := by
    simp [live, branches, ofShape, Rose.number, numberAll]
  obtain ⟨after, grafted, appended⟩ :=
    graftAll_accepted (numbered_ofShape (.node entry [])) live children accepts below
  have grafted : graftAll 0 children (ofShape (.node entry [])) = (after, .ok ()) := grafted
  have rooted : ({} : Tree QueryNode).insertRoot entry.content entry.key =
      .ok (0, ofShape (.node entry [])) := rfl
  rw [graft, rooted]
  simp only [grafted, appended.eq_ofShape]
  rfl

end Tree

namespace QueryNode

/-- A document is read exactly when it is one of the grammar, and then every node of it is taken
where it belongs. -/
theorem parse_iff_grammatical (json : Json) :
    ((∃ tree, parse json = .ok tree) ↔ Grammatical json) ∧
    (Grammatical json → ∃ shape, ofJson json = .ok shape ∧ parse json = .ok (.ofShape shape) ∧
      ({} : Tree QueryNode).graft (some shape) none = (.ofShape shape, .ok (some 0))) := by
  have reads : Grammatical json → ∃ shape, ofJson json = .ok shape ∧
      parse json = .ok (.ofShape shape) := by
    intro grammatical
    obtain ⟨shape, read⟩ := (ofJson_iff json).mpr grammatical
    exact ⟨shape, read, by rw [parse, read]; rfl⟩
  refine ⟨⟨?_, fun grammatical => ?_⟩, fun grammatical => ?_⟩
  · rintro ⟨tree, parsed⟩
    obtain ⟨shape, read, _⟩ := Result.bind_ok.mp parsed
    exact (ofJson_iff json).mp ⟨shape, read⟩
  · obtain ⟨shape, _, parsed⟩ := reads grammatical
    exact ⟨_, parsed⟩
  · obtain ⟨shape, read, parsed⟩ := reads grammatical
    exact ⟨shape, read, parsed, Tree.graft_accepted (ruled_ofJson read_accepts json read)⟩

end QueryNode

end ScopedClauses
