import ScopedClauses.Proofs.Json.Alike
import ScopedClauses.Proofs.Query.Reading

/-!
Clause trees that can be written: every node has the key that it would be read with, no slot is
hidden among the attributes, and no slot for a single clause is empty. What is read is of this
kind, and correction keeps it so.
-/

namespace ScopedClauses

namespace QueryKind

theorem ofTag_tag {kind : QueryKind} (known : kind ∈ all) : ofTag kind.tag = .ok kind := by
  have each : ∀ kind ∈ all, all.find? (·.tag = kind.tag) = some kind := by decide +kernel
  rw [ofTag, each kind known]
  rfl

theorem tag_of_ofTag {tag : String} {kind : QueryKind} (found : ofTag tag = .ok kind) :
    kind.tag = tag := by
  unfold ofTag at found
  split at found
  · rename_i other match_
    cases Result.pure_ok.mp found
    simpa using List.find?_some match_
  · cases found

end QueryKind

namespace QueryNode

open Rose Weaving

def properKey : QueryNode → Option String
  | .slot place => some place.name
  | clause => clause.name?

def Readable : QueryNode → Prop
  | .leaf clause => .leaf clause.kind ∈ QueryKind.all ∧
      LeafClause.readField clause.kind clause.body = .ok clause.field
  | .compound clause => CompoundClause.ofBody clause.kind clause.body = .ok clause ∧
      ∀ key ∈ clause.body.keys, clause.kind.slot? key = none
  | .slot _ => True

def Checked (mapping : Option Mapping) : QueryNode → Prop
  | .leaf clause => ∀ given field, mapping = some given → clause.field = some field →
      ∃ type, given.checkField clause.kind.tag clause.kind.rule field = .ok type
  | _ => True

theorem checked_none (node : QueryNode) : Checked none node := by
  cases node with
  | leaf clause => exact fun _ _ absent => (by cases absent)
  | _ => trivial

theorem checked_of_route {mapping : Option Mapping} {autocorrect : Bool} {scope : Option String}
    {node : QueryNode} {route : List String}
    (routed : routeFor mapping autocorrect scope node = .ok route) : Checked mapping node := by
  cases node with
  | leaf clause =>
      rintro given field rfl named
      simp only [routeFor, named, Result.bind_ok] at routed
      obtain ⟨type, checked, _⟩ := routed
      exact ⟨type, checked⟩
  | _ => trivial

structure Legible (mapping : Option Mapping) (shape : Shape QueryNode) : Prop where
  key : shape.label.key = properKey shape.label.content
  readable : Readable shape.label.content
  checked : Checked mapping shape.label.content
  filled : ∀ place, shape.label.content = .slot place → place.multiple = false →
    shape.children ≠ []

def AllLegible (mapping : Option Mapping) (forest : List (Shape QueryNode)) : Prop :=
  ∀ shape ∈ preorderAll forest, Legible mapping shape

section

variable {mapping : Option Mapping}

@[simp] theorem allLegible_nil : AllLegible mapping [] := by
  intro shape absent
  cases absent

theorem allLegible_cons (label : Keyed QueryNode) (children rest : List (Shape QueryNode)) :
    AllLegible mapping (.node label children :: rest) ↔
      Legible mapping (.node label children) ∧ AllLegible mapping children ∧
        AllLegible mapping rest := by
  simp only [AllLegible, preorderAll_cons, List.forall_mem_cons, List.forall_mem_append]

theorem allLegible_append (front back : List (Shape QueryNode)) :
    AllLegible mapping (front ++ back) ↔ AllLegible mapping front ∧ AllLegible mapping back := by
  simp only [AllLegible, preorderAll_append]
  exact List.forall_mem_append

theorem allLegible_cons_iff (shape : Shape QueryNode) (rest : List (Shape QueryNode)) :
    AllLegible mapping (shape :: rest) ↔
      AllLegible mapping [shape] ∧ AllLegible mapping rest :=
  allLegible_append [shape] rest

theorem allLegible_singleton (label : Keyed QueryNode) (children : List (Shape QueryNode)) :
    AllLegible mapping [.node label children] ↔
      Legible mapping (.node label children) ∧ AllLegible mapping children := by
  simp [allLegible_cons]

theorem Legible.rehold {label : Keyed QueryNode} {children others : List (Shape QueryNode)}
    (legible : Legible mapping (.node label children))
    (filled : label.content.slot? ≠ none → others ≠ []) :
    Legible mapping (.node label others) :=
  ⟨legible.key, legible.readable, legible.checked, fun place content _ =>
    filled (by rw [show label.content = .slot place from content]; simp [slot?])⟩

theorem legible_emptyBool (children : List (Shape QueryNode)) :
    Legible mapping (.node ⟨none, emptyBool⟩ children) := by
  refine ⟨rfl, ⟨rfl, fun key inside => ?_⟩, trivial, fun place content => ?_⟩
  · cases inside
  · cases content

theorem legible_enter (path : String) (children : List (Shape QueryNode)) :
    Legible mapping (.node ⟨none, QueryNode.enter path⟩ children) := by
  have apart : QueryKind.nested.slot? "path" = none := by decide +kernel
  refine ⟨rfl, ⟨rfl, fun key inside => ?_⟩, trivial, fun place content => ?_⟩
  · simp only [Members.keys, List.map_cons, List.map_nil, List.mem_singleton] at inside
    rw [inside, apart]
  · cases content

theorem allLegible_slotShape {place : Slot} {clauses : List (Shape QueryNode)}
    (legible : AllLegible mapping clauses) (filled : place.multiple = false → clauses ≠ []) :
    AllLegible mapping [slotShape place clauses] := by
  refine (allLegible_singleton _ _).mpr ⟨⟨rfl, trivial, trivial, fun own content single => ?_⟩, legible⟩
  cases content
  exact filled single

/-! ### What is read -/

theorem ofBody_ok {kind : CompoundKind} {body : Members} {clause : CompoundClause}
    (made : CompoundClause.ofBody kind body = .ok clause) : clause = ⟨kind, body⟩ := by
  unfold CompoundClause.ofBody at made
  split at made
  · cases made
  · exact (Result.pure_ok.mp made).symm

theorem mem_attributes {kind : CompoundKind} {body : Members} {key : String}
    (inside : key ∈ (attributes kind body).keys) :
    key ∈ body.keys ∧ kind.slot? key = none := by
  obtain ⟨⟨name, content⟩, member, rfl⟩ := List.mem_map.mp inside
  obtain ⟨member, apart⟩ := List.mem_filter.mp member
  exact ⟨List.mem_map_of_mem member, by simpa using apart⟩

def Sheer (forest : List (Shape QueryNode)) : Prop := Formed forest ∧ AllLegible none forest

theorem sheer_cons_iff (shape : Shape QueryNode) (rest : List (Shape QueryNode)) :
    Sheer (shape :: rest) ↔ Sheer [shape] ∧ Sheer rest := by
  rw [Sheer, formed_cons_iff, allLegible_cons_iff]
  exact and_and_and_comm

mutual

theorem sheer_ofJson {shape : Shape QueryNode} : ∀ json : Json, json.distinct = true →
    ofJson json = .ok shape → Sheer [shape]
  | .object members, distinct, read => by
      rw [ofJson] at read
      exact sheer_ofMembers members (Json.distinct_object.mp distinct).2 read
  | .null, _, read => by simp [ofJson, Result.throw_ok] at read
  | .bool _, _, read => by simp [ofJson, Result.throw_ok] at read
  | .number _, _, read => by simp [ofJson, Result.throw_ok] at read
  | .string _, _, read => by simp [ofJson, Result.throw_ok] at read
  | .array _, _, read => by simp [ofJson, Result.throw_ok] at read
  termination_by structural json => json

theorem sheer_ofMembers {shape : Shape QueryNode} : ∀ members : List (String × Json),
    Json.distinctMembers members = true → ofMembers members = .ok shape → Sheer [shape]
  | [(tag, .object body)], distinct, read => by
      rw [ofMembers, Result.bind_ok] at read
      obtain ⟨kind, found, read⟩ := read
      have known := QueryKind.mem_of_ofTag found
      cases kind with
      | leaf kind =>
          simp only [LeafClause.ofBody, Result.bind_ok, Result.pure_ok] at read
          obtain ⟨_, ⟨field, named, rfl⟩, rfl⟩ := read
          refine ⟨(formed_cons _ _ _).mpr ⟨rfl, formed_nil, formed_nil⟩,
            (allLegible_singleton _ _).mpr ⟨⟨rfl, ⟨known, named⟩, checked_none _, ?_⟩,
              allLegible_nil⟩⟩
          intro place content
          cases content
      | compound kind =>
          simp only [Result.bind_ok, Result.pure_ok] at read
          obtain ⟨clause, made, slots, below, rfl⟩ := read
          cases ofBody_ok made
          have entries := (Json.distinctMembers_cons.mp distinct).1
          have unique := Json.distinct_object.mp entries
          obtain ⟨formed, legible, _⟩ :=
            sheer_readSlots (attributes kind body) known body unique.1 unique.2 below
          refine ⟨(formed_cons _ _ _).mpr ⟨formed.2, formed.1, formed_nil⟩,
            (allLegible_singleton _ _).mpr ⟨⟨rfl, ⟨made, ?_⟩, trivial, ?_⟩, legible⟩⟩
          · exact fun key inside => (mem_attributes inside).2
          · intro place content
            cases content
  | [], _, read => by simp [ofMembers, Result.throw_ok] at read
  | [(_, .null)], _, read => by simp [ofMembers, Result.throw_ok] at read
  | [(_, .bool _)], _, read => by simp [ofMembers, Result.throw_ok] at read
  | [(_, .number _)], _, read => by simp [ofMembers, Result.throw_ok] at read
  | [(_, .string _)], _, read => by simp [ofMembers, Result.throw_ok] at read
  | [(_, .array _)], _, read => by simp [ofMembers, Result.throw_ok] at read
  | first :: second :: rest, _, read => by
      rw [ofMembers_many] at read
      cases read
  termination_by structural members => members

theorem sheer_readSlots {kind : CompoundKind} {slots : List (Shape QueryNode)} (body : Members)
    (known : .compound kind ∈ QueryKind.all) : ∀ members : List (String × Json),
    (Members.keys members).Nodup → Json.distinctMembers members = true →
    readSlots kind members = .ok slots →
    FormedSlots (.compound ⟨kind, body⟩) slots ∧ AllLegible none slots ∧
      ∀ name ∈ (contents slots).map tag, name ∈ Members.keys members
  | [], _, _, read => by
      cases Result.pure_ok.mp read
      exact ⟨formedSlots_nil known, allLegible_nil, by simp⟩
  | (key, content) :: rest, unique, distinct, read => by
      simp only [Members.keys, List.map_cons, List.nodup_cons] at unique
      rw [Json.distinctMembers_cons] at distinct
      rw [readSlots] at read
      split at read
      · obtain ⟨formed, legible, names⟩ :=
          sheer_readSlots body known rest unique.2 distinct.2 read
        exact ⟨formed, legible, fun name inside => List.mem_cons_of_mem _ (names name inside)⟩
      · rename_i place declares
        simp only [Result.bind_ok, Result.pure_ok] at read
        obtain ⟨clauses, inside, others, beside, rfl⟩ := read
        obtain ⟨formed, legible, names⟩ :=
          sheer_readSlots body known rest unique.2 distinct.2 beside
        obtain ⟨formedSlot, legibleSlot, filled⟩ := sheer_readSlot content distinct.1 inside
        have named : place.name = key := CompoundKind.slot?_name declares
        refine ⟨formedSlots_cons.mpr ⟨?_, ⟨place, rfl, by rw [named]; exact declares⟩, ?_, formed⟩,
          (allLegible_cons_iff _ _).mpr ⟨allLegible_slotShape legibleSlot filled, legible⟩, ?_⟩
        · exact (formed_cons _ _ _).mpr ⟨formedSlot.2, formedSlot.1, formed_nil⟩
        · intro later
          have present : place.name ∈ Members.keys rest := names _ later
          rw [named] at present
          exact unique.1 present
        · simp only [List.map_cons, List.forall_mem_cons]
          refine ⟨?_, fun name later => List.mem_cons_of_mem _ (names name later)⟩
          change place.name ∈ Members.keys ((key, content) :: rest)
          simp [named]
  termination_by structural members => members

theorem sheer_readSlot {tag : String} {place : Slot} {clauses : List (Shape QueryNode)} :
    ∀ json : Json, json.distinct = true → readSlot tag place json = .ok clauses →
      FormedSlot place clauses ∧ AllLegible none clauses ∧
        (place.multiple = false → clauses ≠ [])
  | .array items, distinct, read => by
      rw [readSlot] at read
      split at read
      · rename_i many
        have each : Json.distinctAll items = true := by simpa [Json.distinct] using distinct
        obtain ⟨⟨formed, legible⟩, bare⟩ := sheer_readAll items each read
        exact ⟨⟨formed, bare, by simp [many]⟩, legible, by simp [many]⟩
      · cases read
  | .object members, distinct, read => by
      simp only [readSlot, Result.bind_ok, Result.pure_ok] at read
      obtain ⟨clause, read, rfl⟩ := read
      obtain ⟨formed, legible⟩ :=
        sheer_ofMembers members (Json.distinct_object.mp distinct).2 read
      refine ⟨⟨formed, by simpa using slot?_ofMembers read, by simp⟩, legible, by simp⟩
  | .null, _, read => by simp [readSlot, Result.throw_ok] at read
  | .bool _, _, read => by simp [readSlot, Result.throw_ok] at read
  | .number _, _, read => by simp [readSlot, Result.throw_ok] at read
  | .string _, _, read => by simp [readSlot, Result.throw_ok] at read
  termination_by structural json => json

theorem sheer_readAll {clauses : List (Shape QueryNode)} : ∀ items : List Json,
    Json.distinctAll items = true → readAll items = .ok clauses →
    Sheer clauses ∧ ∀ node ∈ contents clauses, node.slot? = none
  | [], _, read => by
      cases Result.pure_ok.mp read
      exact ⟨⟨formed_nil, allLegible_nil⟩, by simp⟩
  | item :: rest, distinct, read => by
      simp only [Json.distinctAll, Bool.and_eq_true] at distinct
      simp only [readAll, Result.bind_ok, Result.pure_ok] at read
      obtain ⟨first, here, others, beside, rfl⟩ := read
      obtain ⟨sheer, bare⟩ := sheer_readAll rest distinct.2 beside
      refine ⟨(sheer_cons_iff _ _).mpr ⟨sheer_ofJson item distinct.1 here, sheer⟩, ?_⟩
      simp only [contents, List.map_cons, List.forall_mem_cons]
      exact ⟨slot?_ofJson here, bare⟩
  termination_by structural items => items

end

/-! ### What is woven -/

theorem changeFirst_ne_nil (wanted : Shape QueryNode → Bool)
    (change : Shape QueryNode → Shape QueryNode) {clauses : List (Shape QueryNode)}
    (filled : clauses ≠ []) : changeFirst wanted change clauses ≠ [] := by
  cases clauses with
  | nil => exact absurd rfl filled
  | cons clause rest =>
      rw [changeFirst]
      split <;> simp

theorem add_ne_nil (many : Bool) (incoming : Shape QueryNode) (clauses : List (Shape QueryNode)) :
    add many incoming clauses ≠ [] := by
  cases many with
  | true => simp [add_many]
  | false =>
      cases clauses with
      | nil => simp [add_nil]
      | cons occupant rest =>
          rw [add_single]
          split <;> simp

theorem weave_ne_nil (route : List String) (many : Bool) (incoming : Shape QueryNode)
    (clauses : List (Shape QueryNode)) : weave route many incoming clauses ≠ [] := by
  cases route with
  | nil => exact add_ne_nil many incoming clauses
  | cons path rest =>
      rw [weave]
      split
      · rename_i opened
        have filled : clauses ≠ [] := by
          rintro rfl
          simp [standing_nil] at opened
        cases many with
        | true => exact changeFirst_ne_nil _ _ filled
        | false =>
            cases clauses with
            | nil => exact absurd rfl filled
            | cons occupant others =>
                rw [changeStanding_single]
                split
                · simp
                · exact changeFirst_ne_nil _ _ filled
      · exact add_ne_nil many _ clauses

theorem isNamed_slotShape (place : Slot) (clauses : List (Shape QueryNode)) :
    isNamed place.name (slotShape place clauses) = true :=
  isNamed_iff.mpr ⟨place, rfl, rfl⟩

theorem changeSlot_changeSlot (place : Slot)
    (first second : List (Shape QueryNode) → List (Shape QueryNode))
    (slots : List (Shape QueryNode)) :
    changeSlot place second (changeSlot place first slots) =
      changeSlot place (fun clauses => second (first clauses)) slots := by
  induction slots with
  | nil =>
      have named : isNamed place.name (slotShape place (first [])) = true := isNamed_slotShape _ _
      simp only [changeSlot, named, if_true]
      rfl
  | cons slot rest ih =>
      by_cases named : isNamed place.name slot = true
      · have still : isNamed place.name (.node slot.label (first slot.children)) = true := named
        simp only [changeSlot, named, still, if_true]
        rfl
      · simp only [changeSlot, if_neg named]
        exact congrArg (slot :: ·) ih

def Fills (place : Slot) (slots : List (Shape QueryNode))
    (change : List (Shape QueryNode) → List (Shape QueryNode)) : Prop :=
  (change [] = [] → place.multiple = true) ∧
    ((∀ clauses, clauses ≠ [] → change clauses ≠ []) ∨
      (place.multiple = true ∧ ∀ slot ∈ slots, isNamed place.name slot = true →
        slot.label.content = .slot place))

theorem fills_of_filled (place : Slot) (slots : List (Shape QueryNode))
    {change : List (Shape QueryNode) → List (Shape QueryNode)}
    (filled : ∀ clauses, change clauses ≠ []) : Fills place slots change :=
  ⟨fun empty => absurd empty (filled []), Or.inl fun clauses _ => filled clauses⟩

theorem allLegible_changeSlot {place : Slot}
    {change : List (Shape QueryNode) → List (Shape QueryNode)}
    (keeps : ∀ clauses, AllLegible mapping clauses → AllLegible mapping (change clauses))
    {slots : List (Shape QueryNode)} (fills : Fills place slots change)
    (legible : AllLegible mapping slots) : AllLegible mapping (changeSlot place change slots) := by
  induction slots with
  | nil =>
      refine allLegible_slotShape (keeps [] allLegible_nil) fun single empty => ?_
      have many := fills.1 empty
      rw [single] at many
      cases many
  | cons slot rest ih =>
      rw [allLegible_cons_iff] at legible
      by_cases named : isNamed place.name slot = true
      · obtain ⟨label, clauses⟩ := slot
        have inside := (allLegible_singleton _ _).mp legible.1
        simp only [changeSlot, named, if_true, label_node, children_node]
        refine (allLegible_cons _ _ _).mpr ⟨⟨inside.1.key, inside.1.readable, inside.1.checked,
          fun own content single => ?_⟩, keeps clauses inside.2, legible.2⟩
        rcases fills.2 with filled | ⟨many, same⟩
        · exact filled clauses (inside.1.filled own content single)
        · have content : label.content = .slot own := content
          have declared : label.content = .slot place := same _ (by simp) named
          rw [content] at declared
          cases declared
          rw [single] at many
          cases many
      · simp only [changeSlot, named]
        refine (allLegible_cons_iff _ _).mpr ⟨legible.1, ih ?_ legible.2⟩
        refine fills.imp_right fun given => given.imp_right fun agree => ?_
        exact ⟨agree.1, fun other inside => agree.2 other (List.mem_cons_of_mem _ inside)⟩

theorem bare_of_isBool {clause : Shape QueryNode} (bool : Weaving.isBool clause = true) :
    clause.label.content.slot? = none := by
  obtain ⟨⟨key, content⟩, children⟩ := clause
  cases content <;> first | rfl | simp [Weaving.isBool, QueryNode.isBool] at bool

theorem bare_of_opens {clause : Shape QueryNode} {path : String} (opened : opens path clause = true) :
    clause.label.content.slot? = none := by
  obtain ⟨⟨key, content⟩, children⟩ := clause
  cases content <;> first | rfl | simp [opens, nestedPath?] at opened

theorem allLegible_inSlot {place : Slot}
    {change : List (Shape QueryNode) → List (Shape QueryNode)} {clause : Shape QueryNode}
    (bare : clause.label.content.slot? = none)
    (keeps : ∀ clauses, AllLegible mapping clauses → AllLegible mapping (change clauses))
    (fills : Fills place clause.children change) (legible : AllLegible mapping [clause]) :
    AllLegible mapping [inSlot place change clause] := by
  obtain ⟨label, children⟩ := clause
  obtain ⟨here, below⟩ := (allLegible_singleton _ _).mp legible
  refine (allLegible_singleton _ _).mpr ⟨here.rehold fun slotted => absurd bare slotted, ?_⟩
  exact allLegible_changeSlot keeps fills below

theorem allLegible_changeFirst {wanted : Shape QueryNode → Bool}
    {change : Shape QueryNode → Shape QueryNode}
    (keeps : ∀ clause, wanted clause = true → AllLegible mapping [clause] →
      AllLegible mapping [change clause])
    {clauses : List (Shape QueryNode)} (legible : AllLegible mapping clauses) :
    AllLegible mapping (changeFirst wanted change clauses) := by
  induction clauses with
  | nil => exact allLegible_nil
  | cons clause rest ih =>
      rw [allLegible_cons_iff] at legible
      by_cases here : wanted clause = true
      · simp only [changeFirst, here, if_true]
        exact (allLegible_cons_iff _ _).mpr ⟨keeps clause here legible.1, legible.2⟩
      · simp only [changeFirst, here]
        exact (allLegible_cons_iff _ _).mpr ⟨legible.1, ih legible.2⟩

theorem allLegible_conjunction {clauses : List (Shape QueryNode)}
    (legible : AllLegible mapping clauses) : AllLegible mapping [conjunction clauses] :=
  (allLegible_singleton _ _).mpr
    ⟨legible_emptyBool _, allLegible_slotShape legible (by simp [mustPlace])⟩

theorem allLegible_chain (route : List String) {incoming : Shape QueryNode}
    (legible : AllLegible mapping [incoming]) : AllLegible mapping [chain route incoming] := by
  induction route with
  | nil => exact legible
  | cons path rest ih =>
      exact (allLegible_singleton _ _).mpr
        ⟨legible_enter path _, allLegible_slotShape ih fun _ => by simp⟩

section Weaving

variable {incoming : Shape QueryNode} (fresh : AllLegible mapping [incoming])

include fresh

theorem allLegible_concat {clauses : List (Shape QueryNode)}
    (legible : AllLegible mapping clauses) : AllLegible mapping (clauses ++ [incoming]) :=
  (allLegible_append _ _).mpr ⟨legible, fresh⟩

theorem allLegible_add {many : Bool} {clauses : List (Shape QueryNode)}
    (legible : AllLegible mapping clauses) : AllLegible mapping (add many incoming clauses) := by
  cases many with
  | true => exact allLegible_concat fresh legible
  | false =>
      cases clauses with
      | nil => exact fresh
      | cons occupant rest =>
          rw [allLegible_cons_iff] at legible
          rw [add_single]
          split
          · rename_i bool
            refine (allLegible_cons_iff _ _).mpr ⟨allLegible_inSlot (bare_of_isBool bool)
              (fun _ => allLegible_concat fresh) (fills_of_filled _ _ (by simp)) legible.1, legible.2⟩
          · refine (allLegible_cons_iff _ _).mpr ⟨allLegible_conjunction ?_, legible.2⟩
            exact (allLegible_cons_iff _ _).mpr ⟨legible.1, fresh⟩

theorem allLegible_weave (route : List String) {many : Bool} {clauses : List (Shape QueryNode)}
    (legible : AllLegible mapping clauses) :
    AllLegible mapping (weave route many incoming clauses) := by
  induction route generalizing many clauses with
  | nil => exact allLegible_add fresh legible
  | cons path rest ih =>
      have inward : ∀ clauses, AllLegible mapping clauses → AllLegible mapping
          (changeFirst (opens path) (inSlot queryPlace (weave rest false incoming)) clauses) := by
        intro clauses
        refine allLegible_changeFirst fun clause opened => ?_
        exact allLegible_inSlot (bare_of_opens opened) (fun _ => ih)
          (fills_of_filled _ _ (weave_ne_nil rest false incoming))
      rw [weave]
      split
      · cases many with
        | true => exact inward clauses legible
        | false =>
            cases clauses with
            | nil => exact inward [] legible
            | cons occupant others =>
                rw [changeStanding_single]
                split
                · rename_i bool
                  rw [allLegible_cons_iff] at legible
                  refine (allLegible_cons_iff _ _).mpr ⟨allLegible_inSlot (bare_of_isBool bool)
                    inward ⟨fun _ => rfl, Or.inl fun _ => changeFirst_ne_nil _ _⟩ legible.1,
                    legible.2⟩
                · exact inward _ legible
      · exact allLegible_add (allLegible_chain (path :: rest) fresh) legible

end Weaving

/-! ### What is corrected -/

theorem named_of_formed {clause : CompoundClause} {place : Slot}
    (declares : clause.kind.slot? place.name = some place) {slots : List (Shape QueryNode)}
    (formed : FormedSlots (.compound clause) slots) {slot : Shape QueryNode} (inside : slot ∈ slots)
    (named : isNamed place.name slot = true) : slot.label.content = .slot place := by
  obtain ⟨own, content, sameName⟩ := isNamed_iff.mp named
  obtain ⟨found, foundContent, foundDeclared⟩ := formed.2.2.1 _ (List.mem_map_of_mem inside)
  rw [foundContent] at content
  cases content
  rw [sameName, declares] at foundDeclared
  cases foundDeclared
  exact foundContent

theorem known_of_holds {node : QueryNode} {below : List QueryNode} (holds : Holds node below) :
    Known node := by
  cases node with
  | compound clause => exact holds.1
  | _ => trivial

theorem allKnown_of_formed {forest : List (Shape QueryNode)} (formed : Formed forest) :
    AllKnown forest := fun shape inside => known_of_holds (formed shape inside)

section Correction

variable {autocorrect : Bool}

mutual

theorem allLegible_correct {scope : Option String} {done : Shape QueryNode} :
    ∀ shape, Sheer [shape] → Checked mapping shape.label.content →
      shape.label.content.slot? = none →
      correct mapping autocorrect scope shape = .ok done → AllLegible mapping [done]
  | .node ⟨key, content⟩ children, sheer, checked, bare, corrected => by
      obtain ⟨formed, legible⟩ := sheer
      rw [formed_cons] at formed
      rw [allLegible_singleton] at legible
      simp only [correct, Result.bind_ok, Result.pure_ok] at corrected
      obtain ⟨slots, corrected, rfl⟩ := corrected
      refine (allLegible_singleton _ _).mpr ⟨⟨legible.1.key, legible.1.readable, checked,
        fun place found => ?_⟩, ?_⟩
      · have slotted : content = .slot place := found
        rw [slotted] at bare
        cases bare
      · match content, formed, corrected with
        | .leaf clause, formed, corrected =>
            have empty : children = [] := List.map_eq_nil_iff.mp formed.1
            subst empty
            cases Result.pure_ok.mp corrected
            exact allLegible_nil
        | .compound clause, formed, corrected =>
            exact allLegible_correctSlots children ⟨formed.2.1, formed.1⟩ legible.2
              (formedSlots_nil formed.1.1) allLegible_nil corrected
  termination_by structural shape => shape

theorem allLegible_correctSlots {scope : Option String} {clause : CompoundClause}
    {before done : List (Shape QueryNode)} :
    ∀ slots, FormedSlots (.compound clause) slots → AllLegible none slots →
      FormedSlots (.compound clause) before → AllLegible mapping before →
      correctSlots mapping autocorrect scope (.compound clause) slots before = .ok done →
      AllLegible mapping done
  | [], _, _, _, legible, corrected => by
      cases Result.pure_ok.mp corrected
      exact legible
  | .node ⟨key, content⟩ clauses :: rest, formed, sheer, formedBefore, legible, corrected => by
      rw [allLegible_cons] at sheer
      obtain ⟨formedSlot, ⟨place, content, declares⟩, _, formedRest⟩ := formedSlots_cons.mp formed
      cases content
      rw [formed_cons] at formedSlot
      have asked : declared (.compound clause) place.name = .ok place :=
        declared_ok.mpr ⟨clause, rfl, declares⟩
      simp only [correctSlots, QueryNode.slot?, asked, Result.bind_ok, Result.ok_bind] at corrected
      obtain ⟨between, first, second⟩ := corrected
      have made := (formed_changeSlot declares (fun old => old) (fun _ => id) formedBefore).1
      have formedBetween :=
        formed_correctClauses clauses (allKnown_of_formed formedSlot.2.1) declares made first
      refine allLegible_correctSlots rest formedRest sheer.2.2 formedBetween ?_ second
      refine allLegible_correctClauses clauses ⟨formedSlot.2.1, sheer.2.1⟩ (fun _ kept => kept)
        (fun empty => ?_) legible first
      subst empty
      have many : place.multiple = true := by
        cases single : place.multiple with
        | true => rfl
        | false => exact absurd rfl (sheer.1.filled place rfl single)
      exact ⟨fun _ => many, Or.inr ⟨many, fun _ => named_of_formed declares formedBefore⟩⟩
  termination_by structural slots => slots

theorem allLegible_correctClauses {scope : Option String} {place : Slot}
    {start : List (Shape QueryNode) → List (Shape QueryNode)}
    {before done : List (Shape QueryNode)} :
    ∀ clauses, Sheer clauses →
      (∀ clauses, AllLegible mapping clauses → AllLegible mapping (start clauses)) →
      (clauses = [] → Fills place before start) → AllLegible mapping before →
      correctClauses mapping autocorrect scope place clauses (changeSlot place start before) =
        .ok done → AllLegible mapping done
  | [], _, keeps, fills, legible, corrected => by
      cases Result.pure_ok.mp corrected
      exact allLegible_changeSlot keeps (fills rfl) legible
  | shape :: rest, sheer, keeps, _, legible, corrected => by
      rw [sheer_cons_iff] at sheer
      simp only [correctClauses, Result.bind_ok] at corrected
      obtain ⟨route, routed, _, bare, incoming, first, second⟩ := corrected
      have fresh := allLegible_correct shape sheer.1 (checked_of_route routed)
        (refuseSlot_ok.mp bare) first
      rw [changeSlot_changeSlot] at second
      refine allLegible_correctClauses rest sheer.2
        (fun clauses kept => allLegible_weave fresh route (keeps clauses kept)) (fun _ => ?_)
        legible second
      exact fills_of_filled _ _ fun clauses => weave_ne_nil route place.multiple incoming _
  termination_by structural clauses => clauses

end

theorem allLegible_weaveClause {scope : Option String} {place : Slot} {shape : Shape QueryNode}
    {before done : List (Shape QueryNode)} (sheer : Sheer [shape])
    (legible : AllLegible mapping before)
    (woven : weaveClause mapping autocorrect scope place shape before = .ok done) :
    AllLegible mapping done := by
  simp only [weaveClause, Result.bind_ok, Result.pure_ok] at woven
  obtain ⟨route, routed, _, bare, incoming, corrected, rfl⟩ := woven
  have fresh := allLegible_correct shape sheer (checked_of_route routed)
    (refuseSlot_ok.mp bare) corrected
  exact allLegible_changeSlot (fun _ => allLegible_weave fresh route)
    (fills_of_filled _ _ (weave_ne_nil route _ incoming)) legible

theorem allLegible_weaveTop {shape : Shape QueryNode} {before done : List (Shape QueryNode)}
    (sheer : Sheer [shape]) (bare : shape.label.content.slot? = none)
    (legible : AllLegible mapping before)
    (woven : weaveTop mapping autocorrect shape before = .ok done) : AllLegible mapping done := by
  simp only [weaveTop, Result.bind_ok, Result.pure_ok] at woven
  obtain ⟨route, routed, _, _, incoming, corrected, rfl⟩ := woven
  have fresh := allLegible_correct shape sheer (checked_of_route routed) bare corrected
  exact allLegible_weave fresh route legible

end Correction

end

end QueryNode

end ScopedClauses
