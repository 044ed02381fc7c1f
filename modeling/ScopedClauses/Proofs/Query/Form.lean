import ScopedClauses.Proofs.Query.Weaving

/-!
The form of query trees: leaves hold nothing, compound clauses hold the slots of their kind, each
name once, and slots hold clauses, as many as they have place for. Weaving keeps the form.
-/

namespace ScopedClauses

namespace QueryKind

theorem compound_of_mem {kind : CompoundKind} (known : .compound kind ∈ all) :
    kind ∈ compounds := by
  simp only [all, List.mem_append, List.mem_map] at known
  rcases known with ⟨_, _, impossible⟩ | ⟨found, member, same⟩
  · cases impossible
  · cases same
    exact member

theorem eq_boolean {kind : CompoundKind} (known : .compound kind ∈ all)
    (tagged : kind.tag = "bool") : kind = boolean := by
  have only : ∀ kind ∈ compounds, kind.tag = "bool" → kind = boolean := by decide +kernel
  exact only kind (compound_of_mem known) tagged

theorem eq_nested {kind : CompoundKind} (known : .compound kind ∈ all)
    (enters : kind.entersScope = true) : kind = nested := by
  have only : ∀ kind ∈ compounds, kind.entersScope = true → kind = nested := by decide +kernel
  exact only kind (compound_of_mem known) enters

end QueryKind

theorem CompoundKind.slot?_name {kind : CompoundKind} {name : String} {place : Slot}
    (found : kind.slot? name = some place) : place.name = name := by
  have wanted := List.find?_some found
  simpa using wanted

namespace QueryNode

def Known : QueryNode → Prop
  | .compound clause => .compound clause.kind ∈ QueryKind.all
  | _ => True

def Holds : QueryNode → List QueryNode → Prop
  | .leaf _, below => below = []
  | .slot place, below =>
      (∀ child ∈ below, child.slot? = none) ∧ (place.multiple = false → below.length ≤ 1)
  | .compound clause, below =>
      .compound clause.kind ∈ QueryKind.all ∧
        (∀ child ∈ below, ∃ place, child = .slot place ∧
          clause.kind.slot? place.name = some place) ∧ (below.map tag).Nodup

def Carries : QueryNode → List QueryNode → Prop
  | .leaf _, below => below = []
  | .slot place, below =>
      (∀ child ∈ below, child.slot? = none) ∧ (place.multiple = false → below.length ≤ 1)
  | .compound clause, below =>
      (∀ child ∈ below, ∃ place, child = .slot place ∧
        clause.kind.slot? place.name = some place) ∧ (below.map tag).Nodup

theorem holds_iff {node : QueryNode} {below : List QueryNode} :
    Holds node below ↔ Known node ∧ Carries node below := by
  cases node <;> simp [Holds, Known, Carries]

theorem carries_compound (new old : CompoundClause) {holder : QueryNode}
    {front back : List QueryNode} (carries : Carries holder (front ++ .compound old :: back)) :
    Carries holder (front ++ .compound new :: back) := by
  cases holder with
  | leaf clause => cases List.append_eq_nil_iff.mp carries |>.2
  | compound clause =>
      obtain ⟨place, slotted, _⟩ := carries.1 (.compound old) (by simp)
      cases slotted
  | slot place =>
      refine ⟨fun child inside => ?_, fun single => by simpa using carries.2 single⟩
      rcases List.mem_append.mp inside with before | here
      · exact carries.1 child (List.mem_append_left _ before)
      · rcases List.mem_cons.mp here with rfl | later
        · rfl
        · exact carries.1 child (List.mem_append_right _ (List.mem_cons_of_mem _ later))

theorem slot?_eq_some {node : QueryNode} {place : Slot} :
    node.slot? = some place ↔ node = .slot place := by
  cases node <;> simp [slot?]

theorem kind_of_isBool {node : QueryNode} {below : List QueryNode} (holds : Holds node below)
    (bool : node.isBool = true) :
    ∃ clause, node = .compound clause ∧ clause.kind = QueryKind.boolean := by
  cases node with
  | compound clause =>
      have tagged : clause.kind.tag = "bool" := by simpa [isBool] using bool
      exact ⟨clause, rfl, QueryKind.eq_boolean holds.1 tagged⟩
  | leaf _ => simp [isBool] at bool
  | slot _ => simp [isBool] at bool

theorem kind_of_nestedPath {node : QueryNode} {below : List QueryNode} {path : String}
    (holds : Holds node below) (entered : node.nestedPath? = some path) :
    ∃ clause, node = .compound clause ∧ clause.kind = QueryKind.nested := by
  cases node with
  | compound clause =>
      have enters : clause.kind.entersScope = true := by
        simp only [nestedPath?, CompoundClause.path?] at entered
        split at entered
        · assumption
        · cases entered
      exact ⟨clause, rfl, QueryKind.eq_nested holds.1 enters⟩
  | leaf _ => simp [nestedPath?] at entered
  | slot _ => simp [nestedPath?] at entered

end QueryNode

namespace Weaving

open QueryNode Rose

abbrev contents (shapes : List (Shape QueryNode)) : List QueryNode :=
  shapes.map (·.label.content)

theorem contents_shapes (forest : List (Branch QueryNode)) :
    contents (shapes forest) = forest.map (·.content) := by
  induction forest with
  | nil => rfl
  | cons branch rest ih =>
      rw [shapes_cons_eq, contents, List.map_cons, ← contents, ih, content_shape, List.map_cons]

def Formed (forest : List (Shape QueryNode)) : Prop :=
  ∀ shape ∈ preorderAll forest, Holds shape.label.content (contents shape.children)

@[simp] theorem formed_nil : Formed [] := fun _ absent => absurd absent List.not_mem_nil

theorem formed_append (front back : List (Shape QueryNode)) :
    Formed (front ++ back) ↔ Formed front ∧ Formed back := by
  simp only [Formed, preorderAll_append]
  exact List.forall_mem_append

@[simp] theorem formed_cons (label : Keyed QueryNode) (children rest : List (Shape QueryNode)) :
    Formed (.node label children :: rest) ↔
      Holds label.content (contents children) ∧ Formed children ∧ Formed rest := by
  simp only [Formed, preorderAll_cons, List.forall_mem_cons, List.forall_mem_append,
    label_node, children_node]

theorem formed_cons_iff (shape : Shape QueryNode) (rest : List (Shape QueryNode)) :
    Formed (shape :: rest) ↔ Formed [shape] ∧ Formed rest :=
  formed_append [shape] rest

def StandsFor (new old : QueryNode) : Prop :=
  ∀ holder front back, Holds holder (front ++ old :: back) → Holds holder (front ++ new :: back)

theorem standsFor_self (node : QueryNode) : StandsFor node node := fun _ _ _ => id

theorem standsFor_compound (new old : CompoundClause) :
    StandsFor (.compound new) (.compound old) := by
  intro holder front back holds
  obtain ⟨known, carries⟩ := holds_iff.mp holds
  exact holds_iff.mpr ⟨known, carries_compound new old carries⟩

section Ruled

variable {rule : QueryNode → List QueryNode → Prop}

def Ruled (rule : QueryNode → List QueryNode → Prop) (forest : List (Shape QueryNode)) : Prop :=
  ∀ shape ∈ preorderAll forest, rule shape.label.content (contents shape.children)

theorem ruled_append (front back : List (Shape QueryNode)) :
    Ruled rule (front ++ back) ↔ Ruled rule front ∧ Ruled rule back := by
  simp only [Ruled, preorderAll_append]
  exact List.forall_mem_append

theorem ruled_cons (label : Keyed QueryNode) (children rest : List (Shape QueryNode)) :
    Ruled rule (.node label children :: rest) ↔
      rule label.content (contents children) ∧ Ruled rule children ∧ Ruled rule rest := by
  simp only [Ruled, preorderAll_cons, List.forall_mem_cons, List.forall_mem_append,
    label_node, children_node]

theorem ruled_cons_iff (shape : Shape QueryNode) (rest : List (Shape QueryNode)) :
    Ruled rule (shape :: rest) ↔ Ruled rule [shape] ∧ Ruled rule rest :=
  ruled_append [shape] rest

theorem ruled_nil : Ruled rule [] := fun _ absent => absurd absent List.not_mem_nil

theorem ruled_singleton (label : Keyed QueryNode) (children : List (Shape QueryNode)) :
    Ruled rule [.node label children] ↔
      rule label.content (contents children) ∧ Ruled rule children := by
  rw [ruled_cons]
  exact ⟨fun ruled => ⟨ruled.1, ruled.2.1⟩, fun ruled => ⟨ruled.1, ruled.2, ruled_nil⟩⟩

theorem ruled_updateAt (forest : List (Branch QueryNode)) (distinct : (numbers forest).Nodup)
    {branch new : Branch QueryNode} (member : branch ∈ preorderAll forest)
    (ruled : Ruled rule (shapes forest))
    (alike : ∀ holder front back, rule holder (front ++ branch.content :: back) →
      rule holder (front ++ new.content :: back))
    (ruledNew : Ruled rule (shapes [new])) :
    Ruled rule (shapes (updateAt branch.id (fun _ => new) forest)) ∧
      ∀ holder front, rule holder (front ++ contents (shapes forest)) →
        rule holder (front ++ contents (shapes (updateAt branch.id (fun _ => new) forest))) := by
  induction forest using forestInduction with
  | nil => simp at member
  | cons entry children rest ihBelow ihBeside =>
      obtain ⟨_, _, below, beside, _⟩ := distinct_cons distinct
      simp only [shapes_cons, ruled_cons] at ruled
      simp only [preorderAll_cons, List.mem_cons, List.mem_append] at member
      rcases member with rfl | inside | outside
      · rw [id_node, updateAt_here distinct, shapes_cons_eq, ruled_cons_iff]
        refine ⟨⟨ruledNew, ruled.2.2⟩, fun holder front holds => ?_⟩
        simp only [shapes_cons, contents, List.map_cons, label_node, content_shape] at holds ⊢
        exact alike holder front _ holds
      · obtain ⟨kept, may⟩ := ihBelow below inside ruled.2.1
        rw [updateAt_below distinct _ (id_mem_numbers inside), shapes_cons, ruled_cons]
        refine ⟨⟨may _ [] ruled.1, kept, ruled.2.2⟩, fun holder front holds => ?_⟩
        simpa only [shapes_cons, contents, List.map_cons, label_node] using holds
      · obtain ⟨kept, may⟩ := ihBeside beside outside ruled.2.2
        rw [updateAt_beside distinct _ (id_mem_numbers outside), shapes_cons, ruled_cons]
        refine ⟨⟨ruled.1, ruled.2.1, kept⟩, fun holder front holds => ?_⟩
        have longer := may holder (front ++ [entry.content])
        simp only [List.append_assoc, List.singleton_append] at longer
        exact longer (by simpa only [shapes_cons, contents, List.map_cons, label_node] using holds)

end Ruled

theorem formed_updateAt (forest : List (Branch QueryNode)) (distinct : (numbers forest).Nodup)
    {branch new : Branch QueryNode} (member : branch ∈ preorderAll forest)
    (formed : Formed (shapes forest)) (alike : StandsFor new.content branch.content)
    (formedNew : Formed (shapes [new])) :
    Formed (shapes (updateAt branch.id (fun _ => new) forest)) ∧
      ∀ holder front, Holds holder (front ++ contents (shapes forest)) →
        Holds holder (front ++ contents (shapes (updateAt branch.id (fun _ => new) forest))) :=
  ruled_updateAt forest distinct member formed alike formedNew

def FormedSlot (place : Slot) (clauses : List (Shape QueryNode)) : Prop :=
  Formed clauses ∧ Holds (.slot place) (contents clauses)

def FormedSlots (holder : QueryNode) (slots : List (Shape QueryNode)) : Prop :=
  Formed slots ∧ Holds holder (contents slots)

theorem formedSlots_nil {node : QueryNode} (known : Known node) : FormedSlots node [] := by
  refine ⟨formed_nil, ?_⟩
  cases node with
  | leaf clause => rfl
  | compound clause => exact ⟨known, by simp, by simp⟩
  | slot place => exact ⟨by simp, by simp⟩

theorem slot_cases {place : Slot} {clauses : List (Shape QueryNode)}
    (formed : FormedSlot place clauses) :
    place.multiple = true ∨ (place.multiple = false ∧ clauses = []) ∨
      place.multiple = false ∧ ∃ occupant, clauses = [occupant] := by
  cases many : place.multiple with
  | true => exact Or.inl rfl
  | false =>
      have few := formed.2.2 many
      rw [List.length_map] at few
      match clauses, few with
      | [], _ => exact Or.inr (Or.inl ⟨rfl, rfl⟩)
      | [occupant], _ => exact Or.inr (Or.inr ⟨rfl, occupant, rfl⟩)

theorem formedSlot_nil (place : Slot) : FormedSlot place [] := ⟨formed_nil, by simp [Holds]⟩

theorem formedSlots_cons {clause : CompoundClause} {shape : Shape QueryNode}
    {rest : List (Shape QueryNode)} :
    FormedSlots (.compound clause) (shape :: rest) ↔
      Formed [shape] ∧ (∃ place, shape.label.content = .slot place ∧
        clause.kind.slot? place.name = some place) ∧
      shape.label.content.tag ∉ (contents rest).map tag ∧
      FormedSlots (.compound clause) rest := by
  rw [FormedSlots, formed_cons_iff, FormedSlots]
  simp only [Holds, List.map_cons, List.forall_mem_cons, List.nodup_cons]
  grind

theorem isNamed_iff {name : String} {shape : Shape QueryNode} :
    isNamed name shape = true ↔ ∃ place, shape.label.content = .slot place ∧ place.name = name := by
  obtain ⟨⟨_, content⟩, _⟩ := shape
  cases content <;> simp [isNamed, slot?]

theorem absent_of_formed {clause : CompoundClause} {front back : List (Shape QueryNode)}
    {label : Keyed QueryNode} {place : Slot} {clauses : List (Shape QueryNode)}
    (formed : FormedSlots (.compound clause) (front ++ .node label clauses :: back))
    (content : label.content = .slot place) :
    ∀ other ∈ front, isNamed place.name other = false := by
  intro other inside
  cases named : isNamed place.name other with
  | false => rfl
  | true =>
      obtain ⟨own, ownContent, sameName⟩ := isNamed_iff.mp named
      have distinct := formed.2.2.2
      rw [contents, List.map_append, List.map_append, List.nodup_append] at distinct
      refine absurd rfl (distinct.2.2 place.name ?_ place.name (by simp [content, tag]))
      rw [← sameName]
      exact List.mem_map.mpr
        ⟨other.label.content, List.mem_map_of_mem inside, by rw [ownContent]; rfl⟩

theorem formed_changeSlot {clause : CompoundClause} {place : Slot}
    (declares : clause.kind.slot? place.name = some place)
    (change : List (Shape QueryNode) → List (Shape QueryNode))
    (keeps : ∀ clauses, FormedSlot place clauses → FormedSlot place (change clauses))
    {slots : List (Shape QueryNode)} (formed : FormedSlots (.compound clause) slots) :
    FormedSlots (.compound clause) (changeSlot place change slots) ∧
      ∀ name ∈ (contents (changeSlot place change slots)).map tag,
        name = place.name ∨ name ∈ (contents slots).map tag := by
  induction slots with
  | nil =>
      obtain ⟨made, holds⟩ := keeps [] (formedSlot_nil place)
      have known := formed.2.1
      refine ⟨⟨?_, ?_⟩, by simp [changeSlot, slotShape, tag]⟩
      · simp only [changeSlot, slotShape, formed_cons, formed_nil, and_true]
        exact ⟨holds, made⟩
      · simp [changeSlot, slotShape, Holds, known, declares]
  | cons shape rest ih =>
      rw [formedSlots_cons] at formed
      obtain ⟨formedShape, ⟨own, content, ownDeclared⟩, apart, formedRest⟩ := formed
      obtain ⟨keptRest, namesRest⟩ := ih formedRest
      by_cases named : isNamed place.name shape = true
      · simp only [changeSlot, named, if_true]
        obtain ⟨found, sameContent, sameName⟩ := isNamed_iff.mp named
        have samePlace : own = place := by
          rw [content] at sameContent
          cases sameContent
          rw [sameName, declares] at ownDeclared
          exact (Option.some.inj ownDeclared).symm
        subst samePlace
        obtain ⟨label, clauses⟩ := shape
        simp only [label_node, children_node] at content formedShape ⊢
        rw [formed_cons, content] at formedShape
        obtain ⟨made, holds⟩ := keeps clauses ⟨formedShape.2.1, formedShape.1⟩
        refine ⟨formedSlots_cons.mpr ⟨?_, ⟨own, content, ownDeclared⟩, apart, formedRest⟩, ?_⟩
        · rw [formed_cons, content]
          exact ⟨holds, made, formed_nil⟩
        · simp only [List.map_cons, List.mem_cons, label_node]
          exact fun name found => Or.inr found
      · simp only [changeSlot, named]
        refine ⟨formedSlots_cons.mpr
          ⟨formedShape, ⟨own, content, ownDeclared⟩, ?_, keptRest⟩, ?_⟩
        · intro present
          rcases namesRest _ present with same | before
          · exact named (isNamed_iff.mpr ⟨own, content, by simpa [content, tag] using same⟩)
          · exact apart before
        · simp only [Bool.false_eq_true, if_false, List.map_cons, List.mem_cons]
          rintro name (rfl | later)
          · exact Or.inr (Or.inl rfl)
          · exact (namesRest name later).imp_right Or.inr

theorem formedSlot_changeFirst {place : Slot} (wanted : Shape QueryNode → Bool)
    (change : Shape QueryNode → Shape QueryNode)
    (keeps : ∀ shape, wanted shape = true → Formed [shape] →
      Formed [change shape] ∧ (change shape).label = shape.label)
    {clauses : List (Shape QueryNode)} (formed : FormedSlot place clauses) :
    FormedSlot place (changeFirst wanted change clauses) := by
  have same : Formed (changeFirst wanted change clauses) ∧
      contents (changeFirst wanted change clauses) = contents clauses := by
    have formedClauses := formed.1
    clear formed
    induction clauses with
    | nil => exact ⟨formed_nil, rfl⟩
    | cons shape rest ih =>
        rw [formed_cons_iff] at formedClauses
        by_cases here : wanted shape = true
        · obtain ⟨kept, label⟩ := keeps shape here formedClauses.1
          simp only [changeFirst, here, if_true]
          refine ⟨(formed_cons_iff _ _).mpr ⟨kept, formedClauses.2⟩, by simp [label]⟩
        · obtain ⟨kept, content⟩ := ih formedClauses.2
          simp only [changeFirst, here]
          refine ⟨(formed_cons_iff _ _).mpr ⟨formedClauses.1, kept⟩, by simp [content]⟩
  exact ⟨same.1, same.2 ▸ formed.2⟩

theorem formed_conjunction {clauses : List (Shape QueryNode)} (formed : Formed clauses)
    (bare : ∀ child ∈ contents clauses, child.slot? = none) : Formed [conjunction clauses] := by
  have known : .compound QueryKind.boolean ∈ QueryKind.all := by decide +kernel
  have place : QueryKind.boolean.slot? "must" = some ⟨"must", true⟩ := by decide +kernel
  simp only [conjunction, slotShape, formed_cons, formed_nil, and_true]
  refine ⟨?_, ⟨bare, by simp [mustPlace]⟩, formed⟩
  simp [emptyBool, Holds, known, mustPlace, place]

theorem formed_chain (route : List String) {incoming : Shape QueryNode}
    (formed : Formed [incoming]) (bare : incoming.label.content.slot? = none) :
    Formed [chain route incoming] ∧ (chain route incoming).label.content.slot? = none := by
  have known : .compound QueryKind.nested ∈ QueryKind.all := by decide +kernel
  have place : QueryKind.nested.slot? "query" = some ⟨"query", false⟩ := by decide +kernel
  induction route with
  | nil => exact ⟨formed, bare⟩
  | cons path rest ih =>
      refine ⟨?_, rfl⟩
      simp only [chain, slotShape, formed_cons, formed_nil, and_true]
      refine ⟨?_, ⟨?_, by simp⟩, ih.1⟩
      · simp [QueryNode.enter, Holds, known, queryPlace, place]
      · simpa using ih.2

theorem formed_inSlot {place : Slot}
    (change : List (Shape QueryNode) → List (Shape QueryNode))
    (keeps : ∀ clauses, FormedSlot place clauses → FormedSlot place (change clauses))
    {shape : Shape QueryNode} {clause : CompoundClause}
    (content : shape.label.content = .compound clause)
    (declares : clause.kind.slot? place.name = some place) (formed : Formed [shape]) :
    Formed [inSlot place change shape] := by
  obtain ⟨label, children⟩ := shape
  simp only [label_node] at content
  simp only [inSlot, formed_cons, formed_nil, and_true, content, label_node, children_node]
    at formed ⊢
  obtain ⟨kept, _⟩ := formed_changeSlot declares change keeps ⟨formed.2, formed.1⟩
  exact ⟨kept.2, kept.1⟩

theorem formed_inSlot_must (change : List (Shape QueryNode) → List (Shape QueryNode))
    (keeps : ∀ clauses, FormedSlot mustPlace clauses → FormedSlot mustPlace (change clauses))
    {shape : Shape QueryNode} (bool : isBool shape = true) (formed : Formed [shape]) :
    Formed [inSlot mustPlace change shape] := by
  obtain ⟨label, children⟩ := shape
  have holds := ((formed_cons label children []).mp formed).1
  obtain ⟨clause, content, kind⟩ := kind_of_isBool holds bool
  refine formed_inSlot change keeps content ?_ formed
  rw [kind]
  decide +kernel

theorem formed_inSlot_query (change : List (Shape QueryNode) → List (Shape QueryNode))
    (keeps : ∀ clauses, FormedSlot queryPlace clauses → FormedSlot queryPlace (change clauses))
    {shape : Shape QueryNode} {path : String} (entered : opens path shape = true)
    (formed : Formed [shape]) : Formed [inSlot queryPlace change shape] := by
  obtain ⟨label, children⟩ := shape
  have holds := ((formed_cons label children []).mp formed).1
  obtain ⟨clause, content, kind⟩ := kind_of_nestedPath holds (of_decide_eq_true entered)
  refine formed_inSlot change keeps content ?_ formed
  rw [kind]
  decide +kernel

section

variable {place : Slot} {incoming : Shape QueryNode} (formedIncoming : Formed [incoming])
  (bare : incoming.label.content.slot? = none)

include formedIncoming bare

theorem formedSlot_concat {clauses : List (Shape QueryNode)}
    (room : place.multiple = false → clauses = []) (formed : FormedSlot place clauses) :
    FormedSlot place (clauses ++ [incoming]) := by
  refine ⟨(formed_append _ _).mpr ⟨formed.1, formedIncoming⟩, ?_, fun single => ?_⟩
  · simp only [contents, List.map_append, List.forall_mem_append]
    exact ⟨formed.2.1, by simpa using bare⟩
  · simp [room single]

theorem formedSlot_add {clauses : List (Shape QueryNode)} (formed : FormedSlot place clauses) :
    FormedSlot place (add place.multiple incoming clauses) := by
  rcases slot_cases formed with many | ⟨single, rfl⟩ | ⟨single, occupant, rfl⟩
  · rw [many, add_many]
    exact formedSlot_concat formedIncoming bare (by simp [many]) formed
  · rw [single, add_nil]
    exact formedSlot_concat formedIncoming bare (fun _ => rfl) formed
  · have bareOccupant := formed.2.1 occupant.label.content (by simp)
    rw [single, add_single]
    split
    · rename_i bool
      refine ⟨formed_inSlot_must _ (fun _ => formedSlot_concat formedIncoming bare (by
        simp [mustPlace])) bool formed.1, ?_, by simp⟩
      simpa [inSlot] using bareOccupant
    · refine ⟨formed_conjunction ((formed_cons_iff _ _).mpr ⟨formed.1, formedIncoming⟩) ?_,
        ?_, by simp⟩
      · simp [bare, bareOccupant]
      · simp [conjunction, emptyBool, slot?]

theorem formedSlot_weave (route : List String) {clauses : List (Shape QueryNode)}
    (formed : FormedSlot place clauses) :
    FormedSlot place (weave route place.multiple incoming clauses) := by
  induction route generalizing place clauses with
  | nil => exact formedSlot_add formedIncoming bare formed
  | cons path rest ih =>
      have inward : ∀ (outer : Slot) clauses, FormedSlot outer clauses →
          FormedSlot outer
            (changeFirst (opens path) (inSlot queryPlace (weave rest false incoming)) clauses) :=
        fun outer clauses => formedSlot_changeFirst _ _ fun shape entered formedShape =>
          ⟨formed_inSlot_query _ (fun _ => ih) entered formedShape, rfl⟩
      rw [weave]
      split
      · rcases slot_cases formed with many | ⟨single, rfl⟩ | ⟨single, occupant, rfl⟩
        · rw [many, changeStanding_many]
          exact inward place clauses formed
        · rw [single, changeStanding_nil]
          exact inward place [] formed
        · rw [single, changeStanding_single]
          split
          · rename_i bool
            refine ⟨formed_inSlot_must _ (inward mustPlace) bool formed.1, ?_, by simp⟩
            simpa [inSlot] using formed.2.1 occupant.label.content (by simp)
          · exact inward place [occupant] formed
      · obtain ⟨formedChain, bareChain⟩ := formed_chain (path :: rest) formedIncoming bare
        exact formedSlot_add formedChain bareChain formed

end

/-! ### Corrected clauses -/

def AllKnown (shapes : List (Shape QueryNode)) : Prop :=
  ∀ shape ∈ preorderAll shapes, Known shape.label.content

theorem allKnown_cons (label : Keyed QueryNode) (children rest : List (Shape QueryNode)) :
    AllKnown (.node label children :: rest) ↔
      Known label.content ∧ AllKnown children ∧ AllKnown rest := by
  simp only [AllKnown, preorderAll_cons, List.forall_mem_cons, List.forall_mem_append, label_node]

theorem allKnown_cons_iff (shape : Shape QueryNode) (rest : List (Shape QueryNode)) :
    AllKnown (shape :: rest) ↔ AllKnown [shape] ∧ AllKnown rest := by
  obtain ⟨label, children⟩ := shape
  simp only [allKnown_cons]
  simp [AllKnown, and_assoc]

theorem refuseSlot_ok {node : QueryNode} {nothing : Unit} :
    refuseSlot node = .ok nothing ↔ node.slot? = none := by
  cases found : node.slot? <;> simp [refuseSlot, found, Result.throw_ok, Result.pure_ok]

theorem refuseSlot_slot (place : Slot) :
    refuseSlot (.slot place) = .error (.parameterUnderParameter place.name) := rfl

theorem refuseJoin_bare {roots : List (Shape QueryNode)} {node : QueryNode}
    (bareRoots : ∀ root ∈ roots, root.label.content.slot? = none) (bare : node.slot? = none) :
    refuseJoin roots node = .ok () := by
  cases roots with
  | nil => rfl
  | cons root rest =>
      have bareRoot : refuseSlot root.label.content = .ok () :=
        refuseSlot_ok.mpr (bareRoots root List.mem_cons_self)
      rw [refuseJoin, bareRoot]
      exact refuseSlot_ok.mpr bare

theorem route_of_slot {mapping : Option Mapping} {autocorrect : Bool} {scope : Option String}
    {place : Slot} {route : List String}
    (routed : routeFor mapping autocorrect scope (.slot place) = .ok route) : route = [] :=
  (Result.pure_ok.mp routed).symm

theorem declared_ok {node : QueryNode} {name : String} {place : Slot} :
    declared node name = .ok place ↔
      ∃ clause, node = .compound clause ∧ clause.kind.slot? name = some place := by
  cases node with
  | compound clause =>
      cases found : clause.kind.slot? name <;>
        simp [declared, found, Result.throw_ok, Result.pure_ok]
  | leaf clause => simp [declared, Result.throw_ok]
  | slot place => simp [declared, Result.throw_ok]

section

variable {mapping : Option Mapping} {autocorrect : Bool}

theorem formed_woven {clause : CompoundClause} {place : Slot}
    (declares : clause.kind.slot? place.name = some place) (route : List String)
    {incoming : Shape QueryNode} (formedIncoming : Formed [incoming])
    (bare : incoming.label.content.slot? = none) {slots : List (Shape QueryNode)}
    (formed : FormedSlots (.compound clause) slots) :
    FormedSlots (.compound clause)
      (changeSlot place (weave route place.multiple incoming) slots) :=
  (formed_changeSlot declares _ (fun _ => formedSlot_weave formedIncoming bare route) formed).1

mutual

theorem formed_correct {scope : Option String} {done : Shape QueryNode} :
    ∀ shape, AllKnown [shape] → correct mapping autocorrect scope shape = .ok done →
      Formed [done] ∧ done.label = shape.label
  | .node entry children, known, corrected => by
      rw [allKnown_cons] at known
      simp only [correct, Result.bind_ok, Result.pure_ok] at corrected
      obtain ⟨slots, corrected, rfl⟩ := corrected
      obtain ⟨formed, holds⟩ :=
        formed_correctSlots children known.2.1 (formedSlots_nil known.1) corrected
      exact ⟨(formed_cons _ _ _).mpr ⟨holds, formed, formed_nil⟩, rfl⟩
  termination_by structural shape => shape

theorem formed_correctSlots {scope : Option String} {holder : QueryNode}
    {before done : List (Shape QueryNode)} :
    ∀ slots, AllKnown slots → FormedSlots holder before →
      correctSlots mapping autocorrect scope holder slots before = .ok done →
      FormedSlots holder done
  | [], _, formed, corrected => by
      simp only [correctSlots, Result.pure_ok] at corrected
      exact corrected ▸ formed
  | .node entry clauses :: rest, known, formed, corrected => by
      rw [allKnown_cons] at known
      rw [correctSlots] at corrected
      split at corrected
      · simp only [Result.bind_ok, declared_ok] at corrected
        obtain ⟨place, ⟨clause, rfl, declares⟩, between, first, second⟩ := corrected
        rw [← CompoundKind.slot?_name declares] at declares
        have made := (formed_changeSlot declares (fun old => old) (fun _ => id) formed).1
        exact formed_correctSlots rest known.2.2
          (formed_correctClauses clauses known.2.1 declares made first) second
      · exact formed_correctSlots rest known.2.2 formed corrected
  termination_by structural slots => slots

theorem formed_correctClauses {scope : Option String} {clause : CompoundClause} {place : Slot}
    {before done : List (Shape QueryNode)} :
    ∀ clauses, AllKnown clauses → clause.kind.slot? place.name = some place →
      FormedSlots (.compound clause) before →
      correctClauses mapping autocorrect scope place clauses before = .ok done →
      FormedSlots (.compound clause) done
  | [], _, _, formed, corrected => by
      simp only [correctClauses, Result.pure_ok] at corrected
      exact corrected ▸ formed
  | shape :: rest, known, declares, formed, corrected => by
      rw [allKnown_cons_iff] at known
      simp only [correctClauses, Result.bind_ok, refuseSlot_ok] at corrected
      obtain ⟨route, _, _, bare, incoming, first, second⟩ := corrected
      obtain ⟨formedIncoming, same⟩ := formed_correct shape known.1 first
      have woven := formed_woven declares route formedIncoming (same ▸ bare) formed
      exact formed_correctClauses rest known.2 declares woven second
  termination_by structural clauses => clauses

end

theorem formed_weaveClause {scope : Option String} {clause : CompoundClause} {place : Slot}
    {shape : Shape QueryNode} {before done : List (Shape QueryNode)} (known : AllKnown [shape])
    (declares : clause.kind.slot? place.name = some place)
    (formed : FormedSlots (.compound clause) before)
    (woven : weaveClause mapping autocorrect scope place shape before = .ok done) :
    FormedSlots (.compound clause) done := by
  simp only [weaveClause, Result.bind_ok, refuseSlot_ok, Result.pure_ok] at woven
  obtain ⟨route, _, _, bare, incoming, corrected, rfl⟩ := woven
  obtain ⟨formedIncoming, same⟩ := formed_correct shape known corrected
  exact formed_woven declares route formedIncoming (same ▸ bare) formed

theorem formed_bud (key : Option String) {node : QueryNode} (known : Known node) :
    Formed [.node ⟨key, node⟩ []] :=
  (formed_cons _ _ _).mpr ⟨(formedSlots_nil known).2, formed_nil, formed_nil⟩

end

end Weaving

end ScopedClauses
