import ScopedClauses.Proofs.Result
import ScopedClauses.Proofs.Scope.Site
import ScopedClauses.Query.Insertion

/-!
What inserting a clause does to the shape of a query, told without numbers. A clause goes along
a route of nested scopes; it enters the first clause there that opens the next scope, and opens
the scope itself where there is none.
-/

namespace ScopedClauses

namespace Weaving

/-! ### Routes -/

def arrive (scope : Option String) : List String → Option String
  | [] => scope
  | path :: rest => arrive (some path) rest

def routeTo (mapping : Mapping) (autocorrect : Bool) (scope : Option String) (field : String) :
    Result (List String) := do
  let required ← mapping.nestedScopes field
  let refusal := Error.invalidNesting field scope required.head?
  match Crossing.plan scope required with
  | .direct => pure []
  | .enter scopes => if autocorrect then pure scopes else throw refusal
  | .exit _ _ => throw refusal

def routeFor (mapping : Option Mapping) (autocorrect : Bool) (scope : Option String)
    (node : QueryNode) : Result (List String) :=
  match node, mapping with
  | .leaf clause, some mapping =>
      match clause.field with
      | some field => do
          let _ ← mapping.checkField clause.kind.tag clause.kind.rule field
          routeTo mapping autocorrect scope field
      | none => pure []
  | _, _ => pure []

/-! ### Slots -/

def mustPlace : Slot := ⟨"must", true⟩

def queryPlace : Slot := ⟨"query", false⟩

def isNamed (name : String) (shape : Shape QueryNode) : Bool :=
  shape.label.content.slot?.any (·.name = name)

def changeSlot (place : Slot) (change : List (Shape QueryNode) → List (Shape QueryNode)) :
    List (Shape QueryNode) → List (Shape QueryNode)
  | [] => [QueryNode.slotShape place (change [])]
  | shape :: rest =>
      if isNamed place.name shape then .node shape.label (change shape.children) :: rest
      else shape :: changeSlot place change rest

theorem changeSlot_absent {place : Slot}
    (change : List (Shape QueryNode) → List (Shape QueryNode)) {slots : List (Shape QueryNode)}
    (absent : ∀ slot ∈ slots, isNamed place.name slot = false) :
    changeSlot place change slots = slots ++ [QueryNode.slotShape place (change [])] := by
  induction slots with
  | nil => rfl
  | cons slot rest ih =>
      rw [List.forall_mem_cons] at absent
      simp [changeSlot, absent.1, ih absent.2]

theorem changeSlot_split {place : Slot}
    (change : List (Shape QueryNode) → List (Shape QueryNode))
    {front back : List (Shape QueryNode)} {slot : Shape QueryNode}
    (absent : ∀ other ∈ front, isNamed place.name other = false)
    (named : isNamed place.name slot = true) :
    changeSlot place change (front ++ slot :: back) =
      front ++ .node slot.label (change slot.children) :: back := by
  induction front with
  | nil => simp [changeSlot, named]
  | cons other rest ih =>
      rw [List.forall_mem_cons] at absent
      simp [changeSlot, absent.1, ih absent.2]

def inSlot (place : Slot) (change : List (Shape QueryNode) → List (Shape QueryNode))
    (clause : Shape QueryNode) : Shape QueryNode :=
  .node clause.label (changeSlot place change clause.children)

def clausesIn (name : String) (slots : List (Shape QueryNode)) : List (Shape QueryNode) :=
  match slots.find? (isNamed name) with
  | some slot => slot.children
  | none => []

theorem clausesIn_absent {name : String} {slots : List (Shape QueryNode)}
    (absent : ∀ slot ∈ slots, isNamed name slot = false) : clausesIn name slots = [] := by
  have none : slots.find? (isNamed name) = none := by simpa using absent
  rw [clausesIn, none]

theorem changeSlot_congr {place : Slot}
    {first second : List (Shape QueryNode) → List (Shape QueryNode)}
    {slots : List (Shape QueryNode)}
    (same : first (clausesIn place.name slots) = second (clausesIn place.name slots)) :
    changeSlot place first slots = changeSlot place second slots := by
  induction slots with
  | nil =>
      simp only [clausesIn, List.find?_nil] at same
      simp [changeSlot, same]
  | cons shape rest ih =>
      by_cases named : isNamed place.name shape = true
      · simp only [clausesIn, List.find?_cons, named] at same
        simp [changeSlot, named, same]
      · simp only [clausesIn, List.find?_cons, named] at same ih
        simp [changeSlot, named, ih same]

/-! ### Weaving -/

def isBool (clause : Shape QueryNode) : Bool := clause.label.content.isBool

def opens (path : String) (clause : Shape QueryNode) : Bool :=
  clause.label.content.nestedPath? = some path

def conjunction (clauses : List (Shape QueryNode)) : Shape QueryNode :=
  .node ⟨none, QueryNode.emptyBool⟩ [QueryNode.slotShape mustPlace clauses]

def chain : List String → Shape QueryNode → Shape QueryNode
  | [], incoming => incoming
  | path :: rest, incoming =>
      .node ⟨none, QueryNode.enter path⟩ [QueryNode.slotShape queryPlace [chain rest incoming]]

def standing (many : Bool) (clauses : List (Shape QueryNode)) : List (Shape QueryNode) :=
  match many, clauses with
  | false, occupant :: _ =>
      if isBool occupant then clausesIn mustPlace.name occupant.children else clauses
  | _, _ => clauses

def changeStanding (many : Bool)
    (change : List (Shape QueryNode) → List (Shape QueryNode)) (clauses : List (Shape QueryNode)) :
    List (Shape QueryNode) :=
  match many, clauses with
  | false, occupant :: rest =>
      if isBool occupant then inSlot mustPlace change occupant :: rest else change clauses
  | _, _ => change clauses

/-- Adds a clause to a slot. Where only one clause has place, the two are joined. -/
def add (many : Bool) (incoming : Shape QueryNode) (clauses : List (Shape QueryNode)) :
    List (Shape QueryNode) :=
  match many, clauses with
  | false, occupant :: rest =>
      if isBool occupant then inSlot mustPlace (· ++ [incoming]) occupant :: rest
      else conjunction [occupant, incoming] :: rest
  | _, _ => clauses ++ [incoming]

section

variable (incoming : Shape QueryNode) (clauses rest : List (Shape QueryNode))
  (occupant : Shape QueryNode) (many : Bool)
  (change : List (Shape QueryNode) → List (Shape QueryNode))

theorem standing_many : standing true clauses = clauses := rfl

theorem standing_nil : standing many [] = [] := by cases many <;> rfl

theorem standing_single : standing false (occupant :: rest) =
    if isBool occupant then clausesIn mustPlace.name occupant.children else occupant :: rest := rfl

theorem changeStanding_many : changeStanding true change clauses = change clauses := rfl

theorem changeStanding_nil : changeStanding many change [] = change [] := by cases many <;> rfl

theorem changeStanding_single : changeStanding false change (occupant :: rest) =
    if isBool occupant then inSlot mustPlace change occupant :: rest
    else change (occupant :: rest) := rfl

theorem add_many : add true incoming clauses = clauses ++ [incoming] := rfl

theorem add_nil : add many incoming [] = [incoming] := by cases many <;> rfl

theorem add_single : add false incoming (occupant :: rest) =
    if isBool occupant then inSlot mustPlace (· ++ [incoming]) occupant :: rest
    else conjunction [occupant, incoming] :: rest := rfl

section Room

/-! A slot that has room takes many clauses, or holds none. -/

variable {incoming clauses many change} (room : many = false → clauses = [])

include room

theorem standing_of_room : standing many clauses = clauses := by
  cases many with
  | true => rfl
  | false => rw [room rfl, standing_nil]

theorem changeStanding_of_room : changeStanding many change clauses = change clauses := by
  cases many with
  | true => rfl
  | false => rw [room rfl, changeStanding_nil]

theorem add_of_room : add many incoming clauses = clauses ++ [incoming] := by
  cases many with
  | true => rfl
  | false => rw [room rfl, add_nil, List.nil_append]

end Room

end

def changeFirst (wanted : Shape QueryNode → Bool) (change : Shape QueryNode → Shape QueryNode) :
    List (Shape QueryNode) → List (Shape QueryNode)
  | [] => []
  | shape :: rest =>
      if wanted shape then change shape :: rest else shape :: changeFirst wanted change rest

theorem changeFirst_split {wanted : Shape QueryNode → Bool}
    (change : Shape QueryNode → Shape QueryNode) {front back : List (Shape QueryNode)}
    {shape : Shape QueryNode} (absent : ∀ other ∈ front, wanted other = false)
    (here : wanted shape = true) :
    changeFirst wanted change (front ++ shape :: back) = front ++ change shape :: back := by
  induction front with
  | nil => simp [changeFirst, here]
  | cons other rest ih =>
      rw [List.forall_mem_cons] at absent
      simp [changeFirst, absent.1, ih absent.2]

def weave : List String → Bool → Shape QueryNode → List (Shape QueryNode) →
    List (Shape QueryNode)
  | [], many, incoming, clauses => add many incoming clauses
  | path :: rest, many, incoming, clauses =>
      if (standing many clauses).any (opens path) then
        changeStanding many
          (changeFirst (opens path) (inSlot queryPlace (weave rest false incoming))) clauses
      else add many (chain (path :: rest) incoming) clauses

theorem weave_nil (route : List String) (many : Bool) (incoming : Shape QueryNode) :
    weave route many incoming [] = [chain route incoming] := by
  cases route with
  | nil => rw [weave, add_nil]; rfl
  | cons path rest => simp [weave, standing_nil, add_nil]

section

variable {path : String} {many : Bool} {clauses : List (Shape QueryNode)}

theorem weave_closed (closed : (standing many clauses).any (opens path) = false)
    (rest : List String) (incoming : Shape QueryNode) :
    weave (path :: rest) many incoming clauses =
      add many (.node ⟨none, QueryNode.enter path⟩
        (changeSlot queryPlace (weave rest queryPlace.multiple incoming) [])) clauses := by
  rw [weave, closed]
  simp [chain, changeSlot, weave_nil]

theorem weave_opened (opened : (standing many clauses).any (opens path) = true)
    (rest : List String) (incoming : Shape QueryNode) :
    weave (path :: rest) many incoming clauses =
      changeStanding many (changeFirst (opens path)
        (inSlot queryPlace (weave rest queryPlace.multiple incoming))) clauses := by
  rw [weave, if_pos opened]
  rfl

end

theorem weave_bool (route : List String) (incoming : Shape QueryNode) {occupant : Shape QueryNode}
    (bool : isBool occupant = true) :
    weave route false incoming [occupant] =
      [inSlot mustPlace (weave route true incoming) occupant] := by
  cases route with
  | nil => rw [weave, add_single, if_pos bool]; rfl
  | cons path rest =>
      rw [weave, standing_single, if_pos bool]
      have into : ∀ change : List (Shape QueryNode) → List (Shape QueryNode),
          change (clausesIn mustPlace.name occupant.children) =
            weave (path :: rest) true incoming (clausesIn mustPlace.name occupant.children) →
          [inSlot mustPlace change occupant] =
            [inSlot mustPlace (weave (path :: rest) true incoming) occupant] := by
        intro change same
        rw [inSlot, inSlot, changeSlot_congr same]
      split
      · rename_i opened
        rw [changeStanding_single, if_pos bool]
        refine into _ ?_
        rw [weave, standing_many, if_pos opened, changeStanding_many]
      · rename_i closed
        rw [add_single, if_pos bool]
        refine into (· ++ [chain (path :: rest) incoming]) ?_
        rw [weave, standing_many, if_neg closed, add_many]

/-! ### Correcting whole clauses -/

def declared (node : QueryNode) (name : String) : Result Slot :=
  match node with
  | .compound clause =>
      match clause.kind.slot? name with
      | some place => pure place
      | none => throw (.unknownParameter clause.kind.tag name)
  | other => throw (.invalidParent (.quoted other.label) (.parameter name))

def refuseSlot (node : QueryNode) : Result Unit :=
  match node.slot? with
  | some place => throw (.parameterUnderParameter place.name)
  | none => pure ()

section Correction

variable (mapping : Option Mapping) (autocorrect : Bool)

mutual

/-- A clause with everything below it brought into the scopes of their fields. The clause stands
in `scope` itself. -/
def correct (scope : Option String) : Shape QueryNode → Result (Shape QueryNode)
  | .node label children => do
      let inside := Rose.within scope label.content
      pure (.node label (← correctSlots inside label.content children []))

def correctSlots (scope : Option String) (holder : QueryNode) :
    List (Shape QueryNode) → List (Shape QueryNode) → Result (List (Shape QueryNode))
  | [], done => pure done
  | .node label clauses :: rest, done =>
      match label.content.slot? with
      | some named => do
          let place ← declared holder named.name
          let done ← correctClauses scope place clauses (changeSlot place (fun old => old) done)
          correctSlots scope holder rest done
      | none => correctSlots scope holder rest done

def correctClauses (scope : Option String) (place : Slot) :
    List (Shape QueryNode) → List (Shape QueryNode) → Result (List (Shape QueryNode))
  | [], done => pure done
  | clause :: rest, done => do
      let route ← routeFor mapping autocorrect scope clause.label.content
      refuseSlot clause.label.content
      let incoming ← correct (arrive scope route) clause
      correctClauses scope place rest
        (changeSlot place (weave route place.multiple incoming) done)

end

def weaveClause (scope : Option String) (place : Slot) (clause : Shape QueryNode)
    (done : List (Shape QueryNode)) : Result (List (Shape QueryNode)) := do
  let route ← routeFor mapping autocorrect scope clause.label.content
  refuseSlot clause.label.content
  let incoming ← correct mapping autocorrect (arrive scope route) clause
  pure (changeSlot place (weave route place.multiple incoming) done)

theorem correctClauses_cons (scope : Option String) (place : Slot) (clause : Shape QueryNode)
    (rest done : List (Shape QueryNode)) :
    correctClauses mapping autocorrect scope place (clause :: rest) done =
      weaveClause mapping autocorrect scope place clause done >>= fun done =>
        correctClauses mapping autocorrect scope place rest done := by
  simp only [correctClauses, weaveClause, bind_assoc, Result.pure_bind]

def refuseJoin (roots : List (Shape QueryNode)) (node : QueryNode) : Result Unit :=
  match roots with
  | [] => pure ()
  | root :: _ => do
      refuseSlot root.label.content
      refuseSlot node

def weaveTop (clause : Shape QueryNode) (roots : List (Shape QueryNode)) :
    Result (List (Shape QueryNode)) := do
  let route ← routeFor mapping autocorrect none clause.label.content
  refuseJoin roots clause.label.content
  let incoming ← correct mapping autocorrect (arrive none route) clause
  pure (weave route false incoming roots)

def weaveTopAll : List (Shape QueryNode) → List (Shape QueryNode) →
    Result (List (Shape QueryNode))
  | [], roots => pure roots
  | clause :: rest, roots => do
      let roots ← weaveTop mapping autocorrect clause roots
      weaveTopAll rest roots

end Correction

end Weaving

end ScopedClauses
