import ScopedClauses.Query.Clause

/-!
Query documents as JSON. A clause is an object with its type as the only key. Below a compound
type, the parameters of the kind hold clauses and all other keys are attributes. A parameter
for many clauses may hold one without a list, and is always written as a list.
-/

namespace ScopedClauses

namespace QueryNode

def keyed (node : QueryNode) : Keyed QueryNode := ⟨node.name?, node⟩

def attributes (kind : CompoundKind) (body : Members) : Members :=
  body.filter fun (key, _) => (kind.slot? key).isNone

def slotShape (place : Slot) (clauses : List (Shape QueryNode)) : Shape QueryNode :=
  .node ⟨some place.name, .slot place⟩ clauses

mutual

def ofJson : Json → Result (Shape QueryNode)
  | .object members => ofMembers members
  | other => throw (.malformed (.clauseNotObject other))

def ofMembers : List (String × Json) → Result (Shape QueryNode)
  | [(tag, .object body)] => do
      match ← QueryKind.ofTag tag with
      | .leaf kind => pure (.node (keyed (.leaf (← LeafClause.ofBody kind body))) [])
      | .compound kind =>
          let clause ← CompoundClause.ofBody kind (attributes kind body)
          pure (.node (keyed (.compound clause)) (← readSlots kind body))
  | [(tag, other)] => throw (.malformed (.clauseBodyNotObject tag other))
  | members => throw (.malformed (.clauseTypeCount members.length))

def readSlots (kind : CompoundKind) : List (String × Json) → Result (List (Shape QueryNode))
  | [] => pure []
  | (key, content) :: rest => do
      match kind.slot? key with
      | none => readSlots kind rest
      | some place =>
          let clauses ← readSlot kind.tag place content
          pure (slotShape place clauses :: (← readSlots kind rest))

def readSlot (tag : String) (place : Slot) : Json → Result (List (Shape QueryNode))
  | .array items =>
      if place.multiple then readAll items
      else throw (.malformed (.parameterContent tag place.name (.array items)))
  | .object members => do pure [← ofMembers members]
  | other => throw (.malformed (.parameterContent tag place.name other))

def readAll : List Json → Result (List (Shape QueryNode))
  | [] => pure []
  | item :: rest => do
      let first ← ofJson item
      pure (first :: (← readAll rest))

end

def wrap (tag : String) (body : Members) : Json := .object [(tag, .object body)]

mutual

def toJson? : Shape QueryNode → Option Json
  | .node ⟨_, .leaf clause⟩ _ => some (wrap clause.kind.tag clause.body)
  | .node ⟨_, .compound clause⟩ children =>
      some (wrap clause.kind.tag (writeSlots clause.body children))
  | .node ⟨_, .slot place⟩ children =>
      if place.multiple then some (.array (writeAll children)) else (writeAll children).head?

def writeSlots (body : Members) : List (Shape QueryNode) → Members
  | [] => body
  | shape :: rest =>
      match shape.label.content.slot?, toJson? shape with
      | some place, some content => writeSlots (Members.put place.name content body) rest
      | _, _ => writeSlots body rest

def writeAll : List (Shape QueryNode) → List Json
  | [] => []
  | shape :: rest =>
      match toJson? shape with
      | some json => json :: writeAll rest
      | none => writeAll rest

end

def parse (json : Json) : Result (Tree QueryNode) := do pure (Tree.ofShape (← ofJson json))

def documentOf (tree : Tree QueryNode) : Option Json := tree.shape?.bind toJson?

end QueryNode

end ScopedClauses
