import ScopedClauses.Aggregation.Clause

/-!
Aggregation declarations as JSON: an object of named clauses. A clause has its type as a key,
the aggregations below it under `aggs` or `aggregations`, and may carry `meta`. No name occurs
twice in a declaration.
-/

namespace ScopedClauses

namespace AggNode

def isChildrenKey (key : String) : Bool := key = "aggs" || key = "aggregations"

structure Parts where
  typed : Option (String × Json) := none
  hasChildren : Bool := false
  annotation : Option Members := none

def sortPart (name : String) (parts : Parts) (member : String × Json) : Result Parts :=
  let (key, content) := member
  if isChildrenKey key then
    if parts.hasChildren then throw (.malformed (.aggregationChildrenTwice name))
    else pure { parts with hasChildren := true }
  else if key = "meta" then
    match content with
    | .object members => pure { parts with annotation := some members }
    | _ => throw (.malformed (.aggregationMetaNotObject name))
  else if parts.typed.isSome then throw (.malformed (.aggregationTypeTwice name))
  else pure { parts with typed := some (key, content) }

def readClause (name : String) (members : Members) : Result AggClause := do
  let parts ← members.foldlM (sortPart name) {}
  match parts.typed with
  | none => throw (.malformed (.aggregationUntyped name))
  | some (tag, body) =>
      let kind ← AggKind.ofTag tag
      match body with
      | .object body =>
          let clause ← AggClause.ofBody kind body
          pure { clause with annotation := parts.annotation }
      | _ => throw (.malformed (.aggregationBodyNotObject name tag))

mutual

def readLevel (parent : AggNode) (used : List String) :
    Json → Result (List (Shape AggNode) × List String)
  | .object members => readMembers parent used members
  | other => throw (.malformed (.aggregationsNotObject other))

def readMembers (parent : AggNode) (used : List String) :
    List (String × Json) → Result (List (Shape AggNode) × List String)
  | [] => pure ([], used)
  | (name, json) :: rest => do
      if used.contains name then throw (.duplicateName name)
      let (shape, used) ← readNamed parent used name json
      let (shapes, used) ← readMembers parent used rest
      pure (shape :: shapes, used)

def readNamed (parent : AggNode) (used : List String) (name : String) :
    Json → Result (Shape AggNode × List String)
  | .object members => do
      let node := AggNode.clause (← readClause name members)
      checkChild parent node 0
      let (children, used) ← readChildren node (name :: used) members
      pure (.node ⟨some name, node⟩ children, used)
  | _ => throw (.malformed (.aggregationNotObject name))

def readChildren (node : AggNode) (used : List String) :
    List (String × Json) → Result (List (Shape AggNode) × List String)
  | [] => pure ([], used)
  | (key, json) :: rest =>
      if isChildrenKey key then readLevel node used json else readChildren node used rest

end

def emptyRequest : Shape AggNode := .node ⟨none, .root⟩ []

def ofJson (json : Json) : Result (Shape AggNode) := do
  let (children, _) ← readLevel .root [] json
  pure (.node ⟨none, .root⟩ children)

def clauseJson (clause : AggClause) (children : Members) : Json :=
  let typed : Members := [(clause.kind.tag, .object clause.body)]
  let nested := if children.isEmpty then typed else Members.put "aggs" (.object children) typed
  match clause.annotation with
  | some members => .object (Members.put "meta" (.object members) nested)
  | none => .object nested

mutual

def ownMembers : Shape AggNode → Members
  | .node label children =>
      match label.key, label.content with
      | some name, .clause content => [(name, clauseJson content (toMembers children))]
      | _, _ => []

def toMembers : List (Shape AggNode) → Members
  | [] => []
  | shape :: rest => ownMembers shape ++ toMembers rest

end

def declarationOf (tree : Tree AggNode) : Members :=
  match tree.shape? with
  | some shape => toMembers shape.children
  | none => []

end AggNode

end ScopedClauses
