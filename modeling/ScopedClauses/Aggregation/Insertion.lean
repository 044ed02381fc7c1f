import ScopedClauses.Aggregation.Basic

/-!
The two ways to insert aggregations. Beside: new clauses join those below a target. Between: a
new bucket comes directly below the target and takes over what was there.
-/

namespace ScopedClauses

namespace Aggregations

inductive Input where
  | declaration (json : Json)
  | named (name tag : String) (body : Json)
  | tree (shape : Option (Shape AggNode))

def Input.read : Input → Result (Option (Shape AggNode))
  | .declaration json => some <$> AggNode.ofJson json
  | .named name tag body => some <$> AggNode.ofJson (.object [(name, .object [(tag, body)])])
  | .tree none => pure none
  | .tree (some shape) =>
      match shape.label.content with
      | .root => pure (some shape)
      | .clause _ => throw (.malformed .aggregationTreeRoot)

def clausesOf (request : Option (Shape AggNode)) : List (Shape AggNode) :=
  match request with
  | some shape => shape.children
  | none => []

def ensureHolds (aggs : Aggregations) (id : Nat) (what : Party) : Result Unit := do
  (← aggs.tree.get id).ensureHolds what

def insertBeside (aggs : Aggregations) (parent : Nat) (request : Option (Shape AggNode)) :
    Result Aggregations := do
  aggs.ensureHolds parent .furtherAggregations
  aggs.insertShapes parent (clausesOf request)

def moveBelow (aggs : Aggregations) (id target : Nat) : Result Aggregations :=
  match aggs.tree.move id target with
  | (tree, .ok ()) => pure { aggs with tree := tree }
  | (_, .error error) => throw error

def resettle (aggs : Aggregations) (target : Nat) (content : AggNode) :
    Result (Nat × Aggregations) :=
  match content.field?, aggs.mapping with
  | some field, some mapping => reconcile aggs target field mapping aggs.autocorrect
  | _, _ => pure (target, aggs)

def isIdle (aggs : Aggregations) (target : Nat) (content : AggNode) : Bool :=
  match content.boundary? with
  | some (.enter path) => aggs.tree.currentScope target = some path
  | _ => false

mutual

/-- Moves a branch below `target`, into the scope of its field. A marker of the scope at
`target` is dissolved and what it held is moved in its stead. -/
def relocate (aggs : Aggregations) (target : Nat) : Branch AggNode → Result Aggregations
  | .node label children =>
      if aggs.isIdle target label.content then do
        let aggs ← relocateAll aggs target children
        let (_, tree) ← aggs.tree.remove label.id
        pure { aggs with tree := tree }
      else do
        let (destination, aggs) ← aggs.resettle target label.content
        aggs.moveBelow label.id destination

def relocateAll (aggs : Aggregations) (target : Nat) :
    List (Branch AggNode) → Result Aggregations
  | [] => pure aggs
  | branch :: rest => do
      let aggs ← relocate aggs target branch
      relocateAll aggs target rest

end

def insertBetween (aggs : Aggregations) (parent : Nat) (shape : Shape AggNode) :
    Result (Nat × Aggregations) := do
  aggs.ensureHolds parent .furtherAggregations
  let before := aggs.tree.descendants parent
  let (inserted, aggs) ← aggs.insertShape parent shape
  let holders := (aggs.tree.ancestors inserted false).takeWhile (· ≠ parent) ++ [parent]
  let moves (aggs : Aggregations) (holder : Nat) : Result Aggregations :=
    aggs.relocateAll inserted ((aggs.tree.childBranches holder).filter fun child =>
      before.contains child.id && !holders.contains child.id && child.id ≠ inserted)
  pure (inserted, ← holders.foldlM moves aggs)

def insertChain (aggs : Aggregations) (parent : Nat) :
    List (Shape AggNode) → Result (Nat × Aggregations)
  | [] => pure (parent, aggs)
  | shape :: rest => do
      if !shape.label.content.isBucket then
        throw (.invalidParent .groupingLevel (.nonBucket (shape.label.key.getD "?")))
      let (inserted, aggs) ← aggs.insertBetween parent shape
      aggs.insertChain inserted rest

/-- Inserts buckets below a target, one below the other, which take over what was there. The
last one becomes the grouping. -/
def groupBy (aggs : Aggregations) (input : Input) (name : Option String) :
    Result Aggregations := do
  let request ← input.read
  let target ← aggs.target name
  match request with
  | none => pure aggs
  | some shape =>
      let (last, aggs) ← aggs.insertChain target shape.children
      pure { aggs with grouping := some last }

def add (aggs : Aggregations) (input : Input) (name : Option String) :
    Result Aggregations := do
  let request ← input.read
  aggs.insertBeside (← aggs.target name) request

def groupedBy (aggs : Aggregations) (name : String) : Result Aggregations := do
  let id ← aggs.idOf name
  aggs.ensureHolds id .furtherAggregations
  pure { aggs with grouping := some id }

def ofJson (json : Json) (mapping : Option Mapping) : Result Aggregations := do
  let aggs : Aggregations := { mapping := mapping }
  let request ← AggNode.ofJson json
  aggs.insertBeside (← aggs.root) (some request)

end Aggregations

end ScopedClauses
