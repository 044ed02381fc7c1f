import ScopedClauses.Config
import ScopedClauses.Response.Basic

/-!
Responses as tables. There is a row for each bucket of the grouping aggregation. The index of a
row holds the keys of the bucket and of the buckets around it; its columns hold the value of
the bucket and the values of the aggregations below it, seen through scope markers.
-/

namespace ScopedClauses

structure TableOptions where
  /-- The grouping aggregation, if it is named. -/
  groupedBy : Option String := none
  config : TableConfig := {}
deriving Repr, DecidableEq

structure Row where
  index : List Json
  values : Members

structure Table where
  indexNames : List String
  rows : List Row

namespace Table

def rowJson (row : Row) : Json :=
  .object [("index", .array row.index), ("values", .object row.values)]

def toJson (table : Table) : Json :=
  .object [("index_names", .array (table.indexNames.map .string)),
    ("rows", .array (table.rows.map rowJson))]

mutual

def columnsOf : Branch AggNode → List (String × Bool)
  | .node label children =>
      if label.content.boundary?.isSome then columns children
      else match label.key, label.content with
        | some name, .clause content => [(name, content.kind.isMultiBucket)]
        | _, _ => []

def columns : List (Branch AggNode) → List (String × Bool)
  | [] => []
  | branch :: rest => columnsOf branch ++ columns rest

end

def isMarker (aggs : Aggregations) (name : String) : Bool :=
  match aggs.clause name with
  | .ok content => content.boundary?.isSome
  | .error _ => false

mutual

def levelOf (aggs : Aggregations) (level : String) :
    Branch ResponseNode → List (Branch ResponseNode)
  | .node label children =>
      match label.content with
      | .root => []
      | .bucket bucket =>
          if bucket.level = level then [.node label children]
          else if isMarker aggs bucket.level then levelBelow aggs level children
          else []

def levelBelow (aggs : Aggregations) (level : String) :
    List (Branch ResponseNode) → List (Branch ResponseNode)
  | [] => []
  | branch :: rest => levelOf aggs level branch ++ levelBelow aggs level rest

end

def columnValue (found : List (Branch ResponseNode)) (multiple : Bool) : Json :=
  if multiple then .array (found.map Response.normalize)
  else match (found.head?.bind fun branch => branch.content.bucket?) with
    | some bucket => bucket.value
    | none => .null

end Table

namespace Response

def groupingOf (response : Response) (options : TableOptions) : Result Nat := do
  let id ← match options.groupedBy, response.aggs.grouping with
    | some name, _ => response.aggs.idOf name
    | none, some grouping => pure grouping
    | none, none =>
        match response.aggs.tree.root with
        | some root => pure (Aggregations.chainEnd root).id
        | none => throw (.nodeNotFound (.name "aggregation root"))
  response.aggs.ensureHolds id .tabularRows
  pure id

def indexNames (response : Response) (options : TableOptions) (grouping : Nat) : List String :=
  (response.aggs.tree.ancestry grouping).reverse.filterMap fun node => do
    let content ← node.content.clause?
    if content.kind.isMultiBucket ||
        content.kind.isSingleBucket && options.config.includeSingleBucket then node.key
    else none

def rowIndex (response : Response) (names : List String) (id : Nat) : List Json :=
  (response.tree.ancestry id).reverse.filterMap fun node => do
    let bucket ← node.content.bucket?
    if names.contains bucket.level then some (Json.ofOption bucket.key) else none

def rowValues (response : Response) (options : TableOptions) (columns : List (String × Bool))
    (id : Nat) : Members :=
  let own : Members := match (response.tree.get? id).bind ResponseNode.bucket? with
    | some bucket => [(options.config.valueColumn, bucket.value)]
    | none => []
  let cells := columns.map fun (name, multiple) =>
    (name, Table.columnValue
      (Table.levelBelow response.aggs name (response.tree.childBranches id)) multiple)
  Members.merge own cells

def rowsAt (response : Response) (grouping : Nat) : Result (List Nat) :=
  match response.aggs.tree.key? grouping with
  | some name => pure (response.bucketsAt name)
  | none => do pure [← response.root]

def toTable (response : Response) (options : TableOptions) : Result Table := do
  let grouping ← response.groupingOf options
  let names := response.indexNames options grouping
  let columns := Table.columns (response.aggs.tree.childBranches grouping)
  let rows := (← response.rowsAt grouping).map fun id =>
    Row.mk (response.rowIndex names id) (response.rowValues options columns id)
  pure ⟨names, rows⟩

end Response

end ScopedClauses
