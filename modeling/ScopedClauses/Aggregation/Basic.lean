import ScopedClauses.Aggregation.Declaration
import ScopedClauses.Mapping.Basic
import ScopedClauses.Scope.Reconcile

/-!
Aggregation requests and the placing of clause trees in them. A clause is placed in the scope
of its field, below markers that enter or leave nested scopes.
-/

namespace ScopedClauses

structure Aggregations where
  tree : Tree AggNode := Tree.ofShape AggNode.emptyRequest
  mapping : Option Mapping := none
  /-- Whether missing scope markers are added. -/
  autocorrect : Bool := true
  /-- The aggregation that insertions without a target go below. -/
  grouping : Option Nat := none

namespace Aggregations

def root (aggs : Aggregations) : Result Nat :=
  match aggs.tree.rootId? with
  | some root => pure root
  | none => throw (.nodeNotFound (.name "aggregation root"))

def isEmpty (aggs : Aggregations) : Bool :=
  match aggs.tree.root with
  | some root => root.children.isEmpty
  | none => true

def toJson (aggs : Aggregations) : Json := .object (AggNode.declarationOf aggs.tree)

def render (aggs : Aggregations) : String := aggs.tree.render

def groupingName? (aggs : Aggregations) : Option String := aggs.grouping.bind aggs.tree.key?

def idOf (aggs : Aggregations) (name : String) : Result Nat :=
  match aggs.tree.findByKey? name with
  | some id => pure id
  | none => throw (.nodeNotFound (.name name))

def clause (aggs : Aggregations) (name : String) : Result AggClause := do
  let node ← aggs.tree.get (← aggs.idOf name)
  match node.clause? with
  | some content => pure content
  | none => throw (.nodeNotFound (.name name))

def scopeAt (aggs : Aggregations) (name : String) : Result (Option String) := do
  pure (aggs.tree.currentScope (← aggs.idOf name))

structure ChainEnd where
  id : Nat
  key : Option String
  buckets : Nat
deriving Repr, DecidableEq

mutual

def chainEnd : Branch AggNode → ChainEnd
  | .node label children =>
      match bucketEnds children with
      | [only] => only
      | ends => ⟨label.id, label.key, ends.length⟩

def bucketEnds : List (Branch AggNode) → List ChainEnd
  | [] => []
  | branch :: rest =>
      if branch.content.isBucket then chainEnd branch :: bucketEnds rest else bucketEnds rest

end

def deepestBucket (aggs : Aggregations) : Result Nat :=
  match aggs.tree.root with
  | none => throw (.nodeNotFound (.name "aggregation root"))
  | some root =>
      let last := chainEnd root
      if last.buckets = 0 then pure last.id
      else throw (.ambiguousInsertion (.branching (last.key.getD "root") last.buckets))

def target (aggs : Aggregations) (name : Option String) : Result Nat :=
  match name, aggs.grouping with
  | some name, _ => aggs.idOf name
  | none, some grouping => pure grouping
  | none, none => aggs.deepestBucket

def markerNames (base : String) (count : Nat) : List String :=
  base :: (List.range count).map fun index => s!"{base}_{index + 2}"

/-- A name that no aggregation has yet. More names are tried than there are aggregations. -/
def markerName (aggs : Aggregations) (tag : String) (parent : Nat) : String :=
  let place := (aggs.tree.key? parent).getD "root"
  let base := s!"{tag}_below_{place}"
  ((markerNames base aggs.tree.len).find? fun name => (aggs.tree.findByKey? name).isNone).getD base

def insertNode (aggs : Aggregations) (content : AggClause) (parent : Nat) (name : String) :
    Result (Nat × Aggregations) := do
  let (id, tree) ← aggs.tree.insert (.clause content) parent (some name)
  pure (id, { aggs with tree := tree })

def existingMarker? (aggs : Aggregations) (parent : Nat) (boundary : Boundary) : Option Nat :=
  aggs.tree.findChild? parent fun node _ => node.boundary? = some boundary

def openMarker? (aggs : Aggregations) (parent : Nat) (boundary : Boundary) :
    Result (Option (Nat × Aggregations)) := do
  let marker := AggClause.ofBoundary boundary
  some <$> aggs.insertNode marker parent (aggs.markerName marker.kind.tag parent)

instance : Crossable Aggregations Nat where
  scopeAt aggs id := aggs.tree.currentScope id
  existing? := existingMarker?
  opened? := openMarker?

def checkMarker (mapping : Mapping) (content : AggClause) : Result Unit :=
  match content.boundary?.bind Boundary.inside with
  | some path => do
      if !mapping.isNested path then
        throw (.invalidFieldType content.kind.tag path (← mapping.typeOf path).name)
  | none => pure ()

def settle (aggs : Aggregations) (parent : Nat) (content : AggClause) :
    Result (Nat × Aggregations) :=
  match aggs.mapping with
  | none => pure (parent, aggs)
  | some mapping => do
      checkMarker mapping content
      match content.field? with
      | some field => do
          let _ ← mapping.checkField content.kind.tag content.kind.rule field
          reconcile aggs parent field mapping aggs.autocorrect
      | none => pure (parent, aggs)

mutual

def insertShape (aggs : Aggregations) (parent : Nat) :
    Shape AggNode → Result (Nat × Aggregations)
  | .node label children => do
      match label.key with
      | none => throw (.malformed .aggregationUnnamed)
      | some name =>
          if (aggs.tree.findByKey? name).isSome then throw (.duplicateName name)
          match label.content with
          | .root => throw (.invalidParent (.labelled name) .aggregationRoot)
          | .clause content => do
              let (parent, aggs) ← aggs.settle parent content
              let (id, aggs) ← aggs.insertNode content parent name
              pure (id, ← insertShapes aggs id children)

def insertShapes (aggs : Aggregations) (parent : Nat) :
    List (Shape AggNode) → Result Aggregations
  | [] => pure aggs
  | shape :: rest => do
      let (_, aggs) ← insertShape aggs parent shape
      insertShapes aggs parent rest

end

end Aggregations

end ScopedClauses
