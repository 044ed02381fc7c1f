import ScopedClauses.Aggregation.Insertion
import ScopedClauses.Query.Insertion
import ScopedClauses.Response.Bucket

/-!
Responses read against the request that they answer. The tree of a response has a node for
each bucket and each value, in the order of the request and of the response.
-/

namespace ScopedClauses

namespace ResponseNode

def attributesOf (raw : Json) (below : List String) : Members :=
  (raw.object?.getD []).filter fun (key, value) =>
    key ≠ "key" && !value.isObject && !below.contains key

def unkeyed (name : String) (kind : AggKind) (raw : Json) : ResponseNode :=
  .bucket ⟨name, kind, none, kind.valueOf raw, []⟩

def leaf (node : ResponseNode) (children : List (Shape ResponseNode)) : Shape ResponseNode :=
  .node ⟨none, node⟩ children

mutual

def ofAggregation (raw : Json) : Branch AggNode → Result (List (Shape ResponseNode))
  | .node label children =>
      match label.key, label.content with
      | some name, .clause content =>
          match raw.get? name, content.kind.family with
          | none, _ => pure []
          | some inner, .bucket true => do
              let below := children.filterMap Rose.key
              (← content.buckets name inner).mapM fun (key, item) => do
                let bucket := Bucket.mk name content.kind (some key)
                  (content.kind.valueOf item) (attributesOf item below)
                pure (leaf (.bucket bucket) (← ofAggregations item children))
          | some inner, .bucket false => do
              pure [leaf (unkeyed name content.kind inner) (← ofAggregations inner children)]
          | some inner, _ =>
              if content.kind.valueMembers.isEmpty then pure []
              else pure [leaf (unkeyed name content.kind inner) []]
      | _, _ => pure []

def ofAggregations (raw : Json) : List (Branch AggNode) → Result (List (Shape ResponseNode))
  | [] => pure []
  | branch :: rest => do
      let first ← ofAggregation raw branch
      pure (first ++ (← ofAggregations raw rest))

end

end ResponseNode

structure Response where
  aggs : Aggregations
  tree : Tree ResponseNode
  /-- The query that the request was made with. -/
  base : Option Query := none

namespace Response

def body (aggs : Aggregations) (raw : Json) : Json :=
  match raw.get? "aggregations", aggs.tree.findByKey? "aggregations" with
  | some inner, none => inner
  | _, _ => raw

def ofJson (aggs : Aggregations) (raw : Json) : Result Response := do
  let raw := body aggs raw
  if !raw.isObject then throw (.malformed .responseNotObject)
  let request := match aggs.tree.root with
    | some root => root.children
    | none => []
  let nodes ← ResponseNode.ofAggregations raw request
  pure { aggs := aggs, tree := Tree.ofShape (.node ⟨none, .root⟩ nodes) }

def root (response : Response) : Result Nat :=
  match response.tree.rootId? with
  | some root => pure root
  | none => throw (.nodeNotFound (.name "response root"))

def bucket (response : Response) (id : Nat) : Result Bucket := do
  match (← response.tree.get id).bucket? with
  | some bucket => pure bucket
  | none => throw (.nodeNotFound (.id id))

def bucketsAt (response : Response) (level : String) : List Nat :=
  (response.tree.nodes.filter fun node => node.content.bucket?.any (·.level = level)).map Rose.id

mutual

def keyedAt? (level : String) (key : Json) : Branch ResponseNode → Option (Branch ResponseNode)
  | .node label children =>
      match label.content with
      | .root => none
      | .bucket bucket =>
          if bucket.level = level && bucket.key.any (·.agrees key) then
            some (.node label children)
          else if bucket.key.isNone && bucket.kind.isBucket then keyedAmong? level key children
          else none

def keyedAmong? (level : String) (key : Json) :
    List (Branch ResponseNode) → Option (Branch ResponseNode)
  | [] => none
  | branch :: rest =>
      match keyedAt? level key branch with
      | some found => some found
      | none => keyedAmong? level key rest

end

def descend? (branch : Branch ResponseNode) :
    List (String × Json) → Option (Branch ResponseNode)
  | [] => some branch
  | (level, key) :: rest => do descend? (← keyedAmong? level key branch.children) rest

def findBucket? (response : Response) (path : List (String × Json)) : Option Nat := do
  let root ← response.tree.root
  Rose.id <$> descend? root path

def nodeMembers : ResponseNode → Members
  | .root => [("level", .string "root"), ("key", .null), ("value", .null)]
  | .bucket bucket =>
      let shown : Members := [("level", .string bucket.level),
        ("key", Json.ofOption bucket.key), ("value", bucket.value)]
      match bucket.attributes.lookup "key_as_string" with
      | some text => shown ++ [("key_as_string", text)]
      | none => shown

mutual

def normalize : Branch ResponseNode → Json
  | .node label children =>
      .object (nodeMembers label.content ++ [("children", .array (normalizeAll children))])

def normalizeAll : List (Branch ResponseNode) → List Json
  | [] => []
  | branch :: rest => normalize branch :: normalizeAll rest

end

def toNormalized (response : Response) : Json :=
  match response.tree.root with
  | some root => normalize root
  | none => .null

def render (response : Response) : String := response.tree.render

end Response

end ScopedClauses
