import ScopedClauses.Aggregation.Kind
import ScopedClauses.Scope.Basic
import ScopedClauses.Tree.Render

/-!
Aggregation clauses as tree nodes. Aggregations that make buckets hold further aggregations;
the names are the keys of the nodes.
-/

namespace ScopedClauses

structure AggClause where
  kind : AggKind
  body : Members
  /-- Data carried along for the caller. -/
  annotation : Option Members := none

namespace AggClause

def stringAt (key : String) (clause : AggClause) : Option String :=
  (clause.body.lookup key).bind Json.string?

def ofBody (kind : AggKind) (body : Members) : Result AggClause :=
  if kind.tag = "nested" && ((body.lookup "path").bind Json.string?).isNone then
    throw (.malformed .aggregationPathMissing)
  else pure { kind := kind, body := body }

def enter (path : String) : AggClause :=
  { kind := AggKind.nested, body := [("path", .string path)] }

def leave (target : Option String) : AggClause :=
  { kind := AggKind.reverseNested
    body := target.toList.map fun path => ("path", .string path) }

def ofBoundary : Boundary → AggClause
  | .enter path => enter path
  | .exit target => leave target

def field? (clause : AggClause) : Option String :=
  if clause.kind.family = .pipeline then none else clause.stringAt "field"

def path? (clause : AggClause) : Option String := clause.stringAt "path"

def isKeyed (clause : AggClause) : Bool :=
  match (clause.body.lookup "keyed").bind Json.bool? with
  | some keyed => keyed
  | none =>
      match clause.kind.filter with
      | .filters => (clause.body.lookup "filters").any Json.isObject
      | _ => false

def otherKey? (clause : AggClause) : Option String :=
  match clause.stringAt "other_bucket_key" with
  | some key => some key
  | none =>
      if (clause.body.lookup "other_bucket").bind Json.bool? = some true then some "_other_"
      else none

def label (clause : AggClause) : String :=
  match clause.field?, clause.path? with
  | some field, _ => s!"{clause.kind.tag}, field={field}"
  | none, some path => s!"{clause.kind.tag}, path={path}"
  | none, none => clause.kind.tag

def boundary? (clause : AggClause) : Option Boundary :=
  if clause.kind.tag = "nested" then clause.path?.map .enter
  else if clause.kind.tag = "reverse_nested" then some (.exit clause.path?)
  else none

end AggClause

inductive AggNode where
  /-- The request, which holds the outermost aggregations. -/
  | root
  | clause (content : AggClause)

namespace AggNode

def clause? : AggNode → Option AggClause
  | .root => none
  | .clause content => some content

def isBucket (node : AggNode) : Bool := node.clause?.any (·.kind.isBucket)

def field? (node : AggNode) : Option String := node.clause?.bind AggClause.field?

def boundary? (node : AggNode) : Option Boundary := node.clause?.bind AggClause.boundary?

def label : AggNode → String
  | .root => "_"
  | .clause content => content.label

def checkChild : AggNode → AggNode → Nat → Result Unit
  | parent, .root, _ => throw (.invalidParent (.labelled parent.label) .aggregationRoot)
  | .root, .clause _, _ => pure ()
  | .clause parent, .clause child, _ =>
      if parent.kind.isBucket then pure ()
      else throw (.invalidParent (.nonBucket parent.kind.tag) (.quoted child.label))

instance : NodeRules AggNode where
  checkChild := checkChild
  label := label

instance : Scoped AggNode where
  boundary? := boundary?

def ensureHolds : AggNode → Party → Result Unit
  | .root, _ => pure ()
  | .clause content, what =>
      if content.kind.isBucket then pure ()
      else throw (.invalidParent (.nonBucket content.kind.tag) what)

end AggNode

end ScopedClauses
