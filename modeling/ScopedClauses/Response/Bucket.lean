import ScopedClauses.Aggregation.Clause

/-!
Buckets, and what a response says of one aggregation: its value and its buckets by key.
-/

namespace ScopedClauses

structure Bucket where
  /-- The name of the aggregation that made it. -/
  level : String
  kind : AggKind
  /-- None for single buckets and metrics. -/
  key : Option Json
  value : Json
  /-- What the response says of the bucket beside its key and the aggregations below it. -/
  attributes : Members

inductive ResponseNode where
  | root
  | bucket (content : Bucket)

namespace ResponseNode

def bucket? : ResponseNode → Option Bucket
  | .root => none
  | .bucket content => some content

def label : ResponseNode → String
  | .root => "root"
  | .bucket content =>
      match content.key with
      | some key => s!"{content.level}={key.compact} [{content.value.compact}]"
      | none => s!"{content.level} [{content.value.compact}]"

def checkChild : ResponseNode → ResponseNode → Nat → Result Unit
  | parent, .root, _ => throw (.invalidParent (.labelled parent.label) .responseRoot)
  | .root, .bucket _, _ => pure ()
  | .bucket parent, .bucket child, _ =>
      if parent.kind.isBucket then pure ()
      else throw (.invalidParent (.metric parent.level) (.labelled (label (.bucket child))))

instance : NodeRules ResponseNode where
  checkChild := checkChild
  label := label

end ResponseNode

namespace AggKind

def valueOf (kind : AggKind) (raw : Json) : Json :=
  match kind.valueMembers with
  | [] => .null
  | [only] => Json.ofOption (raw.get? only)
  | many => .object (many.filterMap fun name => (raw.get? name).map fun value => (name, value))

end AggKind

namespace AggClause

def listedKey (clause : AggClause) (index : Nat) (raw : Json) : Json :=
  match clause.kind.filter, raw.get? "key" with
  | _, some key => key
  | .filters, none => .ofNat index
  | _, none => .null

def otherLast (clause : AggClause) (members : Members) : Members :=
  match clause.kind.filter, clause.otherKey? with
  | .filters, some other =>
      members.filter (·.1 ≠ other) ++ members.filter (·.1 = other)
  | _, _ => members

def buckets (name : String) (clause : AggClause) (raw : Json) : Result (List (Json × Json)) :=
  match raw.get? "buckets", clause.isKeyed with
  | none, _ => throw (.malformed (.bucketsMissing name))
  | some (.array items), false =>
      pure (items.zipIdx.map fun (item, index) => (clause.listedKey index item, item))
  | some (.object members), true =>
      pure ((clause.otherLast members).map fun (key, item) => (.string key, item))
  | some other, keyed =>
      throw (.malformed (.bucketsShape name keyed other.array?.isSome))

end AggClause

end ScopedClauses
