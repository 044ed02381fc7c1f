import ScopedClauses.Response.Basic
import ScopedClauses.Response.Condition

/-!
The query that selects the documents of a bucket. The buckets around it give conditions, each
in the scope that its aggregation runs in. The conditions of a scope hold together inside one
`nested` clause, which stands in the scope around it.
-/

namespace ScopedClauses

structure Fragment where
  scope : Option String
  condition : Json

namespace Selection

def conjunction : List Json → Option Json
  | [] => none
  | [condition] => some condition
  | conditions => some (Shorthand.boolean [("filter", conditions)])

def longestOuter (scope : String) (known : List String) : Option String :=
  (known.filter (isWithin scope)).foldl (fun longest outer =>
    match longest with
    | some best => if best.utf8ByteSize ≤ outer.utf8ByteSize then some outer else some best
    | none => some outer) none

def parentScope (scope : String) (known : List String) (mapping : Option Mapping) :
    Option String :=
  match mapping with
  | some mapping =>
      match mapping.nestedScopes scope with
      | .ok scopes => scopes[1]?
      | .error _ => longestOuter scope known
  | none => longestOuter scope known

def addNew (scopes : List String) (scope : String) : List String :=
  if scopes.contains scope then scopes else scopes ++ [scope]

def withOuter (mapping : Mapping) : Nat → Nat → List String → List String
  | 0, _, scopes => scopes
  | steps + 1, place, scopes =>
      match scopes[place]? with
      | none => scopes
      | some scope =>
          let grown := match parentScope scope scopes (some mapping) with
            | some parent => addNew scopes parent
            | none => scopes
          withOuter mapping steps (place + 1) grown

/-- The scopes of the fragments and the scopes around those, in order of appearance. Only
declared scopes are added, which bounds the count of steps. -/
def scopesInPlay (fragments : List Fragment) (mapping : Option Mapping) : List String :=
  let scopes := (fragments.filterMap Fragment.scope).foldl addNew []
  match mapping with
  | some mapping => withOuter mapping (scopes.length + mapping.declared.length) 0 scopes
  | none => scopes

/-- What holds in a scope: its conditions, then the scopes directly inside it. Scopes get
longer on the way in, which bounds the depth. -/
def assembleScope (fragments : List Fragment) (scopes : List String)
    (mapping : Option Mapping) : Nat → Option String → Option Json
  | 0, _ => none
  | depth + 1, scope =>
      let own := (fragments.filter (·.scope = scope)).map Fragment.condition
      let inner := (scopes.filter fun path => parentScope path scopes mapping = scope).filterMap
        fun path => (assembleScope fragments scopes mapping depth (some path)).map
          (Shorthand.nested path)
      conjunction (own ++ inner)

def assemble (fragments : List Fragment) (mapping : Option Mapping) : Option Json :=
  let scopes := scopesInPlay fragments mapping
  assembleScope fragments scopes mapping (scopes.length + 1) none

end Selection

namespace Response

def fragmentsOf (aggs : Aggregations) (bucket : Bucket) : Result (List Fragment) := do
  let id ← aggs.idOf bucket.level
  let clause ← aggs.clause bucket.level
  match Condition.ofBucket? clause bucket with
  | some conditions => pure (conditions.map (Fragment.mk (aggs.tree.currentScope id)))
  | none => throw (.unsupportedBucketFilter bucket.level clause.kind.tag)

def collectFragments (aggs : Aggregations) : List Bucket → Result (List Fragment)
  | [] => pure []
  | bucket :: outer => do
      let clause ← aggs.clause bucket.level
      if clause.kind.filter = .global then pure []
      else do
        let own ← fragmentsOf aggs bucket
        pure ((← collectFragments aggs outer) ++ own)

def selection (response : Response) (id : Nat) : Result Query := do
  let buckets := (response.tree.ancestry id).filterMap fun node => node.content.bucket?
  let fragments ← collectFragments response.aggs buckets
  let mapping := response.aggs.mapping
  Query.ofJson ((Selection.assemble fragments mapping).getD Shorthand.matchAll) mapping

def bucketFilter (response : Response) (id : Nat) : Result Query := do
  let selection ← response.selection id
  match response.base with
  | some base =>
      if base.isEmpty then pure selection
      else base.filter (.tree selection.tree.shape?)
  | none => pure selection

end Response

end ScopedClauses
