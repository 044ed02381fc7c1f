import ScopedClauses.Mapping.FieldType

/-!
The kinds of query clause. A leaf kind says where a clause keeps its field; a compound kind
says which parameters hold the clauses below it.
-/

namespace ScopedClauses

inductive LeafForm where
  /-- The field is the only key of the body. -/
  | keyed
  /-- The field is the value of the key `field`. -/
  | parameter
  /-- The field is the only key of the body that is not listed. -/
  | keyedBeside (parameters : List String)
  /-- The clause is not on a single field. -/
  | fieldless
deriving Repr, DecidableEq

structure LeafKind where
  tag : String
  form : LeafForm
  rule : TypeRule
deriving Repr, DecidableEq

structure Slot where
  name : String
  multiple : Bool
deriving Repr, DecidableEq

structure CompoundKind where
  tag : String
  slots : List Slot
  /-- The slot that an insertion without a parameter goes to. -/
  preferred : String
  /-- Whether the clause enters the nested scope of its path. -/
  entersScope : Bool := false
deriving Repr, DecidableEq

def CompoundKind.slot? (kind : CompoundKind) (name : String) : Option Slot :=
  kind.slots.find? (·.name = name)

inductive QueryKind where
  | leaf (kind : LeafKind)
  | compound (kind : CompoundKind)
deriving Repr, DecidableEq

namespace QueryKind

def tag : QueryKind → String
  | .leaf kind => kind.tag
  | .compound kind => kind.tag

def boolean : CompoundKind where
  tag := "bool"
  slots := [⟨"must", true⟩, ⟨"should", true⟩, ⟨"must_not", true⟩, ⟨"filter", true⟩]
  preferred := "must"

def nested : CompoundKind where
  tag := "nested"
  slots := [⟨"query", false⟩]
  preferred := "query"
  entersScope := true

def scalar : TypeRule := .except FieldType.containers

def onStrings : TypeRule := .only FieldType.strings

def onGeo : TypeRule := .only FieldType.geo

def geoParameters : List String :=
  ["validation_method", "type", "ignore_unmapped", "boost", "_name"]

def keyedLeaves : List LeafKind :=
  (["term", "match", "fuzzy", "terms_set", "range"].map fun tag => ⟨tag, .keyed, scalar⟩) ++
  (["match_phrase", "match_phrase_prefix", "match_bool_prefix", "prefix", "wildcard",
    "regexp", "intervals", "span_term"].map fun tag => ⟨tag, .keyed, onStrings⟩)

def parameterLeaves : List LeafKind :=
  [⟨"exists", .parameter, .any⟩,
    ⟨"distance_feature", .parameter, .only [.date, .dateNanos, .geoPoint]⟩,
    ⟨"rank_feature", .parameter, .only [.rankFeature, .rankFeatures]⟩]

def besideLeaves : List LeafKind :=
  [⟨"terms", .keyedBeside ["boost", "_name"], scalar⟩,
    ⟨"geo_distance",
      .keyedBeside
        ["distance", "distance_type", "validation_method", "ignore_unmapped", "boost", "_name"],
      onGeo⟩,
    ⟨"geo_bounding_box", .keyedBeside geoParameters, onGeo⟩,
    ⟨"geo_polygon", .keyedBeside geoParameters, onGeo⟩,
    ⟨"geo_shape", .keyedBeside geoParameters, onGeo⟩]

def fieldlessLeaves : List LeafKind :=
  ["match_all", "match_none", "ids", "query_string", "simple_query_string", "multi_match",
    "combined_fields", "more_like_this", "script", "wrapper", "percolate", "parent_id"].map
    fun tag => ⟨tag, .fieldless, .any⟩

def compounds : List CompoundKind :=
  [boolean,
    ⟨"boosting", [⟨"positive", false⟩, ⟨"negative", false⟩], "positive", false⟩,
    ⟨"constant_score", [⟨"filter", false⟩], "filter", false⟩,
    ⟨"dis_max", [⟨"queries", true⟩], "queries", false⟩,
    ⟨"function_score", [⟨"query", false⟩], "query", false⟩,
    ⟨"has_child", [⟨"query", false⟩], "query", false⟩,
    ⟨"has_parent", [⟨"query", false⟩], "query", false⟩,
    ⟨"script_score", [⟨"query", false⟩], "query", false⟩,
    nested]

def all : List QueryKind :=
  (keyedLeaves ++ parameterLeaves ++ besideLeaves ++ fieldlessLeaves).map .leaf ++
    compounds.map .compound

def ofTag (tag : String) : Result QueryKind :=
  match all.find? (·.tag = tag) with
  | some kind => pure kind
  | none => throw (.unknownClauseType tag)

def leafOfTag (tag : String) : Result LeafKind := do
  match ← ofTag tag with
  | .leaf kind => pure kind
  | .compound _ => throw (.unknownClauseType tag)

def compoundOfTag (tag : String) : Result CompoundKind := do
  match ← ofTag tag with
  | .compound kind => pure kind
  | .leaf _ => throw (.unknownClauseType tag)

end QueryKind

end ScopedClauses
