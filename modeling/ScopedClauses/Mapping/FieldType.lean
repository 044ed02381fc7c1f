import ScopedClauses.Error

/-!
The types that fields are declared with, and the rules by which clauses select among them.
-/

namespace ScopedClauses

inductive FieldType where
  | text | keyword | constantKeyword | wildcard | searchAsYouType
  | long | integer | short | byte | double | float | halfFloat | scaledFloat | unsignedLong
  | date | dateNanos | boolean | binary | ip | geoPoint | geoShape | completion | tokenCount
  | flattened | percolator | join | alias
  | integerRange | floatRange | longRange | doubleRange | dateRange | ipRange
  | denseVector | rankFeature | rankFeatures
  | object | nested
deriving Repr, DecidableEq

namespace FieldType

def all : List FieldType :=
  [.text, .keyword, .constantKeyword, .wildcard, .searchAsYouType, .long, .integer, .short,
    .byte, .double, .float, .halfFloat, .scaledFloat, .unsignedLong, .date, .dateNanos,
    .boolean, .binary, .ip, .geoPoint, .geoShape, .completion, .tokenCount, .flattened,
    .percolator, .join, .alias, .integerRange, .floatRange, .longRange, .doubleRange,
    .dateRange, .ipRange, .denseVector, .rankFeature, .rankFeatures, .object, .nested]

def name : FieldType → String
  | .text => "text"
  | .keyword => "keyword"
  | .constantKeyword => "constant_keyword"
  | .wildcard => "wildcard"
  | .searchAsYouType => "search_as_you_type"
  | .long => "long"
  | .integer => "integer"
  | .short => "short"
  | .byte => "byte"
  | .double => "double"
  | .float => "float"
  | .halfFloat => "half_float"
  | .scaledFloat => "scaled_float"
  | .unsignedLong => "unsigned_long"
  | .date => "date"
  | .dateNanos => "date_nanos"
  | .boolean => "boolean"
  | .binary => "binary"
  | .ip => "ip"
  | .geoPoint => "geo_point"
  | .geoShape => "geo_shape"
  | .completion => "completion"
  | .tokenCount => "token_count"
  | .flattened => "flattened"
  | .percolator => "percolator"
  | .join => "join"
  | .alias => "alias"
  | .integerRange => "integer_range"
  | .floatRange => "float_range"
  | .longRange => "long_range"
  | .doubleRange => "double_range"
  | .dateRange => "date_range"
  | .ipRange => "ip_range"
  | .denseVector => "dense_vector"
  | .rankFeature => "rank_feature"
  | .rankFeatures => "rank_features"
  | .object => "object"
  | .nested => "nested"

def ofName (name : String) : Result FieldType :=
  match all.find? (·.name = name) with
  | some type => pure type
  | none => throw (.unknownFieldType name)

def isContainer : FieldType → Bool
  | .object | .nested => true
  | _ => false

def numeric : List FieldType :=
  [.long, .integer, .short, .byte, .double, .float, .halfFloat, .scaledFloat, .unsignedLong]

def dates : List FieldType := [.date, .dateNanos]

def numericOrDate : List FieldType := numeric ++ dates

def geo : List FieldType := [.geoPoint, .geoShape]

def strings : List FieldType := [.text, .keyword, .constantKeyword, .wildcard, .searchAsYouType]

def containers : List FieldType := [.object, .nested]

def notTerms : List FieldType := [.text, .object, .nested, .binary, .geoShape]

end FieldType

inductive TypeRule where
  | any
  | only (allowed : List FieldType)
  | except (denied : List FieldType)
deriving Repr, DecidableEq

def TypeRule.accepts : TypeRule → FieldType → Bool
  | .any, _ => true
  | .only allowed, type => allowed.contains type
  | .except denied, type => !denied.contains type

end ScopedClauses
