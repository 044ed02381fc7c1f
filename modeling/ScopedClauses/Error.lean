import ScopedClauses.Json.Printer
import ScopedClauses.Text.Quoted

/-!
What can go wrong with clause trees, each cause with the values that its report shows. The
wording, the codes and the categories are decided here alone.
-/

namespace ScopedClauses

inductive Address where
  | id (value : Nat)
  | name (value : String)
deriving Repr, DecidableEq

def Address.text : Address → String
  | .id value => s!"#{value}"
  | .name value => value

inductive Party where
  | labelled (label : String)
  | quoted (label : String)
  | node (id : Nat)
  | attachedNode (id : Nat)
  | ownAncestor (id : Nat)
  | leafClause (label : String)
  | compoundClause (tag : String)
  | withoutSlot (label : String)
  | parameter (name : String)
  | anyClause
  | nonBucket (name : String)
  | furtherAggregations
  | groupingLevel
  | aggregationRoot
  | tabularRows
  | metric (name : String)
  | responseRoot
deriving Repr, DecidableEq

def Party.text : Party → String
  | .labelled label => label
  | .quoted label => s!"'{label}'"
  | .node id => s!"#{id}"
  | .attachedNode id => s!"attached node #{id}"
  | .ownAncestor id => s!"its own ancestor #{id}"
  | .leafClause label => s!"leaf clause '{label}'"
  | .compoundClause tag => s!"compound clause '{tag}'"
  | .withoutSlot label => s!"'{label}' without a parameter slot"
  | .parameter name => s!"parameter '{name}'"
  | .anyClause => "a clause"
  | .nonBucket name => s!"non-bucket aggregation '{name}'"
  | .furtherAggregations => "further aggregations"
  | .groupingLevel => "grouping level"
  | .aggregationRoot => "aggregation root"
  | .tabularRows => "tabular rows"
  | .metric name => s!"metric '{name}'"
  | .responseRoot => "response root"

inductive Ambiguity where
  | twoTargets (on here : Address)
  | branching (below : String) (buckets : Nat)
deriving Repr, DecidableEq

def Ambiguity.text : Ambiguity → String
  | .twoTargets on here => s!"both 'on' ({on.text}) and 'at' ({here.text}) targets given"
  | .branching below buckets =>
      s!"'{below}' has {buckets} bucket aggregations below it, name an explicit target"

inductive Malformation where
  | mappingNotObject
  | propertiesNotObject
  | fieldNotObject (path : String)
  | fieldTypeNotString (path : String) (found : Json)
  | fieldUntyped (path : String)
  | propertiesRefused (path type : String)
  | subfieldsNotObject (path : String)
  | subfieldNotObject (path name : String)
  | subfieldUntyped (path name : String)
  | mappingFileUnreadable (path : String)
  | mappingFileNotJson (path : String)
  | clauseNotObject (found : Json)
  | clauseBodyNotObject (tag : String) (found : Json)
  | clauseTypeCount (count : Nat)
  | fieldKeyCount (tag : String) (count : Nat)
  | fieldKeyNotSingle (tag : String)
  | fieldParameterMissing (tag : String)
  | clausePathMissing (tag : String)
  | parameterContent (tag parameter : String) (found : Json)
  | aggregationsNotObject (found : Json)
  | aggregationNotObject (name : String)
  | aggregationChildrenTwice (name : String)
  | aggregationMetaNotObject (name : String)
  | aggregationTypeTwice (name : String)
  | aggregationUntyped (name : String)
  | aggregationBodyNotObject (name tag : String)
  | aggregationPathMissing
  | aggregationUnnamed
  | aggregationTreeRoot
  | responseNotObject
  | bucketsMissing (name : String)
  | bucketsShape (name : String) (keyed list : Bool)

def Malformation.text : Malformation → String
  | .mappingNotObject => "mapping declaration must be an object"
  | .propertiesNotObject => "'properties' must be an object"
  | .fieldNotObject path => s!"declaration of field '{path}' must be an object"
  | .fieldTypeNotString path found =>
      s!"type of field '{path}' must be a string, got {found.compact}"
  | .fieldUntyped path => s!"field '{path}' declares neither a type nor properties"
  | .propertiesRefused path type =>
      s!"field '{path}' of type '{type}' cannot declare properties"
  | .subfieldsNotObject path => s!"'fields' of field '{path}' must be an object"
  | .subfieldNotObject path name => s!"subfield '{path}.{name}' must be an object"
  | .subfieldUntyped path name => s!"subfield '{path}.{name}' declares no type"
  | .mappingFileUnreadable path => s!"failed to read mappings file '{path}':"
  | .mappingFileNotJson path => s!"invalid JSON in mappings file '{path}':"
  | .clauseNotObject found => s!"query clause must be an object, got {found.compact}"
  | .clauseBodyNotObject tag found => s!"body of '{tag}' must be an object, got {found.compact}"
  | .clauseTypeCount count => s!"query clause must hold exactly one type key, got {count}"
  | .fieldKeyCount tag count => s!"'{tag}' clause must hold exactly one field key, got {count}"
  | .fieldKeyNotSingle tag => s!"'{tag}' clause must hold exactly one field key"
  | .fieldParameterMissing tag => s!"'{tag}' clause requires a string 'field' parameter"
  | .clausePathMissing tag => s!"'{tag}' clause requires a string 'path'"
  | .parameterContent tag parameter found =>
      s!"parameter '{parameter}' of '{tag}' cannot hold {found.compact}"
  | .aggregationsNotObject found => s!"aggregations must be an object, got {found.compact}"
  | .aggregationNotObject name => s!"aggregation '{name}' must be an object"
  | .aggregationChildrenTwice name =>
      s!"aggregation '{name}' declares both 'aggs' and 'aggregations'"
  | .aggregationMetaNotObject name => s!"meta of '{name}' must be an object"
  | .aggregationTypeTwice name => s!"aggregation '{name}' must declare exactly one type"
  | .aggregationUntyped name => s!"aggregation '{name}' declares no type"
  | .aggregationBodyNotObject name tag =>
      s!"body of '{tag}' aggregation '{name}' must be an object"
  | .aggregationPathMissing => "'nested' aggregation requires a string 'path'"
  | .aggregationUnnamed => "aggregation clause without a name"
  | .aggregationTreeRoot => "aggregation tree input must be rooted at the request level"
  | .responseNotObject => "aggregation response must be an object"
  | .bucketsMissing name => s!"response of '{name}' holds no 'buckets'"
  | .bucketsShape name keyed list =>
      let declared := if keyed then "keyed" else "not keyed"
      let found := if list then "a list" else "not a list"
      s!"'{name}' is declared {declared}, response buckets are {found}"

inductive ConfigFault where
  | unreadable (path : String)
  | notJson
  | blankValueColumn
  | emptyMappingsPath
deriving Repr, DecidableEq

def ConfigFault.text : ConfigFault → String
  | .unreadable path => s!"Failed to read {path}:"
  | .notJson => "Invalid config JSON:"
  | .blankValueColumn => "tabular.value_column must not be empty"
  | .emptyMappingsPath => "mappings_path must not be empty"

inductive Error where
  | unknownField (path : String)
  | invalidFieldType (clause field type : String)
  | nodeNotFound (address : Address)
  | invalidParent (parent child : Party)
  | parameterUnderParameter (name : String)
  | unknownParameter (clause parameter : String)
  | slotOccupied (name : String)
  | duplicateName (name : String)
  | ambiguousInsertion (reason : Ambiguity)
  | rootOccupied
  | unsupportedBucketFilter (aggregation tag : String)
  | invalidNesting (field : String) (current required : Option String)
  | mergeMismatch (existing incoming : String)
  | unsupportedMergeMode (name : String)
  | malformed (reason : Malformation)
  | unknownClauseType (tag : String)
  | unknownFieldType (name : String)
  | invalidConfig (reason : ConfigFault)

namespace Error

inductive Category where
  | schema
  | structural
  | nesting
  | merge
  | deserialization
  | config
deriving Repr, DecidableEq

def Category.text : Category → String
  | .schema => "SCHEMA"
  | .structural => "STRUCTURAL"
  | .nesting => "NESTING"
  | .merge => "MERGE"
  | .deserialization => "DESERIALIZATION"
  | .config => "CONFIG"

def category : Error → Category
  | .unknownField _ | .invalidFieldType .. => .schema
  | .nodeNotFound _ | .invalidParent .. | .parameterUnderParameter _ | .unknownParameter ..
  | .slotOccupied _ | .duplicateName _ | .ambiguousInsertion _ | .rootOccupied
  | .unsupportedBucketFilter .. => .structural
  | .invalidNesting .. => .nesting
  | .mergeMismatch .. | .unsupportedMergeMode _ => .merge
  | .malformed _ | .unknownClauseType _ | .unknownFieldType _ => .deserialization
  | .invalidConfig _ => .config

def detail : Error → String
  | .unknownField _ => "UNKNOWN_FIELD"
  | .invalidFieldType .. => "INVALID_FIELD_TYPE"
  | .nodeNotFound _ => "NODE_NOT_FOUND"
  | .invalidParent .. => "INVALID_PARENT"
  | .parameterUnderParameter _ => "PARAMETER_UNDER_PARAMETER"
  | .unknownParameter .. => "UNKNOWN_PARAMETER"
  | .slotOccupied _ => "SLOT_OCCUPIED"
  | .duplicateName _ => "DUPLICATE_NAME"
  | .ambiguousInsertion _ => "AMBIGUOUS_INSERTION"
  | .rootOccupied => "ROOT_OCCUPIED"
  | .unsupportedBucketFilter .. => "UNSUPPORTED_BUCKET_FILTER"
  | .invalidNesting .. => "INVALID_SCOPE"
  | .mergeMismatch .. => "KIND_MISMATCH"
  | .unsupportedMergeMode _ => "UNSUPPORTED_MODE"
  | .malformed _ => "MALFORMED"
  | .unknownClauseType _ => "UNKNOWN_CLAUSE_TYPE"
  | .unknownFieldType _ => "UNKNOWN_FIELD_TYPE"
  | .invalidConfig _ => "INVALID"

def code (error : Error) : String := error.category.text ++ "_" ++ error.detail

def message : Error → String
  | .unknownField path => s!"Unknown field '{path}'"
  | .invalidFieldType clause field type =>
      s!"Clause '{clause}' is not applicable on field '{field}' of type '{type}'"
  | .nodeNotFound address => s!"Node '{address.text}' not found"
  | .invalidParent parent child => s!"Cannot insert {child.text} below {parent.text}"
  | .parameterUnderParameter name =>
      s!"Parameter '{name}' cannot be placed under another parameter"
  | .unknownParameter clause parameter =>
      s!"Unknown parameter '{parameter}' for '{clause}' clause"
  | .slotOccupied name => s!"Parameter '{name}' accepts a single clause and is already occupied"
  | .duplicateName name => s!"Aggregation name '{name}' is already used"
  | .ambiguousInsertion reason => s!"Ambiguous insertion: {reason.text}"
  | .rootOccupied => "Tree already has a root"
  | .unsupportedBucketFilter aggregation tag =>
      s!"Cannot derive a filter from '{aggregation}' buckets of type '{tag}'"
  | .invalidNesting field current required =>
      let wanted := Text.quotedOption required
      let found := Text.quotedOption current
      s!"Field '{field}' requires nested scope {wanted}, insertion point is in scope {found}"
  | .mergeMismatch existing incoming =>
      s!"Cannot merge '{incoming}' clause onto '{existing}' clause"
  | .unsupportedMergeMode name => s!"Unsupported merge mode '{name}'"
  | .malformed reason => s!"Malformed input: {reason.text}"
  | .unknownClauseType tag => s!"Unknown clause type '{tag}'"
  | .unknownFieldType name => s!"Unknown field type '{name}'"
  | .invalidConfig reason => s!"Invalid configuration: {reason.text}"

end Error

abbrev Result := Except Error

end ScopedClauses
