import ScopedClauses.Mapping.FieldType
import ScopedClauses.Text.Piece
import ScopedClauses.Tree.Render

/-!
Field mappings: a tree of declared fields, looked up by dotted path. Nested fields open a
scope, object fields do not, and the subfields of a field share its scope.
-/

namespace ScopedClauses

structure Subfield where
  name : String
  type : FieldType
  parameters : Members

structure Field where
  name : String
  /-- The names from the document root down to the field, joined by dots. -/
  path : String
  type : FieldType
  subfields : List Subfield
  /-- The other attributes of the declaration. -/
  parameters : Members

namespace Field

def subfield? (field : Field) (name : String) : Option Subfield :=
  field.subfields.find? (·.name = name)

def isNested (field : Field) : Bool := field.type = .nested

end Field

inductive MappingNode where
  /-- The document, with the attributes declared for it. -/
  | root (parameters : Members)
  | field (declared : Field)

namespace MappingNode

def field? : MappingNode → Option Field
  | .root _ => none
  | .field declared => some declared

def label : MappingNode → String
  | .root _ => "_root"
  | .field declared =>
      declared.subfields.foldl (fun text subfield => text ++ "  +" ++ subfield.name)
        (declared.name ++ "  " ++ declared.type.name)

def accepts : MappingNode → MappingNode → Bool
  | _, .root _ => false
  | .root _, .field _ => true
  | .field parent, .field _ => parent.type.isContainer

instance : NodeRules MappingNode where
  checkChild parent child _ :=
    if parent.accepts child then pure ()
    else throw (.invalidParent (.labelled parent.label) (.labelled child.label))
  label := label

end MappingNode

structure Mapping where
  tree : Tree MappingNode

namespace Mapping

def declared (mapping : Mapping) : List (Nat × Field) :=
  mapping.tree.nodes.filterMap fun node => node.content.field?.map fun field => (node.id, field)

def lookup? (mapping : Mapping) (path : String) : Option (Nat × Field) :=
  mapping.declared.reverse.find? (·.2.path = path)

def paths (mapping : Mapping) : List String :=
  ((mapping.declared.map (·.2.path)).eraseDups).mergeSort

def field (mapping : Mapping) (path : String) : Result Field :=
  match mapping.lookup? path with
  | some (_, field) => pure field
  | none => throw (.unknownField path)

def subfieldOwner? (mapping : Mapping) (path : String) : Option (Nat × FieldType) := do
  let (owner, name) ← Text.splitLast? '.' path
  let (id, field) ← mapping.lookup? owner
  let subfield ← field.subfield? name
  pure (id, subfield.type)

def resolve (mapping : Mapping) (path : String) : Result (Nat × FieldType) :=
  match mapping.lookup? path with
  | some (id, field) => pure (id, field.type)
  | none =>
      match mapping.subfieldOwner? path with
      | some owner => pure owner
      | none => throw (.unknownField path)

def contains (mapping : Mapping) (path : String) : Bool := (mapping.resolve path).isOk

def typeOf (mapping : Mapping) (path : String) : Result FieldType :=
  (·.2) <$> mapping.resolve path

def openedScope? (node : Branch MappingNode) : Option String := do
  let field ← node.content.field?
  if field.isNested then some field.path else none

def nestedScopes (mapping : Mapping) (path : String) : Result (List String) := do
  let (id, _) ← mapping.resolve path
  pure ((mapping.tree.ancestry id).filterMap openedScope?)

def nestedAt (mapping : Mapping) (path : String) : Result (Option String) :=
  List.head? <$> mapping.nestedScopes path

def isNested (mapping : Mapping) (path : String) : Bool :=
  match mapping.lookup? path with
  | some (_, field) => field.isNested
  | none => false

def checkField (mapping : Mapping) (clause : String) (rule : TypeRule) (path : String) :
    Result FieldType := do
  let type ← mapping.typeOf path
  if rule.accepts type then pure type
  else throw (.invalidFieldType clause path type.name)

def render (mapping : Mapping) : String := mapping.tree.render

end Mapping

end ScopedClauses
