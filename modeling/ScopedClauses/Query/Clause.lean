import ScopedClauses.Query.Kind
import ScopedClauses.Scope.Basic
import ScopedClauses.Tree.Render

/-!
Query clauses as tree nodes. A compound clause holds slots, and a slot holds clauses; a leaf
holds nothing.
-/

namespace ScopedClauses

structure LeafClause where
  kind : LeafKind
  /-- The field that the body names, where the kind has one. -/
  field : Option String
  body : Members

namespace LeafClause

def readField (kind : LeafKind) (body : Members) : Result (Option String) :=
  match kind.form with
  | .keyed =>
      match body with
      | [(field, _)] => pure (some field)
      | _ => throw (.malformed (.fieldKeyCount kind.tag body.length))
  | .parameter =>
      match body.lookup "field" with
      | some (.string field) => pure (some field)
      | _ => throw (.malformed (.fieldParameterMissing kind.tag))
  | .keyedBeside parameters =>
      match body.filter fun (key, _) => !parameters.contains key with
      | [(field, _)] => pure (some field)
      | _ => throw (.malformed (.fieldKeyNotSingle kind.tag))
  | .fieldless => pure none

def ofBody (kind : LeafKind) (body : Members) : Result LeafClause := do
  pure ⟨kind, ← readField kind body, body⟩

end LeafClause

structure CompoundClause where
  kind : CompoundKind
  /-- The attributes beside the slots. -/
  body : Members

namespace CompoundClause

def ofBody (kind : CompoundKind) (body : Members) : Result CompoundClause :=
  if kind.entersScope && ((body.lookup "path").bind Json.string?).isNone then
    throw (.malformed (.clausePathMissing kind.tag))
  else pure ⟨kind, body⟩

def path? (clause : CompoundClause) : Option String :=
  if clause.kind.entersScope then (clause.body.lookup "path").bind Json.string? else none

end CompoundClause

inductive QueryNode where
  | leaf (clause : LeafClause)
  | compound (clause : CompoundClause)
  | slot (place : Slot)

namespace QueryNode

def emptyBool : QueryNode := .compound ⟨QueryKind.boolean, []⟩

def enter (path : String) : QueryNode :=
  .compound ⟨QueryKind.nested, [("path", .string path)]⟩

def tag : QueryNode → String
  | .leaf clause => clause.kind.tag
  | .compound clause => clause.kind.tag
  | .slot place => place.name

def field? : QueryNode → Option String
  | .leaf clause => clause.field
  | _ => none

def stringAt (key : String) (members : Members) : Option String :=
  (members.lookup key).bind Json.string?

def name? : QueryNode → Option String
  | .leaf clause =>
      match stringAt "_name" clause.body with
      | some name => some name
      | none => do
          let inner ← clause.body.lookup (← clause.field)
          (← inner.get? "_name").string?
  | .compound clause => stringAt "_name" clause.body
  | .slot _ => none

def slot? : QueryNode → Option Slot
  | .slot place => some place
  | _ => none

def isBool : QueryNode → Bool
  | .compound clause => clause.kind.tag = "bool"
  | _ => false

def isSlot (node : QueryNode) : Bool := node.slot?.isSome

def nestedPath? : QueryNode → Option String
  | .compound clause => clause.path?
  | _ => none

def label : QueryNode → String
  | .leaf clause =>
      match clause.field with
      | some field => s!"{clause.kind.tag}, field={field}"
      | none => clause.kind.tag
  | .compound clause =>
      match clause.path? with
      | some path => s!"{clause.kind.tag}, path={path}"
      | none => clause.kind.tag
  | .slot place => place.name

def checkChild : QueryNode → QueryNode → Nat → Result Unit
  | .leaf clause, child, _ =>
      throw (.invalidParent (.leafClause (label (.leaf clause))) (.quoted child.label))
  | .slot _, .slot inner, _ => throw (.parameterUnderParameter inner.name)
  | .slot place, _, siblings =>
      if !place.multiple && siblings > 0 then throw (.slotOccupied place.name) else pure ()
  | .compound clause, .slot place, _ =>
      if (clause.kind.slot? place.name).isSome then pure ()
      else throw (.unknownParameter clause.kind.tag place.name)
  | .compound clause, child, _ =>
      throw (.invalidParent (.compoundClause clause.kind.tag) (.withoutSlot child.label))

instance : NodeRules QueryNode where
  checkChild := checkChild
  label := label

instance : Scoped QueryNode where
  boundary? node := node.nestedPath?.map .enter

end QueryNode

end ScopedClauses
