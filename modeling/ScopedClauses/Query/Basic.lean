import ScopedClauses.Mapping.Basic
import ScopedClauses.Query.Document
import ScopedClauses.Scope.Reconcile

/-!
Query trees and the placing of single clauses in them. Clauses that meet in a place for one
clause, or at the top, are joined below the `must` of a `bool`.
-/

namespace ScopedClauses

inductive MergeMode where
  /-- Adds clauses to those that are there. -/
  | add
  /-- Empties each slot that the new clause names. -/
  | replace
  /-- Drops every slot and attribute first. -/
  | replaceAll
deriving Repr, DecidableEq

namespace MergeMode

def name : MergeMode → String
  | .add => "add"
  | .replace => "replace"
  | .replaceAll => "replace_all"

def ofName? (name : String) : Option MergeMode :=
  [add, replace, replaceAll].find? (·.name = name)

def ofName (name : String) : Result MergeMode :=
  match ofName? name with
  | some mode => pure mode
  | none => throw (.unsupportedMergeMode name)

end MergeMode

inductive Position where
  | top
  | slot (compound : Nat) (name : String)
deriving Repr, DecidableEq

structure Query where
  tree : Tree QueryNode := {}
  mapping : Option Mapping := none
  /-- Whether missing `nested` clauses are added. -/
  autocorrect : Bool := true
  /-- The mode of a merge that names none. -/
  mergeMode : MergeMode := .add

namespace Query

def isEmpty (query : Query) : Bool := query.tree.isEmpty

def toJson? (query : Query) : Option Json := QueryNode.documentOf query.tree

def render (query : Query) : String := query.tree.render

def find (query : Query) : Address → Result Nat
  | .id id => if query.tree.contains id then pure id else throw (.nodeNotFound (.id id))
  | .name name =>
      match query.tree.nodes.find? fun node => node.key = some name && !node.content.isSlot with
      | some node => pure node.id
      | none => throw (.nodeNotFound (.name name))

def scopeAt (query : Query) (address : Address) : Result (Option String) := do
  pure (query.tree.currentScope (← query.find address))

def isBool (query : Query) (id : Nat) : Bool :=
  match query.tree.get? id with
  | some node => node.isBool
  | none => false

def findSlot? (query : Query) (compound : Nat) (name : String) : Option Nat :=
  query.tree.findChild? compound fun node _ => node.slot?.any (·.name = name)

def ensureSlot (query : Query) (compound : Nat) (name : String) : Result (Nat × Query) :=
  match query.findSlot? compound name with
  | some slot => pure (slot, query)
  | none => do
      match ← query.tree.get compound with
      | .compound clause =>
          match clause.kind.slot? name with
          | some place =>
              let (slot, tree) ← query.tree.insert (.slot place) compound (some place.name)
              pure (slot, { query with tree := tree })
          | none => throw (.unknownParameter clause.kind.tag name)
      | other => throw (.invalidParent (.quoted other.label) (.parameter name))

def wrapInBool (query : Query) (occupant : Nat) : Result (Nat × Nat × Query) := do
  let parent := query.tree.parent? occupant
  let tree ← query.tree.detach occupant
  let (outer, tree) ← match parent with
    | some slot => tree.insert QueryNode.emptyBool slot none
    | none => tree.insertRoot QueryNode.emptyBool none
  let (must, query) ← { query with tree := tree }.ensureSlot outer "must"
  let tree ← query.tree.attach occupant must
  pure (outer, must, { query with tree := tree })

def occupant? (query : Query) (slot : Nat) : Option Nat := do
  let place ← (← query.tree.get? slot).slot?
  if place.multiple then none else (query.tree.children slot).head?

def effective (query : Query) : Position → Position
  | .top =>
      match query.tree.rootId? with
      | some root => if query.isBool root then .slot root "must" else .top
      | none => .top
  | .slot compound name =>
      match (query.findSlot? compound name).bind query.occupant? with
      | some occupant =>
          if query.isBool occupant then .slot occupant "must" else .slot compound name
      | none => .slot compound name

def clausesAt (query : Query) (position : Position) : List Nat :=
  match query.effective position with
  | .top => query.tree.rootId?.toList
  | .slot compound name =>
      match query.findSlot? compound name with
      | some slot => query.tree.children slot
      | none => []

def insertNode (query : Query) (node : QueryNode) (key : Option String) (slot : Nat) :
    Result (Nat × Query) := do
  let (id, tree) ← query.tree.insert node slot key
  pure (id, { query with tree := tree })

def joinWith (query : Query) (node : QueryNode) (key : Option String) (occupant : Nat) :
    Result (Nat × Query) := do
  let (_, must, query) ← query.wrapInBool occupant
  query.insertNode node key must

def place (query : Query) (position : Position) (node : QueryNode) (key : Option String) :
    Result (Nat × Query) :=
  match query.effective position with
  | .top =>
      match query.tree.rootId? with
      | none => do
          let (id, tree) ← query.tree.insertRoot node key
          pure (id, { query with tree := tree })
      | some root => query.joinWith node key root
  | .slot compound name => do
      let (slot, query) ← query.ensureSlot compound name
      match query.occupant? slot with
      | none => query.insertNode node key slot
      | some occupant => query.joinWith node key occupant

def positionScope (query : Query) : Position → Option String
  | .top => none
  | .slot compound _ => query.tree.currentScope compound

def existingNested? (query : Query) (position : Position) : Boundary → Option Position
  | .enter path =>
      ((query.clausesAt position).find? fun id =>
        (query.tree.get? id).bind QueryNode.nestedPath? = some path).map (.slot · "query")
  | .exit _ => none

def openNested? (query : Query) (position : Position) :
    Boundary → Result (Option (Position × Query))
  | .enter path => do
      let (id, query) ← query.place position (QueryNode.enter path) none
      pure (some (.slot id "query", query))
  | .exit _ => pure none

instance : Crossable Query Position where
  scopeAt := positionScope
  existing? := existingNested?
  opened? := openNested?

end Query

end ScopedClauses
