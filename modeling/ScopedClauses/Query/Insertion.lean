import ScopedClauses.Query.Basic

/-!
Inserting whole clause trees into queries: below a position, or merged onto a compound clause of
the same kind. Leaves on fields are checked against the mapping and placed in the scope of
their field.
-/

namespace ScopedClauses

namespace Query

inductive Input where
  | document (json : Json)
  | typed (tag : String) (body : Json)
  | tree (shape : Option (Shape QueryNode))

def Input.read : Input → Result (Option (Shape QueryNode))
  | .document json => some <$> QueryNode.ofJson json
  | .typed tag body => some <$> QueryNode.ofMembers [(tag, body)]
  | .tree shape => pure shape

structure Options where
  below : Option Address := none
  onto : Option Address := none
  mode : Option MergeMode := none
  parameter : Option String := none

def settle (query : Query) (position : Position) (node : QueryNode) :
    Result (Position × Query) :=
  match node, query.mapping with
  | .leaf clause, some mapping =>
      match clause.field with
      | some field => do
          let _ ← mapping.checkField clause.kind.tag clause.kind.rule field
          reconcile query position field mapping query.autocorrect
      | none => pure (position, query)
  | _, _ => pure (position, query)

mutual

def insertClause (query : Query) (position : Position) :
    Shape QueryNode → Result (Nat × Query)
  | .node label children => do
      let (position, query) ← query.settle position label.content
      let (id, query) ← query.place position label.content label.key
      pure (id, ← insertSlots query id children)

def insertSlots (query : Query) (compound : Nat) : List (Shape QueryNode) → Result Query
  | [] => pure query
  | .node label clauses :: rest =>
      match label.content.slot? with
      | some place => do
          let (_, query) ← query.ensureSlot compound place.name
          let query ← insertClauses query (.slot compound place.name) clauses
          insertSlots query compound rest
      | none => insertSlots query compound rest

def insertClauses (query : Query) (position : Position) :
    List (Shape QueryNode) → Result Query
  | [] => pure query
  | clause :: rest => do
      let (_, query) ← insertClause query position clause
      insertClauses query position rest

end

def insertShape (query : Query) (position : Position) : Option (Shape QueryNode) → Result Query
  | none => pure query
  | some shape =>
      if shape.label.content.isSlot then query.insertClauses position shape.children
      else (·.2) <$> query.insertClause position shape

def positionFor (query : Query) (address : Address) (parameter : Option String) :
    Result Position := do
  let id ← query.find address
  match ← query.tree.get id with
  | .leaf _ => throw (.invalidParent (.leafClause address.text) .anyClause)
  | .compound clause =>
      let name := parameter.getD clause.kind.preferred
      match clause.kind.slot? name with
      | some place => pure (.slot id place.name)
      | none => throw (.unknownParameter clause.kind.tag name)
  | .slot place =>
      match parameter with
      | some name => if name ≠ place.name then throw (.parameterUnderParameter name)
      | none => pure ()
      match query.tree.parent? id with
      | some compound => pure (.slot compound place.name)
      | none => throw (.nodeNotFound address)

def removeAll (query : Query) (ids : List Nat) : Result Query := do
  let tree ← ids.foldlM (fun tree id => (·.2) <$> tree.remove id) query.tree
  pure { query with tree := tree }

def blend (mode : MergeMode) (current incoming : CompoundClause) : CompoundClause :=
  { current with body := match mode with
    | .replaceAll => incoming.body
    | _ => Members.merge current.body incoming.body }

def mergeBody (query : Query) (target : Nat) (current incoming : CompoundClause)
    (mode : MergeMode) : Result Query := do
  let merged := QueryNode.compound (blend mode current incoming)
  let tree ← query.tree.assign target merged
  let tree ← tree.setKey target merged.name?
  pure { query with tree := tree }

def mergeSlots (query : Query) (target : Nat) (mode : MergeMode) :
    List (Shape QueryNode) → Result Query
  | [] => pure query
  | shape :: rest =>
      match shape.label.content.slot? with
      | none => mergeSlots query target mode rest
      | some place => do
          let query ← match mode, query.findSlot? target place.name with
            | .replace, some slot => query.removeAll (query.tree.children slot)
            | _, _ => pure query
          let (_, query) ← query.ensureSlot target place.name
          let query ← query.insertClauses (.slot target place.name) shape.children
          mergeSlots query target mode rest

def mergeOnto (query : Query) (onto : Address) (incoming : Option (Shape QueryNode))
    (mode : MergeMode) : Result Query := do
  let target ← query.find onto
  match incoming with
  | none => pure query
  | some shape =>
      let existing ← query.tree.get target
      let mismatch := Error.mergeMismatch existing.tag shape.label.content.tag
      match existing, shape.label.content with
      | .compound current, .compound added =>
          if current.kind.tag ≠ added.kind.tag then throw mismatch
          let query ← match mode with
            | .replaceAll => query.removeAll (query.tree.children target)
            | _ => pure query
          let query ← query.mergeBody target current added mode
          query.mergeSlots target mode shape.children
      | _, _ => throw mismatch

def insert (query : Query) (input : Input) (options : Options) : Result Query := do
  let incoming ← input.read
  match options.onto, options.below with
  | some onto, some below => throw (.ambiguousInsertion (.twoTargets onto below))
  | some onto, none => query.mergeOnto onto incoming (options.mode.getD query.mergeMode)
  | none, some below =>
      query.insertShape (← query.positionFor below options.parameter) incoming
  | none, none =>
      match options.parameter, query.tree.rootId? with
      | some parameter, some root =>
          query.insertShape (← query.positionFor (.id root) (some parameter)) incoming
      | _, _ => query.insertShape .top incoming

def query (query : Query) (input : Input) : Result Query := query.insert input {}

def ensureBoolRoot (query : Query) : Result (Nat × Query) :=
  match query.tree.rootId? with
  | none => do
      let (root, tree) ← query.tree.insertRoot QueryNode.emptyBool none
      pure (root, { query with tree := tree })
  | some root =>
      if query.isBool root then pure (root, query)
      else do
        let (outer, _, query) ← query.wrapInBool root
        pure (outer, query)

def insertInBool (query : Query) (name : String) (input : Input) : Result Query := do
  let incoming ← input.read
  let (root, query) ← query.ensureBoolRoot
  query.insertShape (.slot root name) incoming

def must (query : Query) (input : Input) : Result Query := query.insertInBool "must" input

def should (query : Query) (input : Input) : Result Query := query.insertInBool "should" input

def filter (query : Query) (input : Input) : Result Query := query.insertInBool "filter" input

def mustNot (query : Query) (input : Input) : Result Query :=
  query.insertInBool "must_not" input

def ofJson (json : Json) (mapping : Option Mapping) : Result Query :=
  ({ mapping := mapping } : Query).query (.document json)

end Query

end ScopedClauses
