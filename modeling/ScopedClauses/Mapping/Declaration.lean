import ScopedClauses.Mapping.Basic

/-!
Mapping declarations as JSON. A declaration may be bare, below `mappings`, or below the name
of an index. Reading checks each field before the fields below it.
-/

namespace ScopedClauses

namespace Mapping

def bareDeclaration (json : Json) : Result Json :=
  match json with
  | .object members =>
      if (members.lookup "properties").isSome then pure json
      else match members.lookup "mappings" with
        | some inner => pure inner
        | none =>
            match members with
            | [(_, index)] => pure ((index.get? "mappings").getD json)
            | _ => pure json
  | _ => throw (.malformed .mappingNotObject)

def readSubfield (path name : String) (json : Json) : Result Subfield :=
  match json with
  | .object members =>
      match members.lookup "type" with
      | some (.string typeName) => do
          let type ← FieldType.ofName typeName
          pure ⟨name, type, Members.takeOut "type" members⟩
      | _ => throw (.malformed (.subfieldUntyped path name))
  | _ => throw (.malformed (.subfieldNotObject path name))

def readSubfields (path : String) : Option Json → Result (List Subfield)
  | none => pure []
  | some (.object members) =>
      members.mapM fun (name, json) => readSubfield path name json
  | some _ => throw (.malformed (.subfieldsNotObject path))

def readType (path : String) (declaredType : Option Json) (container : Bool) :
    Result FieldType := do
  let type ← match declaredType with
    | some (.string name) => FieldType.ofName name
    | some other => throw (.malformed (.fieldTypeNotString path other))
    | none => if container then pure .object else throw (.malformed (.fieldUntyped path))
  if container && !type.isContainer then
    throw (.malformed (.propertiesRefused path type.name))
  pure type

/-- One field without the fields below it. Its attributes are what is left when `properties`,
`type` and `fields` are taken out in this order. -/
def readField (name path : String) (members : Members) : Result Field := do
  let type ← readType path (members.lookup "type") (members.lookup "properties").isSome
  let subfields ← readSubfields path (members.lookup "fields")
  let parameters :=
    Members.takeOut "fields" (Members.takeOut "type" (Members.takeOut "properties" members))
  pure ⟨name, path, type, subfields, parameters⟩

def pathBelow : Option String → String → String
  | some parent, name => parent ++ "." ++ name
  | none, name => name

mutual

def readProperties (parent : Option String) : Json → Result (List (Shape MappingNode))
  | .object members => readFields parent members
  | _ => throw (.malformed .propertiesNotObject)

def readFields (parent : Option String) :
    List (String × Json) → Result (List (Shape MappingNode))
  | [] => pure []
  | (name, json) :: rest => do
      let field ← readDeclaration name (pathBelow parent name) json
      pure (field :: (← readFields parent rest))

def readDeclaration (name path : String) : Json → Result (Shape MappingNode)
  | .object members => do
      let field ← readField name path members
      pure (.node ⟨some name, .field field⟩ (← readChildren path members))
  | _ => throw (.malformed (.fieldNotObject path))

def readChildren (path : String) : List (String × Json) → Result (List (Shape MappingNode))
  | [] => pure []
  | (key, json) :: rest =>
      if key = "properties" then readProperties (some path) json
      else readChildren path rest

end

def ofJson (json : Json) : Result Mapping := do
  match ← bareDeclaration json with
  | .object members =>
      let root := MappingNode.root (Members.takeOut "properties" members)
      let fields ← match members.lookup "properties" with
        | some properties => readProperties none properties
        | none => pure []
      pure ⟨Tree.ofShape (.node ⟨none, root⟩ fields)⟩
  | _ => throw (.malformed .mappingNotObject)

def subfieldJson (subfield : Subfield) : String × Json :=
  (subfield.name, .object (Members.put "type" (.string subfield.type.name) subfield.parameters))

def fieldMembers (field : Field) (properties : Members) : Members :=
  let typed := if field.type = .object then field.parameters
    else Members.put "type" (.string field.type.name) field.parameters
  let analysed := if field.subfields.isEmpty then typed
    else Members.put "fields"
      (.object (field.subfields.map subfieldJson)) typed
  if properties.isEmpty then analysed else Members.put "properties" (.object properties) analysed

mutual

def fieldJson : Branch MappingNode → Members
  | .node label children =>
      match label.content with
      | .field field => [(field.name, .object (fieldMembers field (propertiesJson children)))]
      | .root _ => []

def propertiesJson : List (Branch MappingNode) → Members
  | [] => []
  | branch :: rest => fieldJson branch ++ propertiesJson rest

end

def toJson (mapping : Mapping) : Json :=
  match mapping.tree.root with
  | none => .object []
  | some (.node label children) =>
      let parameters := match label.content with
        | .root parameters => parameters
        | .field _ => []
      let properties := propertiesJson children
      if properties.isEmpty then .object parameters
      else .object (Members.put "properties" (.object properties) parameters)

end Mapping

end ScopedClauses
