import ScopedClauses.Mapping.Declaration
import ScopedClauses.Proofs.Json.Alike
import ScopedClauses.Proofs.Result
import ScopedClauses.Proofs.Tree.Forest

/-!
Mappings written as declarations and read again. The type of an object is not written, so it is
read again where fields are declared below the object, and an object without fields is lost.
-/

namespace ScopedClauses

namespace FieldType

theorem ofName_name (type : FieldType) : ofName type.name = .ok type := by
  cases type <;> rfl

end FieldType

namespace Mapping

open Rose

/-! ### What is read -/

structure Separated (parent : Option String) (field : Field) : Prop where
  path : field.path = pathBelow parent field.name
  fields : "fields" ∉ Members.keys field.parameters
  type : "type" ∉ Members.keys field.parameters
  properties : "properties" ∉ Members.keys field.parameters
  subfields : ∀ subfield ∈ field.subfields, "type" ∉ Members.keys subfield.parameters

inductive Declared : Option String → List (Shape MappingNode) → Prop where
  | nil {parent : Option String} : Declared parent []
  | cons {parent : Option String} {field : Field} {below beside : List (Shape MappingNode)} :
      Separated parent field → (below ≠ [] → field.type.isContainer = true) →
      Declared (some field.path) below → Declared parent beside →
      Declared parent (.node ⟨some field.name, .field field⟩ below :: beside)

theorem readSubfield_type {path name : String} {json : Json} {subfield : Subfield}
    (distinct : json.distinct = true) (read : readSubfield path name json = .ok subfield) :
    "type" ∉ Members.keys subfield.parameters := by
  cases json with
  | object members =>
      have keys := (Json.distinct_object.mp distinct).1
      simp only [readSubfield] at read
      split at read
      · obtain ⟨type, _, read⟩ := Result.bind_ok.mp read
        cases Result.pure_ok.mp read
        exact fun present => ((Members.mem_keys_takeOut keys).mp present).1 rfl
      · exact (Result.throw_ok.mp read).elim
  | _ => exact (Result.throw_ok.mp read).elim

theorem separated_readSubfields {path : String} {declared : Option Json}
    {subfields : List Subfield} (distinct : ∀ json, declared = some json → json.distinct = true)
    (read : readSubfields path declared = .ok subfields) :
    ∀ subfield ∈ subfields, "type" ∉ Members.keys subfield.parameters := by
  match declared with
  | none =>
      cases Result.pure_ok.mp read
      simp
  | some (.object members) =>
      intro subfield listed
      obtain ⟨⟨name, json⟩, member, here⟩ := Result.mapM_ok read subfield listed
      have contents := (Json.distinct_object.mp (distinct _ rfl)).2
      exact readSubfield_type (Json.distinct_of_mem contents member) here
  | some .null | some (.bool _) | some (.number _) | some (.string _) | some (.array _) =>
      exact (Result.throw_ok.mp read).elim

theorem readType_ok {path : String} {declared : Option Json} {container : Bool}
    {type : FieldType} : readType path declared container = .ok type ↔
      ((∃ name, declared = some (.string name) ∧ FieldType.ofName name = .ok type) ∨
        (declared = none ∧ container = true ∧ type = .object)) ∧
      (container = true → type.isContainer = true) := by
  have guarded : ∀ found : FieldType, ((if (container && !found.isContainer) = true then do
      throw (.malformed (.propertiesRefused path found.name))
      pure found
    else pure found : Result FieldType) = .ok type) ↔
      found = type ∧ (container = true → type.isContainer = true) := by
    intro found
    split
    · rename_i refused
      simp only [Bool.and_eq_true, Bool.not_eq_true'] at refused
      rw [Result.throw_bind]
      constructor
      · intro failed
        cases failed
      · rintro ⟨rfl, fits⟩
        simp [fits refused.1] at refused
    · rename_i fits
      rw [Result.pure_ok]
      refine ⟨?_, fun same => same.1⟩
      rintro rfl
      exact ⟨rfl, fun holds => by simpa [holds] using fits⟩
  match declared with
  | some (.string name) =>
      simp only [readType, Result.bind_ok, guarded]
      constructor
      · rintro ⟨found, named, rfl, fits⟩
        exact ⟨.inl ⟨name, rfl, named⟩, fits⟩
      · rintro ⟨⟨_, same, named⟩ | ⟨absent, _⟩, fits⟩
        · cases same
          exact ⟨type, named, rfl, fits⟩
        · cases absent
  | none =>
      cases container with
      | false => simp [readType]
      | true =>
          simp only [readType, if_true, Result.pure_bind, guarded]
          constructor
          · rintro ⟨rfl, fits⟩
            exact ⟨.inr ⟨trivial, trivial, rfl⟩, fits⟩
          · rintro ⟨⟨_, absent, _⟩ | ⟨_, _, rfl⟩, fits⟩
            · cases absent
            · exact ⟨rfl, fits⟩
  | some .null | some (.bool _) | some (.number _) | some (.array _) | some (.object _) =>
      simp [readType]

theorem separated_readField {parent : Option String} {name : String} {members : Members}
    {field : Field} (distinct : (Json.object members).distinct = true)
    (read : readField name (pathBelow parent name) members = .ok field) :
    Separated parent field ∧ field.name = name ∧ field.path = pathBelow parent name ∧
      ((members.lookup "properties").isSome = true → field.type.isContainer = true) := by
  obtain ⟨keys, contents⟩ := Json.distinct_object.mp distinct
  simp only [readField, Result.bind_ok, Result.pure_ok] at read
  obtain ⟨type, typed, subfields, analysed, rfl⟩ := read
  have first := Members.nodup_takeOut "properties" keys
  have second := Members.nodup_takeOut "type" first
  refine ⟨⟨rfl, ?_, ?_, ?_, ?_⟩, rfl, rfl, (readType_ok.mp typed).2⟩
  · exact fun present => ((Members.mem_keys_takeOut second).mp present).1 rfl
  · exact fun present =>
      ((Members.mem_keys_takeOut first).mp ((Members.mem_keys_takeOut second).mp present).2).1 rfl
  · exact fun present => ((Members.mem_keys_takeOut keys).mp ((Members.mem_keys_takeOut first).mp
      ((Members.mem_keys_takeOut second).mp present).2).2).1 rfl
  · exact separated_readSubfields (fun json found => Json.distinct_lookup contents found) analysed

theorem readChildren_eq (path : String) (members : Members) :
    readChildren path members = match members.lookup "properties" with
      | some properties => readProperties (some path) properties
      | none => pure [] := by
  induction members with
  | nil => rfl
  | cons member rest ih =>
      obtain ⟨key, json⟩ := member
      rw [readChildren, Members.lookup_member, ih]
      by_cases here : key = "properties"
      · rw [if_pos here, if_pos here.symm]
      · rw [if_neg here, if_neg (Ne.symm here)]

mutual

theorem declared_readProperties {parent : Option String} {fields : List (Shape MappingNode)} :
    ∀ json : Json, json.distinct = true → readProperties parent json = .ok fields →
      Declared parent fields
  | .object members, distinct, read =>
      declared_readFields members (Json.distinct_object.mp distinct).2 read
  | .null, _, read | .bool _, _, read | .number _, _, read | .string _, _, read
  | .array _, _, read => (Result.throw_ok.mp read).elim
  termination_by structural json => json

theorem declared_readFields {parent : Option String} {fields : List (Shape MappingNode)} :
    ∀ members : List (String × Json), Json.distinctMembers members = true →
      readFields parent members = .ok fields → Declared parent fields
  | [], _, read => by
      cases Result.pure_ok.mp read
      exact .nil
  | (name, json) :: rest, distinct, read => by
      rw [Json.distinctMembers_cons] at distinct
      simp only [readFields, Result.bind_ok, Result.pure_ok] at read
      obtain ⟨shape, here, beside, later, rfl⟩ := read
      have others := declared_readFields rest distinct.2 later
      exact declared_readDeclaration json distinct.1 here others
  termination_by structural members => members

theorem declared_readDeclaration {parent : Option String} {name : String}
    {shape : Shape MappingNode} {beside : List (Shape MappingNode)} : ∀ json : Json,
    json.distinct = true → readDeclaration name (pathBelow parent name) json = .ok shape →
      Declared parent beside → Declared parent (shape :: beside)
  | .object members, distinct, read, others => by
      simp only [readDeclaration, Result.bind_ok, Result.pure_ok] at read
      obtain ⟨field, own, below, children, rfl⟩ := read
      obtain ⟨separated, rfl, path, container⟩ := separated_readField distinct own
      rw [← path] at children
      obtain ⟨inside, filled⟩ :=
        declared_readChildren members (Json.distinct_object.mp distinct).2 children
      exact .cons separated (fun some => container (filled some)) inside others
  | .null, _, read, _ | .bool _, _, read, _ | .number _, _, read, _ | .string _, _, read, _
  | .array _, _, read, _ => (Result.throw_ok.mp read).elim
  termination_by structural json => json

theorem declared_readChildren {path : String} {fields : List (Shape MappingNode)} :
    ∀ members : List (String × Json), Json.distinctMembers members = true →
      readChildren path members = .ok fields → Declared (some path) fields ∧
        (fields ≠ [] → (members.lookup "properties").isSome = true)
  | [], _, read => by
      cases Result.pure_ok.mp read
      exact ⟨.nil, fun some => absurd rfl some⟩
  | (key, json) :: rest, distinct, read => by
      rw [Json.distinctMembers_cons] at distinct
      rw [readChildren] at read
      rw [Members.lookup_member]
      by_cases here : key = "properties"
      · rw [if_pos here] at read
        rw [if_pos here.symm]
        exact ⟨declared_readProperties json distinct.1 read, fun _ => rfl⟩
      · rw [if_neg here] at read
        rw [if_neg (Ne.symm here)]
        exact declared_readChildren rest distinct.2 read
  termination_by structural members => members

end

/-! ### What is written -/

section

variable {parent : Option String} {field : Field}

theorem readSubfields_subfieldJson {path : String} {subfields : List Subfield}
    (untyped : ∀ subfield ∈ subfields, "type" ∉ Members.keys subfield.parameters) :
    (subfields.map subfieldJson).mapM (fun (name, json) => readSubfield path name json) =
      .ok subfields := by
  induction subfields with
  | nil => rfl
  | cons subfield rest ih =>
      rw [List.forall_mem_cons] at untyped
      have first : readSubfield path subfield.name (subfieldJson subfield).2 = .ok subfield := by
        simp only [subfieldJson, readSubfield, Members.lookup_put, if_true, FieldType.ofName_name,
          Result.ok_bind, Members.takeOut_put untyped.1]
        rfl
      simp only [List.map_cons, List.mapM_cons]
      rw [show (subfieldJson subfield).1 = subfield.name from rfl, first, ih untyped.2]
      rfl

theorem lookup_fieldMembers_type (separated : Separated parent field) (properties : Members) :
    (fieldMembers field properties).lookup "type" =
      if field.type = .object then none else some (.string field.type.name) := by
  have absent := Members.lookup_of_not_mem_keys separated.type
  simp only [fieldMembers]
  split_ifs <;> simp [Members.lookup_put, absent]

theorem lookup_fieldMembers_fields (separated : Separated parent field) (properties : Members) :
    (fieldMembers field properties).lookup "fields" =
      if field.subfields.isEmpty then none
      else some (.object (field.subfields.map subfieldJson)) := by
  have absent := Members.lookup_of_not_mem_keys separated.fields
  simp only [fieldMembers]
  split_ifs <;> simp [Members.lookup_put, absent]

theorem lookup_fieldMembers_properties (separated : Separated parent field)
    (properties : Members) : (fieldMembers field properties).lookup "properties" =
      if properties.isEmpty then none else some (.object properties) := by
  have absent := Members.lookup_of_not_mem_keys separated.properties
  simp only [fieldMembers]
  split_ifs <;> simp [Members.lookup_put, absent]

theorem takeOut_fieldMembers (separated : Separated parent field) (properties : Members) :
    Members.takeOut "fields" (Members.takeOut "type" (Members.takeOut "properties"
      (fieldMembers field properties))) = field.parameters := by
  obtain ⟨_, noFields, noType, noProperties, _⟩ := separated
  simp only [fieldMembers]
  split_ifs <;> simp [Members.takeOut_put, Members.takeOut_put_put, Members.takeOut_of_not_mem,
    Members.mem_keys_put, noFields, noType, noProperties]

theorem readSubfields_fieldMembers (separated : Separated parent field) (properties : Members) :
    readSubfields field.path ((fieldMembers field properties).lookup "fields") =
      .ok field.subfields := by
  rw [lookup_fieldMembers_fields separated]
  split
  · rename_i empty
    rw [List.isEmpty_iff.mp empty]
    rfl
  · exact readSubfields_subfieldJson separated.subfields

theorem readType_fieldMembers (separated : Separated parent field) {properties : Members}
    (fits : properties ≠ [] → field.type.isContainer = true) {type : FieldType} :
    readType field.path ((fieldMembers field properties).lookup "type")
        ((fieldMembers field properties).lookup "properties").isSome = .ok type ↔
      field.type = type ∧ (field.type = .object → properties ≠ []) := by
  have filled : (if properties.isEmpty then none else some (Json.object properties)).isSome = true
      ↔ properties ≠ [] := by
    cases properties <;> simp
  rw [readType_ok, lookup_fieldMembers_type separated, lookup_fieldMembers_properties separated,
    filled]
  by_cases object : field.type = .object
  · rw [if_pos object, object]
    constructor
    · rintro ⟨⟨_, absent, _⟩ | ⟨_, some, rfl⟩, _⟩
      · cases absent
      · exact ⟨rfl, fun _ => some⟩
    · rintro ⟨rfl, some⟩
      exact ⟨.inr ⟨rfl, some rfl, rfl⟩, fun _ => rfl⟩
  · rw [if_neg object]
    constructor
    · rintro ⟨⟨name, same, named⟩ | ⟨absent, _⟩, _⟩
      · cases same
        rw [FieldType.ofName_name] at named
        cases named
        exact ⟨rfl, fun impossible => absurd impossible object⟩
      · cases absent
    · rintro ⟨rfl, _⟩
      exact ⟨.inl ⟨_, rfl, FieldType.ofName_name _⟩, fits⟩

theorem readField_fieldMembers (separated : Separated parent field) {properties : Members}
    (fits : properties ≠ [] → field.type.isContainer = true) {again : Field} :
    readField field.name field.path (fieldMembers field properties) = .ok again ↔
      field = again ∧ (field.type = .object → properties ≠ []) := by
  simp only [readField, Result.bind_ok, Result.pure_ok, readType_fieldMembers separated fits,
    readSubfields_fieldMembers separated, takeOut_fieldMembers separated]
  constructor
  · rintro ⟨_, ⟨rfl, some⟩, _, same, rfl⟩
    cases same
    exact ⟨rfl, some⟩
  · rintro ⟨rfl, some⟩
    exact ⟨_, ⟨rfl, some⟩, _, rfl, rfl⟩

theorem readChildren_fieldMembers (separated : Separated parent field) (path : String)
    (properties : Members) : readChildren path (fieldMembers field properties) =
      readFields (some path) properties := by
  rw [readChildren_eq, lookup_fieldMembers_properties separated]
  cases properties <;> rfl

end

theorem propertiesJson_field (key : Option String) (field : Field) (number : Nat)
    (below beside : List (Branch MappingNode)) :
    propertiesJson (.node ⟨⟨key, .field field⟩, number⟩ below :: beside) =
      (field.name, .object (fieldMembers field (propertiesJson below))) ::
        propertiesJson beside := by
  rw [propertiesJson, fieldJson]
  rfl

theorem propertiesJson_eq_nil {parent : Option String} {branches : List (Branch MappingNode)}
    (declared : Declared parent (shapes branches)) :
    propertiesJson branches = [] ↔ branches = [] := by
  match branches, declared with
  | [], _ => simp [propertiesJson]
  | .node ⟨⟨key, content⟩, number⟩ below :: beside, declared =>
      rw [shapes_cons] at declared
      cases declared
      simp [propertiesJson_field]

def wrapped? (parameters : Members) : Option Json :=
  match parameters.lookup "mappings" with
  | some inner => some inner
  | none =>
      match parameters with
      | [(_, index)] => index.get? "mappings"
      | _ => none

/-- Whether what is written of a node shows what it was. The fields below an object show its
type, and those of a document that its attributes stand for themselves. -/
def shown (branch : Branch MappingNode) : Bool :=
  !branch.children.isEmpty ||
    match branch.content with
    | .root parameters => (wrapped? parameters).isNone
    | .field field => field.type ≠ .object

/-- Written fields are read again exactly if none is an object without fields. -/
theorem readFields_propertiesJson (branches : List (Branch MappingNode)) :
    ∀ {parent : Option String} {again : List (Shape MappingNode)},
      Declared parent (shapes branches) →
        (readFields parent (propertiesJson branches) = .ok again ↔
          shapes branches = again ∧ (preorderAll branches).all shown = true) := by
  induction branches using forestInduction with
  | nil =>
      intro parent again declared
      simp [propertiesJson, readFields, Result.pure_ok]
  | cons label below beside ihBelow ihBeside =>
      intro parent again declared
      obtain ⟨⟨key, content⟩, number⟩ := label
      rw [shapes_cons] at declared
      cases declared
      rename_i field separated fits inner outer
      have holds : propertiesJson below ≠ [] → field.type.isContainer = true := by
        intro some
        refine fits fun none => some ?_
        rw [shapes_eq_nil none]
        rfl
      have object : (field.type = .object → propertiesJson below ≠ []) ↔
          shown (.node ⟨⟨some field.name, .field field⟩, number⟩ below) = true := by
        rw [ne_eq, propertiesJson_eq_nil inner]
        simp [shown, imp_iff_not_or, or_comm]
      rw [propertiesJson_field, readFields, ← separated.path]
      simp only [readDeclaration, Result.bind_ok, Result.pure_ok,
        readField_fieldMembers separated holds, readChildren_fieldMembers separated,
        ihBelow inner, ihBeside outer, object]
      simp only [shapes_cons, preorderAll_cons, List.all_cons, List.all_append, Bool.and_eq_true]
      constructor
      · rintro ⟨_, ⟨_, ⟨rfl, here⟩, _, ⟨rfl, inside⟩, rfl⟩, _, ⟨rfl, outside⟩, rfl⟩
        exact ⟨rfl, here, inside, outside⟩
      · rintro ⟨rfl, here, inside, outside⟩
        exact ⟨_, ⟨_, ⟨rfl, here⟩, _, ⟨rfl, inside⟩, rfl⟩, _, ⟨rfl, outside⟩, rfl⟩

/-! ### Declarations -/

section

variable {members parameters : Members}

theorem bareDeclaration_properties (declared : (members.lookup "properties").isSome = true) :
    bareDeclaration (.object members) = .ok (.object members) := by
  simp only [bareDeclaration, declared, if_true]
  rfl

theorem bareDeclaration_attributes (absent : parameters.lookup "properties" = none) :
    bareDeclaration (.object parameters) =
      .ok ((wrapped? parameters).getD (.object parameters)) := by
  simp only [bareDeclaration, wrapped?, absent]
  cases parameters.lookup "mappings" with
  | some inner => rfl
  | none =>
      match parameters with
      | [] | [_] | _ :: _ :: _ => rfl

theorem distinct_wrapped? {inner : Json} (distinct : Json.distinctMembers parameters = true)
    (found : wrapped? parameters = some inner) : inner.distinct = true := by
  simp only [wrapped?] at found
  split at found
  · rename_i direct
    cases found
    exact Json.distinct_lookup distinct direct
  · split at found
    · have index := (Json.distinctMembers_cons.mp distinct).1
      exact Json.distinct_get? index found
    · cases found

theorem sizeOf_wrapped? {inner : Json} (found : wrapped? parameters = some inner) :
    ∃ member ∈ parameters, sizeOf inner ≤ sizeOf member.2 := by
  simp only [wrapped?] at found
  split at found
  · rename_i direct
    cases found
    exact ⟨_, Members.mem_of_lookup direct, Nat.le_refl _⟩
  · split at found
    · rename_i key index _
      cases index with
      | object below =>
          refine ⟨_, List.mem_cons_self, ?_⟩
          have part := List.sizeOf_lt_of_mem (Members.mem_of_lookup found)
          simp only [Prod.mk.sizeOf_spec, Json.object.sizeOf_spec] at part ⊢
          omega
      | _ => cases found
    · cases found

theorem distinct_bareDeclaration {json bare : Json} (distinct : json.distinct = true)
    (unwrapped : bareDeclaration json = .ok bare) : bare.distinct = true := by
  cases json with
  | object members =>
      have contents := (Json.distinct_object.mp distinct).2
      cases declared : members.lookup "properties" with
      | some properties =>
          rw [bareDeclaration_properties (by rw [declared]; rfl)] at unwrapped
          cases unwrapped
          exact distinct
      | none =>
          rw [bareDeclaration_attributes declared] at unwrapped
          cases unwrapped
          cases found : wrapped? members with
          | some inner => exact distinct_wrapped? contents found
          | none => exact distinct
  | _ => exact (Result.throw_ok.mp unwrapped).elim

theorem ofJson_ok {json : Json} {mapping : Mapping} : ofJson json = .ok mapping ↔
    ∃ members fields, bareDeclaration json = .ok (.object members) ∧
      (match members.lookup "properties" with
        | some properties => readProperties none properties
        | none => pure []) = .ok fields ∧
      Mapping.mk (Tree.ofShape
        (.node ⟨none, .root (Members.takeOut "properties" members)⟩ fields)) = mapping := by
  simp only [ofJson, Result.bind_ok]
  constructor
  · rintro ⟨bare, unwrapped, read⟩
    cases bare with
    | object members =>
        refine ⟨members, ?_⟩
        cases declared : members.lookup "properties" <;> simp only [declared] at read ⊢
        all_goals
          obtain ⟨fields, below, same⟩ := Result.bind_ok.mp read
          exact ⟨fields, unwrapped, below, Result.pure_ok.mp same⟩
    | _ => exact (Result.throw_ok.mp read).elim
  · rintro ⟨members, fields, unwrapped, below, same⟩
    refine ⟨_, unwrapped, ?_⟩
    cases declared : members.lookup "properties" <;> simp only [declared] at below ⊢
    all_goals exact Result.bind_ok.mpr ⟨fields, below, Result.pure_ok.mpr same⟩

end

theorem root_inj {fields others : List (Shape MappingNode)} :
    Mapping.mk (Tree.ofShape (.node ⟨none, .root members⟩ fields)) =
      Mapping.mk (Tree.ofShape (.node ⟨none, .root parameters⟩ others)) ↔
      members = parameters ∧ fields = others := by
  simp [Tree.ofShape_inj]

theorem ofJson_put (absent : "properties" ∉ Members.keys parameters) {properties : Members}
    {fields : List (Shape MappingNode)} :
    ofJson (.object (Members.put "properties" (.object properties) parameters)) =
        .ok ⟨Tree.ofShape (.node ⟨none, .root parameters⟩ fields)⟩ ↔
      readFields none properties = .ok fields := by
  have listed : (Members.put "properties" (.object properties) parameters).lookup "properties" =
      some (.object properties) := by
    rw [Members.lookup_put, if_pos rfl]
  have bare := bareDeclaration_properties (by rw [listed]; rfl)
  rw [ofJson_ok]
  constructor
  · rintro ⟨members, again, unwrapped, read, same⟩
    cases bare.symm.trans unwrapped
    rw [listed] at read
    exact (root_inj.mp same).2 ▸ read
  · intro read
    refine ⟨_, fields, bare, ?_, ?_⟩
    · rw [listed]
      exact read
    · rw [Members.takeOut_put absent]

/-- Attributes are read as themselves exactly if they wrap nothing. What they wrap is smaller. -/
theorem ofJson_attributes (absent : "properties" ∉ Members.keys parameters) :
    ofJson (.object parameters) = .ok ⟨Tree.ofShape (.node ⟨none, .root parameters⟩ [])⟩ ↔
      wrapped? parameters = none := by
  have unlisted := Members.lookup_of_not_mem_keys absent
  have bare := bareDeclaration_attributes unlisted
  rw [ofJson_ok]
  cases wrapped : wrapped? parameters with
  | none =>
      rw [wrapped] at bare
      refine iff_of_true ⟨parameters, [], bare, ?_, ?_⟩ rfl
      · rw [unlisted]
        rfl
      · rw [Members.takeOut_of_not_mem absent]
  | some inner =>
      rw [wrapped] at bare
      refine iff_of_false ?_ (Option.some_ne_none inner)
      rintro ⟨members, fields, unwrapped, _, same⟩
      cases bare.symm.trans unwrapped
      obtain ⟨member, listed, small⟩ := sizeOf_wrapped? wrapped
      rw [← (root_inj.mp same).1] at listed
      have part := List.sizeOf_lt_of_mem (Members.mem_of_mem_takeOut listed)
      obtain ⟨name, value⟩ := member
      simp only [Prod.mk.sizeOf_spec, Json.object.sizeOf_spec] at part small
      omega

theorem toJson_ofShape (parameters : Members) (fields : List (Shape MappingNode)) :
    toJson ⟨Tree.ofShape (.node ⟨none, .root parameters⟩ fields)⟩ =
      if propertiesJson (numberAll 1 fields) = [] then .object parameters
      else .object
        (Members.put "properties" (.object (propertiesJson (numberAll 1 fields))) parameters) := by
  simp [toJson, Tree.ofShape, number]

/-- What is read from a declaration is written as a declaration that is read as the same fields,
with the same names, paths, types, subfields and attributes in the same order, and the same
attributes of the document, if and only if no object lies in it without fields and the
attributes of a document without fields wrap nothing. -/
theorem ofJson_toJson_iff {json : Json} {mapping : Mapping} (distinct : json.distinct = true)
    (read : ofJson json = .ok mapping) :
    ofJson mapping.toJson = .ok mapping ↔ mapping.tree.nodes.all shown = true := by
  obtain ⟨members, fields, bare, below, rfl⟩ := ofJson_ok.mp read
  obtain ⟨keys, contents⟩ := Json.distinct_object.mp (distinct_bareDeclaration distinct bare)
  have absent : "properties" ∉ Members.keys (Members.takeOut "properties" members) :=
    fun present => ((Members.mem_keys_takeOut keys).mp present).1 rfl
  have declared : Declared none (shapes (numberAll 1 fields)) := by
    rw [shapes_numberAll]
    cases found : members.lookup "properties" with
    | none =>
        simp only [found] at below
        cases Result.pure_ok.mp below
        exact .nil
    | some properties =>
        simp only [found] at below
        exact declared_readProperties properties (Json.distinct_lookup contents found) below
  generalize Members.takeOut "properties" members = parameters at absent ⊢
  rw [toJson_ofShape]
  by_cases empty : propertiesJson (numberAll 1 fields) = []
  · -- nothing tells a document without fields from its attributes
    have none : fields = [] := by
      rw [← shapes_numberAll 1 fields, (propertiesJson_eq_nil declared).mp empty]
      rfl
    subst none
    rw [if_pos empty, ofJson_attributes absent]
    simp [Tree.nodes, Tree.ofShape, number, numberAll, shown]
  · have filled : numberAll 1 fields ≠ [] :=
      fun none => empty ((propertiesJson_eq_nil declared).mpr none)
    have whole : (Tree.ofShape (.node ⟨none, .root parameters⟩ fields)).nodes.all shown = true ↔
        (preorderAll (numberAll 1 fields)).all shown = true := by
      simp [Tree.nodes, Tree.ofShape, number, shown, filled]
    rw [if_neg empty, whole, ofJson_put absent,
      readFields_propertiesJson (numberAll 1 fields) declared,
      and_iff_right (shapes_numberAll 1 fields)]

def filmDeclaration : Json :=
  .object [("dynamic", .string "strict"), ("properties", .object [
    ("title", .object [("type", .string "text"), ("analyzer", .string "english"),
      ("fields", .object [("raw", .object [("type", .string "keyword")])])]),
    ("studio", .object [("properties", .object [
      ("name", .object [("type", .string "keyword")])])]),
    ("roles", .object [("properties", .object [
      ("gender", .object [("type", .string "keyword")])]), ("type", .string "nested")])])]

theorem ofJson_toJson_iff_films : ∃ mapping, ofJson filmDeclaration = .ok mapping ∧
    mapping.tree.len = 6 ∧ ofJson mapping.toJson = .ok mapping := by
  obtain ⟨mapping, read, checked⟩ := Result.ok_of_any
    (show (ofJson filmDeclaration).toOption.any
      (fun mapping => mapping.tree.len = 6 && mapping.tree.nodes.all shown) = true by
        decide +kernel)
  simp only [Bool.and_eq_true, decide_eq_true_eq] at checked
  exact ⟨mapping, read, checked.1,
    (ofJson_toJson_iff (by decide +kernel) read).mpr checked.2⟩

def objectDeclaration : Json :=
  .object [("properties", .object [("a", .object [("type", .string "object")])])]

def wrapperDeclaration : Json :=
  .object [("properties", .object []), ("mappings", .object [("properties", .object [
    ("a", .object [("type", .string "keyword")])])])]

/-- What is written of an object without fields is not read at all, and the attribute
`mappings` of a document without fields is read as its declaration. -/
theorem written_misread :
    (∃ mapping, ofJson objectDeclaration = .ok mapping ∧
      ∀ again, ofJson mapping.toJson ≠ .ok again) ∧
    ∃ mapping again, ofJson wrapperDeclaration = .ok mapping ∧
      ofJson mapping.toJson = .ok again ∧ mapping.tree.len = 1 ∧ again.tree.len = 2 := by
  constructor
  · obtain ⟨mapping, read, failed⟩ := Result.ok_of_any
      (show (ofJson objectDeclaration).toOption.any
        (fun mapping => (ofJson mapping.toJson).toOption.isNone) = true by decide +kernel)
    refine ⟨mapping, read, fun again found => ?_⟩
    rw [found] at failed
    cases failed
  · obtain ⟨mapping, read, checked⟩ := Result.ok_of_any
      (show (ofJson wrapperDeclaration).toOption.any (fun mapping => mapping.tree.len = 1 &&
        (ofJson mapping.toJson).toOption.any (fun again => again.tree.len = 2)) = true by
          decide +kernel)
    simp only [Bool.and_eq_true, decide_eq_true_eq] at checked
    obtain ⟨again, found, larger⟩ := Result.ok_of_any checked.2
    exact ⟨mapping, again, read, found, checked.1, by simpa using larger⟩

end Mapping

end ScopedClauses
