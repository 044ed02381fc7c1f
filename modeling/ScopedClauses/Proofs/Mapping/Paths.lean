import Mathlib.Data.List.Nodup
import ScopedClauses.Proofs.Mapping.RoundTrip
import ScopedClauses.Scope.Crossing

/-!
The paths of declared fields. Where no name has a dot in it no path is declared twice, so that the
scopes around a field are found under their own paths.
-/

namespace ScopedClauses

/-! ### Dotted texts -/

theorem isWithin_iff {scope outer : String} :
    isWithin scope outer = true ↔ ∃ rest, scope.toList = outer.toList ++ '.' :: rest := by
  rw [isWithin, List.isPrefixOf_iff_prefix]
  constructor
  · rintro ⟨rest, same⟩
    exact ⟨rest, by rw [← same, List.append_assoc]; rfl⟩
  · rintro ⟨rest, same⟩
    exact ⟨rest, by rw [same, List.append_assoc]; rfl⟩

namespace Mapping

open Rose Tree

def Covers (outer path : String) : Prop := path = outer ∨ isWithin path outer = true

theorem covers_iff {outer path : String} : Covers outer path ↔
    ∃ rest, path.toList = outer.toList ++ rest ∧ ∀ char ∈ rest.head?, char = '.' := by
  rw [Covers, isWithin_iff]
  constructor
  · rintro (rfl | ⟨rest, same⟩)
    · exact ⟨[], by simp, by simp⟩
    · exact ⟨'.' :: rest, same, by simp⟩
  · rintro ⟨rest, same, dotted⟩
    cases rest with
    | nil => exact Or.inl (String.toList_inj.mp (by simpa using same))
    | cons char rest =>
        obtain rfl : char = '.' := dotted char rfl
        exact Or.inr ⟨rest, same⟩

theorem isWithin_pathBelow (parent name : String) :
    isWithin (pathBelow (some parent) name) parent = true :=
  isWithin_iff.mpr ⟨name.toList, by simp [pathBelow]⟩

theorem isWithin_of_covers {outer middle path : String} (within : isWithin middle outer = true)
    (covers : Covers middle path) : isWithin path outer = true := by
  obtain ⟨rest, same⟩ := isWithin_iff.mp within
  obtain ⟨further, longer, _⟩ := covers_iff.mp covers
  exact isWithin_iff.mpr ⟨rest ++ further, by rw [longer, same]; simp⟩

theorem covers_trans {outer middle path : String} (first : Covers outer middle)
    (second : Covers middle path) : Covers outer path :=
  first.elim (fun same => same ▸ second) fun within => Or.inr (isWithin_of_covers within second)

theorem isWithin_irrefl (path : String) : isWithin path path = false := by
  rw [Bool.eq_false_iff]
  intro within
  obtain ⟨rest, same⟩ := isWithin_iff.mp within
  have lengths := congrArg List.length same
  simp at lengths

theorem takeWhile_undotted {name rest : List Char} (undotted : '.' ∉ name)
    (dotted : ∀ char ∈ rest.head?, char = '.') :
    (name ++ rest).takeWhile (· ≠ '.') = name := by
  have whole : ∀ char ∈ name, decide (char ≠ '.') = true := by
    intro char listed
    rw [decide_eq_true_eq]
    rintro rfl
    exact undotted listed
  rw [List.takeWhile_append_of_pos whole]
  cases rest with
  | nil => simp
  | cons char rest => simp [dotted char rfl]

theorem name_unique {parent : Option String} {name other path : String}
    (undotted : '.' ∉ name.toList) (otherUndotted : '.' ∉ other.toList)
    (covers : Covers (pathBelow parent name) path)
    (otherCovers : Covers (pathBelow parent other) path) : name = other := by
  obtain ⟨rest, same, dotted⟩ := covers_iff.mp covers
  obtain ⟨otherRest, otherSame, otherDotted⟩ := covers_iff.mp otherCovers
  have tails : name.toList ++ rest = other.toList ++ otherRest := by
    rw [same] at otherSame
    cases parent <;> simpa [pathBelow] using otherSame
  have heads := congrArg (List.takeWhile (· ≠ '.')) tails
  rw [takeWhile_undotted undotted dotted, takeWhile_undotted otherUndotted otherDotted] at heads
  exact String.toList_inj.mp heads

/-! ### Declared paths -/

inductive Spread : List (Shape MappingNode) → Prop where
  | nil : Spread []
  | cons {label : Keyed MappingNode} {below beside : List (Shape MappingNode)}
      (fresh : ∀ shape ∈ beside, shape.label.key ≠ label.key) (inside : Spread below)
      (others : Spread beside) : Spread (.node label below :: beside)

mutual

theorem spread_readProperties {parent : Option String} {fields : List (Shape MappingNode)} :
    ∀ json : Json, json.distinct = true → readProperties parent json = .ok fields → Spread fields
  | .object members, distinct, read =>
      have ⟨keys, contents⟩ := Json.distinct_object.mp distinct
      (spread_readFields members keys contents read).1
  | .null, _, read | .bool _, _, read | .number _, _, read | .string _, _, read
  | .array _, _, read => (Result.throw_ok.mp read).elim
  termination_by structural json => json

theorem spread_readFields {parent : Option String} {fields : List (Shape MappingNode)} :
    ∀ members : List (String × Json), (Members.keys members).Nodup →
      Json.distinctMembers members = true → readFields parent members = .ok fields →
      Spread fields ∧ ∀ shape ∈ fields, ∃ name ∈ Members.keys members, shape.label.key = some name
  | [], _, _, read => by
      cases Result.pure_ok.mp read
      exact ⟨.nil, by simp⟩
  | (name, json) :: rest, keys, contents, read => by
      obtain ⟨fresh, keys⟩ := List.nodup_cons.mp keys
      rw [Json.distinctMembers_cons] at contents
      simp only [readFields, Result.bind_ok, Result.pure_ok] at read
      obtain ⟨shape, here, beside, later, rfl⟩ := read
      obtain ⟨others, named⟩ := spread_readFields rest keys contents.2 later
      obtain ⟨key, inside⟩ := spread_readDeclaration json contents.1 here
      obtain ⟨label, below⟩ := shape
      refine ⟨.cons (fun other listed same => ?_) inside others, ?_⟩
      · obtain ⟨again, known, otherKey⟩ := named other listed
        rw [otherKey, show label.key = some name from key] at same
        exact fresh (Option.some.inj same ▸ known)
      · rw [List.forall_mem_cons]
        refine ⟨⟨name, List.mem_cons_self, key⟩, fun other listed => ?_⟩
        obtain ⟨again, known, otherKey⟩ := named other listed
        exact ⟨again, List.mem_cons_of_mem _ known, otherKey⟩
  termination_by structural members => members

theorem spread_readDeclaration {name path : String} {shape : Shape MappingNode} : ∀ json : Json,
    json.distinct = true → readDeclaration name path json = .ok shape →
      shape.label.key = some name ∧ Spread shape.children
  | .object members, distinct, read => by
      simp only [readDeclaration, Result.bind_ok, Result.pure_ok] at read
      obtain ⟨field, _, below, children, rfl⟩ := read
      exact ⟨rfl, spread_readChildren members (Json.distinct_object.mp distinct).2 children⟩
  | .null, _, read | .bool _, _, read | .number _, _, read | .string _, _, read
  | .array _, _, read => (Result.throw_ok.mp read).elim
  termination_by structural json => json

theorem spread_readChildren {path : String} {fields : List (Shape MappingNode)} :
    ∀ members : List (String × Json), Json.distinctMembers members = true →
      readChildren path members = .ok fields → Spread fields
  | [], _, read => by
      cases Result.pure_ok.mp read
      exact .nil
  | (key, json) :: rest, distinct, read => by
      rw [Json.distinctMembers_cons] at distinct
      rw [readChildren] at read
      split at read
      · exact spread_readProperties json distinct.1 read
      · exact spread_readChildren rest distinct.2 read
  termination_by structural members => members

end

def fieldsOf (forest : List (Shape MappingNode)) : List Field :=
  (preorderAll forest).filterMap fun node => node.label.content.field?

theorem fieldsOf_cons (key : Option String) (field : Field)
    (below beside : List (Shape MappingNode)) :
    fieldsOf (.node ⟨key, .field field⟩ below :: beside) =
      field :: (fieldsOf below ++ fieldsOf beside) := by
  simp [fieldsOf, MappingNode.field?]

/-- Every field lies below a name that stands at the top. -/
theorem Declared.covered {parent : Option String} {forest : List (Shape MappingNode)}
    (declared : Declared parent forest) {field : Field} (listed : field ∈ fieldsOf forest) :
    ∃ top ∈ fieldsOf forest, (∃ shape ∈ forest, shape.label.key = some top.name) ∧
      Covers (pathBelow parent top.name) field.path := by
  induction declared generalizing field with
  | nil => simp [fieldsOf] at listed
  | @cons parent own below beside separated fits inside others ihBelow ihBeside =>
      rw [fieldsOf_cons, List.mem_cons, List.mem_append] at listed
      rw [fieldsOf_cons]
      rcases listed with rfl | under | after
      · exact ⟨field, by simp, ⟨_, List.mem_cons_self, rfl⟩, Or.inl separated.path⟩
      · obtain ⟨top, _, _, covers⟩ := ihBelow under
        refine ⟨own, by simp, ⟨_, List.mem_cons_self, rfl⟩, Or.inr ?_⟩
        rw [← separated.path]
        exact isWithin_of_covers (isWithin_pathBelow own.path top.name) covers
      · obtain ⟨top, known, ⟨shape, member, key⟩, covers⟩ := ihBeside after
        exact ⟨top, by simp [known], ⟨shape, List.mem_cons_of_mem _ member, key⟩, covers⟩

theorem Declared.within {path : String} {below : List (Shape MappingNode)}
    (inside : Declared (some path) below) {field : Field} (listed : field ∈ fieldsOf below) :
    isWithin field.path path = true := by
  obtain ⟨top, _, _, covers⟩ := inside.covered listed
  exact isWithin_of_covers (isWithin_pathBelow path top.name) covers

theorem Declared.apart {parent : Option String} {beside : List (Shape MappingNode)}
    (others : Declared parent beside) {name : String}
    (fresh : ∀ shape ∈ beside, shape.label.key ≠ some name) (undotted : '.' ∉ name.toList)
    (undottedBeside : ∀ field ∈ fieldsOf beside, '.' ∉ field.name.toList) :
    ∀ field ∈ fieldsOf beside, ∀ path, Covers (pathBelow parent name) path →
      ¬ Covers field.path path := by
  intro field listed path covers again
  obtain ⟨top, known, ⟨shape, member, key⟩, otherCovers⟩ := others.covered listed
  have same := name_unique undotted (undottedBeside top known) covers
    (covers_trans otherCovers again)
  exact fresh shape member (by rw [key, same])

theorem Declared.paths_nodup {parent : Option String} {forest : List (Shape MappingNode)}
    (declared : Declared parent forest) (spread : Spread forest)
    (undotted : ∀ field ∈ fieldsOf forest, '.' ∉ field.name.toList) :
    ((fieldsOf forest).map Field.path).Nodup := by
  induction declared with
  | nil => simp [fieldsOf]
  | @cons parent own below beside separated fits inside others ihBelow ihBeside =>
      obtain _ | ⟨fresh, spreadBelow, spreadBeside⟩ := spread
      rw [fieldsOf_cons] at undotted ⊢
      rw [List.forall_mem_cons, List.forall_mem_append] at undotted
      obtain ⟨here, undottedBelow, undottedBeside⟩ := undotted
      have own_covers : Covers (pathBelow parent own.name) own.path := Or.inl separated.path
      have apart := others.apart fresh here undottedBeside
      rw [List.map_cons, List.map_append, List.nodup_cons, List.mem_append, not_or,
        List.nodup_append]
      refine ⟨⟨fun again => ?_, fun again => ?_⟩, ihBelow spreadBelow undottedBelow,
        ihBeside spreadBeside undottedBeside, ?_⟩
      · obtain ⟨field, listed, same⟩ := List.mem_map.mp again
        have within := inside.within listed
        rw [same, isWithin_irrefl] at within
        cases within
      · obtain ⟨field, listed, same⟩ := List.mem_map.mp again
        exact apart field listed _ own_covers (Or.inl same.symm)
      · rintro path first other second rfl
        obtain ⟨field, listed, rfl⟩ := List.mem_map.mp first
        obtain ⟨beneath, known, same⟩ := List.mem_map.mp second
        have covers := covers_trans own_covers (Or.inr (inside.within listed))
        exact apart beneath known _ covers (Or.inl same.symm)

def Undotted (mapping : Mapping) : Prop :=
  ∀ entry ∈ mapping.declared, '.' ∉ entry.2.name.toList

instance (mapping : Mapping) : Decidable mapping.Undotted :=
  inferInstanceAs (Decidable (∀ entry ∈ mapping.declared, '.' ∉ entry.2.name.toList))

theorem nodes_ofShape (label : Keyed MappingNode) (fields : List (Shape MappingNode)) :
    (Tree.ofShape (.node label fields)).nodes.map Rose.shape =
      .node label fields :: preorderAll fields := by
  rw [Tree.nodes, ← preorderAll_shapes, Tree.ofShape, Option.toList_some, shapes_cons_eq,
    shape_number, shapes_nil, preorderAll_cons, preorderAll_nil, List.append_nil]

theorem declared_ofShape (parameters : Members) (fields : List (Shape MappingNode)) :
    (Mapping.mk (Tree.ofShape (.node ⟨none, .root parameters⟩ fields))).declared.map Prod.snd =
      fieldsOf fields := by
  have listed := congrArg (List.filterMap fun node => node.label.content.field?)
    (nodes_ofShape ⟨none, .root parameters⟩ fields)
  rw [List.filterMap_map, List.filterMap_cons_none rfl] at listed
  rw [fieldsOf, ← listed, Mapping.declared, List.map_filterMap]
  refine List.filterMap_congr fun node _ => ?_
  rw [Option.map_map, Function.comp_apply, content_shape]
  exact Option.map_id'

/-- A mapping that is read holds the fields of its declaration below a root. -/
theorem declared_ofJson {json : Json} {mapping : Mapping} (distinct : json.distinct = true)
    (read : ofJson json = .ok mapping) : ∃ parameters fields, Declared none fields ∧
      Spread fields ∧ mapping = ⟨Tree.ofShape (.node ⟨none, .root parameters⟩ fields)⟩ := by
  obtain ⟨members, fields, bare, below, rfl⟩ := ofJson_ok.mp read
  have contents := (Json.distinct_object.mp (distinct_bareDeclaration distinct bare)).2
  refine ⟨Members.takeOut "properties" members, fields, ?_⟩
  cases found : members.lookup "properties" with
  | none =>
      simp only [found] at below
      cases Result.pure_ok.mp below
      exact ⟨.nil, .nil, rfl⟩
  | some properties =>
      simp only [found] at below
      have inside := Json.distinct_lookup contents found
      exact ⟨declared_readProperties properties inside below,
        spread_readProperties properties inside below, rfl⟩

theorem Undotted.fields {parameters : Members} {fields : List (Shape MappingNode)}
    (undotted : (Mapping.mk (Tree.ofShape (.node ⟨none, .root parameters⟩ fields))).Undotted) :
    ∀ field ∈ fieldsOf fields, '.' ∉ field.name.toList := by
  intro field listed
  rw [← declared_ofShape parameters] at listed
  obtain ⟨entry, member, rfl⟩ := List.mem_map.mp listed
  exact undotted entry member

theorem paths_distinct {json : Json} {mapping : Mapping} (distinct : json.distinct = true)
    (read : ofJson json = .ok mapping) (undotted : mapping.Undotted) :
    (mapping.declared.map (·.2.path)).Nodup := by
  obtain ⟨parameters, fields, declared, spread, rfl⟩ := declared_ofJson distinct read
  have nodup := declared.paths_nodup spread undotted.fields
  rwa [← declared_ofShape parameters, List.map_map] at nodup

/-! ### Scopes -/

variable {mapping : Mapping}

theorem declared_of_lookup? {path : String} {entry : Nat × Field}
    (found : mapping.lookup? path = some entry) :
    entry ∈ mapping.declared ∧ entry.2.path = path :=
  ⟨List.mem_reverse.mp (List.mem_of_find?_eq_some found), by simpa using List.find?_some found⟩

theorem resolve_ok {path : String} {id : Nat} {type : FieldType}
    (resolved : mapping.resolve path = .ok (id, type)) :
    (∃ field, mapping.lookup? path = some (id, field)) ∨ mapping.lookup? path = none ∧
      ∃ owner name field, Text.splitLast? '.' path = some (owner, name) ∧
        mapping.lookup? owner = some (id, field) := by
  unfold resolve at resolved
  split at resolved
  · rename_i found
    cases resolved
    exact Or.inl ⟨_, found⟩
  · rename_i absent
    split at resolved
    · rename_i found
      cases resolved
      simp only [subfieldOwner?, Option.bind_eq_bind, Option.bind_eq_some_iff] at found
      obtain ⟨⟨owner, name⟩, cut, ⟨_, field⟩, known, _, _, same⟩ := found
      cases same
      exact Or.inr ⟨absent, owner, name, field, cut, known⟩
    · cases resolved

theorem declared_of_resolve {path : String} {id : Nat} {type : FieldType}
    (resolved : mapping.resolve path = .ok (id, type)) :
    ∃ field, (id, field) ∈ mapping.declared := by
  rcases resolve_ok resolved with ⟨field, found⟩ | ⟨_, _, _, field, _, found⟩
  · exact ⟨field, (declared_of_lookup? found).1⟩
  · exact ⟨field, (declared_of_lookup? found).1⟩

theorem nested_of_nestedScopes {path scope : String} {scopes : List String}
    (found : mapping.nestedScopes path = .ok scopes) (listed : scope ∈ scopes) :
    ∃ entry ∈ mapping.declared, entry.2.path = scope ∧ entry.2.isNested = true := by
  simp only [nestedScopes, Result.bind_ok, Result.pure_ok] at found
  obtain ⟨⟨id, type⟩, resolved, rfl⟩ := found
  obtain ⟨field, known⟩ := declared_of_resolve resolved
  obtain ⟨node, member, held⟩ := List.mem_filterMap.mp known
  obtain ⟨_, _, same⟩ := Option.map_eq_some_iff.mp held
  cases same
  obtain ⟨passed, onWay, opens⟩ := List.mem_filterMap.mp listed
  simp only [openedScope?, Option.bind_eq_bind, Option.bind_eq_some_iff] at opens
  obtain ⟨opened, content, nested⟩ := opens
  split at nested
  · rename_i isNested
    cases nested
    have reached := mem_nodes_of_ancestry member onWay
    refine ⟨(passed.id, opened), List.mem_filterMap.mpr ⟨passed, reached, ?_⟩, rfl, isNested⟩
    rw [content]
    rfl
  · cases nested

def DeclaredOnce (mapping : Mapping) (path : String) : Prop :=
  ∀ first ∈ mapping.declared, ∀ second ∈ mapping.declared,
    first.2.path = path → second.2.path = path → first = second

theorem declaredOnce_of_nodup (distinct : (mapping.declared.map (·.2.path)).Nodup)
    (path : String) : mapping.DeclaredOnce path :=
  fun _ first _ second same again => List.inj_on_of_nodup_map distinct first second
    (same.trans again.symm)

theorem exists_lookup? {entry : Nat × Field} (member : entry ∈ mapping.declared) :
    ∃ found, mapping.lookup? entry.2.path = some found := by
  rw [← Option.isSome_iff_exists, lookup?, List.find?_isSome]
  exact ⟨entry, List.mem_reverse.mpr member, by simp⟩

theorem lookup?_of_once {entry : Nat × Field} (once : mapping.DeclaredOnce entry.2.path)
    (member : entry ∈ mapping.declared) : mapping.lookup? entry.2.path = some entry := by
  obtain ⟨found, here⟩ := exists_lookup? member
  obtain ⟨known, same⟩ := declared_of_lookup? here
  rw [here, once found known entry member same rfl]

theorem lookup?_of_declared (distinct : (mapping.declared.map (·.2.path)).Nodup)
    {entry : Nat × Field} (member : entry ∈ mapping.declared) :
    mapping.lookup? entry.2.path = some entry :=
  lookup?_of_once (declaredOnce_of_nodup distinct entry.2.path) member

theorem isNested_of_declared (distinct : (mapping.declared.map (·.2.path)).Nodup)
    {entry : Nat × Field} (member : entry ∈ mapping.declared) :
    mapping.isNested entry.2.path = entry.2.isNested := by
  rw [isNested, lookup?_of_declared distinct member]

end Mapping

end ScopedClauses
