import ScopedClauses.Proofs.Mapping.Paths
import ScopedClauses.Proofs.Tree.Running

/-!
The scopes around declared fields. Where no name has a dot in it, the fields above a field are
those that its path goes through, so that the scopes around a field can be told from paths alone,
and each of them has the scopes outside it around itself.
-/

namespace ScopedClauses

namespace Mapping

open Rose Tree

/-! ### Fields above fields -/

theorem mem_fieldsOf {forest : List (Shape MappingNode)} {node : Shape MappingNode}
    (member : node ∈ preorderAll forest) {field : Field}
    (holds : node.label.content = .field field) : field ∈ fieldsOf forest :=
  List.mem_filterMap.mpr ⟨node, member, by rw [holds]; rfl⟩

theorem Declared.covers_below {parent : Option String} {forest : List (Shape MappingNode)}
    (declared : Declared parent forest) {node : Shape MappingNode}
    (member : node ∈ preorderAll forest) {outer : Field}
    (holds : node.label.content = .field outer) {field : Field}
    (listed : field ∈ fieldsOf [node]) : Covers outer.path field.path := by
  induction declared with
  | nil => simp at member
  | @cons parent own below beside separated fits inside others ihBelow ihBeside =>
      simp only [preorderAll_cons, List.mem_cons, List.mem_append] at member
      rcases member with rfl | under | after
      · cases holds
        rw [fieldsOf_cons, List.mem_cons, List.mem_append] at listed
        rcases listed with rfl | under | absent
        · exact Or.inl rfl
        · exact Or.inr (inside.within under)
        · cases absent
      · exact ihBelow under
      · exact ihBeside after

/-- A field whose path goes through another field is declared below it. -/
theorem Declared.below_of_covers {parent : Option String} {forest : List (Shape MappingNode)}
    (declared : Declared parent forest) (spread : Spread forest)
    (undotted : ∀ field ∈ fieldsOf forest, '.' ∉ field.name.toList)
    {node : Shape MappingNode} (member : node ∈ preorderAll forest) {outer : Field}
    (holds : node.label.content = .field outer) {field : Field} (listed : field ∈ fieldsOf forest)
    (covers : Covers outer.path field.path) : field ∈ fieldsOf [node] := by
  induction declared with
  | nil => simp at member
  | @cons parent own below beside separated fits inside others ihBelow ihBeside =>
      obtain _ | ⟨fresh, spreadBelow, spreadBeside⟩ := spread
      rw [fieldsOf_cons, List.forall_mem_cons, List.forall_mem_append] at undotted
      obtain ⟨here, undottedBelow, undottedBeside⟩ := undotted
      have apart := others.apart fresh here undottedBeside
      have own_covers : ∀ inner, inner = own ∨ inner ∈ fieldsOf below →
          Covers (pathBelow parent own.name) inner.path := by
        rintro inner (rfl | under)
        · exact Or.inl separated.path
        · exact separated.path ▸ Or.inr (inside.within under)
      simp only [preorderAll_cons, List.mem_cons, List.mem_append] at member
      rw [fieldsOf_cons, List.mem_cons, List.mem_append] at listed
      rcases member with rfl | under | after
      · -- at the field itself, only what stands beside it could be elsewhere
        cases holds
        rw [fieldsOf_cons, List.mem_cons, List.mem_append]
        rcases listed with same | inner | outside
        · exact Or.inl same
        · exact Or.inr (Or.inl inner)
        · exact absurd (Or.inl rfl)
            (apart field outside _ (covers_trans (own_covers _ (Or.inl rfl)) covers))
      · have above := mem_fieldsOf under holds
        rcases listed with rfl | inner | outside
        · have round := isWithin_of_covers (inside.within above) covers
          rw [isWithin_irrefl] at round
          cases round
        · exact ihBelow spreadBelow undottedBelow under inner
        · exact absurd (Or.inl rfl)
            (apart field outside _ (covers_trans (own_covers outer (Or.inr above)) covers))
      · have above := mem_fieldsOf after holds
        rcases or_assoc.mpr listed with inner | outside
        · exact absurd covers (apart outer above _ (own_covers field inner))
        · exact ihBeside spreadBeside undottedBeside after outside

structure Orderly (mapping : Mapping) : Prop where
  settled : mapping.tree.detached = []
  distinct : (numbers mapping.tree.branches).Nodup
  paths : (mapping.declared.map (·.2.path)).Nodup
  covers : ∀ outer ∈ mapping.declared, ∀ inner ∈ mapping.declared,
    outer.1 ∈ (lineage inner.1 mapping.tree.branches).map Entry.id ↔
      Covers outer.2.path inner.2.path

variable {mapping : Mapping}

theorem mem_declared {entry : Nat × Field} : entry ∈ mapping.declared ↔
    ∃ node ∈ mapping.tree.nodes, node.id = entry.1 ∧ node.content = .field entry.2 := by
  rw [declared, List.mem_filterMap]
  constructor
  · rintro ⟨node, member, held⟩
    obtain ⟨field, content, rfl⟩ := Option.map_eq_some_iff.mp held
    refine ⟨node, member, rfl, ?_⟩
    cases holds : node.content with
    | root parameters => simp [holds, MappingNode.field?] at content
    | field own =>
        rw [holds] at content
        cases content
        rfl
  · rintro ⟨node, member, same, holds⟩
    exact ⟨node, member, by rw [holds, same]; rfl⟩

theorem declared_of_node {node : Branch MappingNode} (member : node ∈ mapping.tree.nodes)
    {field : Field} (holds : node.content = .field field) : (node.id, field) ∈ mapping.declared :=
  mem_declared.mpr ⟨node, member, rfl, holds⟩

theorem field_mem_fieldsOf {node inner : Branch MappingNode} (inside : inner ∈ preorderAll [node])
    {field : Field} (holds : inner.content = .field field) : field ∈ fieldsOf [node.shape] := by
  have listed := List.mem_map_of_mem (f := Rose.shape) inside
  rw [← preorderAll_shapes, shapes_cons_eq, shapes_nil] at listed
  exact mem_fieldsOf listed (by rw [content_shape, holds])

theorem exists_of_mem_fieldsOf {node : Branch MappingNode} {field : Field}
    (listed : field ∈ fieldsOf [node.shape]) :
    ∃ inner ∈ preorderAll [node], inner.content = .field field := by
  obtain ⟨shape, member, held⟩ := List.mem_filterMap.mp listed
  rw [← shapes_nil, ← shapes_cons_eq, preorderAll_shapes] at member
  obtain ⟨inner, inside, rfl⟩ := List.mem_map.mp member
  rw [content_shape] at held
  cases holds : inner.content with
  | root parameters => simp [holds, MappingNode.field?] at held
  | field own =>
      rw [holds] at held
      cases held
      exact ⟨inner, inside, holds⟩

theorem shape_mem_fields {parameters : Members} {fields : List (Shape MappingNode)}
    {node : Branch MappingNode}
    (member : node ∈ (Tree.ofShape (.node ⟨none, .root parameters⟩ fields)).nodes) {field : Field}
    (holds : node.content = .field field) : node.shape ∈ preorderAll fields := by
  have listed := List.mem_map_of_mem (f := Rose.shape) member
  rw [nodes_ofShape, List.mem_cons] at listed
  refine listed.resolve_left fun root => ?_
  have content := content_shape node
  rw [root, holds] at content
  cases content

theorem orderly_ofJson {json : Json} (distinct : json.distinct = true)
    (read : ofJson json = .ok mapping) (undotted : mapping.Undotted) : mapping.Orderly := by
  have paths := paths_distinct distinct read undotted
  obtain ⟨parameters, fields, declared, spread, rfl⟩ := declared_ofJson distinct read
  have numbered := (numbered_ofShape (.node ⟨none, .root parameters⟩ fields)).distinct
  refine ⟨rfl, numbered, paths, fun outer above inner known => ?_⟩
  obtain ⟨node, member, id, holds⟩ := mem_declared.mp above
  obtain ⟨lower, live, lowerId, lowerHolds⟩ := mem_declared.mp known
  have shaped := shape_mem_fields member holds
  have shapedHolds : node.shape.label.content = .field outer.2 := by rw [content_shape, holds]
  have listed : inner.2 ∈ fieldsOf fields := by
    rw [← declared_ofShape parameters]
    exact List.mem_map_of_mem known
  rw [← id, passes_iff numbered member]
  constructor
  · intro present
    obtain ⟨found, inside, same⟩ := exists_of_mem_numbers present
    have again := eq_of_id numbered (mem_preorderAll_of_branch _ member inside) live
      (same.trans lowerId.symm)
    exact declared.covers_below shaped shapedHolds
      (field_mem_fieldsOf inside (again ▸ lowerHolds))
  · intro covers
    obtain ⟨found, inside, foundHolds⟩ := exists_of_mem_fieldsOf
      (declared.below_of_covers spread undotted.fields shaped shapedHolds listed covers)
    have again := declared_of_node (mem_preorderAll_of_branch _ member inside) foundHolds
    rw [← List.inj_on_of_nodup_map paths again known rfl]
    exact id_mem_numbers inside

/-! ### Scopes of fields -/

def scope? (entry : Entry MappingNode) : Option String := do
  let field ← entry.content.field?
  if field.isNested then some field.path else none

def scopesAt (mapping : Mapping) (id : Nat) : List String :=
  (lineage id mapping.tree.branches).filterMap scope?

theorem nestedScopes_ok {path : String} {scopes : List String} :
    mapping.nestedScopes path = .ok scopes ↔
      ∃ id type, mapping.resolve path = .ok (id, type) ∧ mapping.scopesAt id = scopes := by
  have opened : ∀ id, (mapping.tree.ancestry id).filterMap openedScope? = mapping.scopesAt id := by
    intro id
    rw [scopesAt, lineage, List.filterMap_map]
    rfl
  simp only [nestedScopes, Result.bind_ok, Result.pure_ok, opened, Prod.exists]

theorem exists_nestedScopes {path : String} (known : mapping.contains path = true) :
    ∃ scopes, mapping.nestedScopes path = .ok scopes := by
  rw [contains] at known
  cases resolved : mapping.resolve path with
  | error error =>
      rw [resolved] at known
      cases known
  | ok found => exact ⟨_, nestedScopes_ok.mpr ⟨found.1, found.2, resolved, rfl⟩⟩

theorem scope?_eq_some {entry : Entry MappingNode} {path : String} : scope? entry = some path ↔
    ∃ field, entry.content = .field field ∧ field.isNested = true ∧ field.path = path := by
  rw [scope?]
  cases entry.content with
  | root parameters => simp [MappingNode.field?]
  | field own => simp [MappingNode.field?]

def Chained (mapping : Mapping) : List String → Prop
  | [] => True
  | path :: outer => mapping.nestedScopes path = .ok (path :: outer) ∧ mapping.Chained outer

theorem chained_suffix {front back : List String} (chained : mapping.Chained (front ++ back)) :
    mapping.Chained back := by
  induction front with
  | nil => exact chained
  | cons path rest ih => exact ih chained.2

theorem Chained.nodup {trail : List String} (chained : mapping.Chained trail) : trail.Nodup := by
  induction trail with
  | nil => exact List.nodup_nil
  | cons path outer ih =>
      refine List.nodup_cons.mpr ⟨fun again => ?_, ih chained.2⟩
      obtain ⟨front, back, rfl⟩ := List.append_of_mem again
      have here := (chained_suffix chained.2).1
      rw [chained.1] at here
      have lengths := congrArg List.length (Except.ok.inj here)
      simp only [List.length_cons, List.length_append] at lengths
      omega

theorem declared_of_isNested {path : String} (nested : mapping.isNested path = true) :
    ∃ entry ∈ mapping.declared, entry.2.path = path ∧ entry.2.isNested = true := by
  rw [isNested] at nested
  split at nested
  · rename_i id field found
    obtain ⟨member, same⟩ := declared_of_lookup? found
    exact ⟨(id, field), member, same, nested⟩
  · cases nested

theorem nodes_of_settled (settled : mapping.tree.detached = []) :
    mapping.tree.nodes = preorderAll mapping.tree.branches := by
  rw [Tree.nodes, branches_of_settled settled]

theorem nestedScopes_of_lookup? {path : String} {entry : Nat × Field}
    (found : mapping.lookup? path = some entry) :
    mapping.nestedScopes path = .ok (mapping.scopesAt entry.1) := by
  refine nestedScopes_ok.mpr ⟨entry.1, entry.2.type, ?_, rfl⟩
  rw [resolve, found]
  rfl

theorem declared_of_lineage (settled : mapping.tree.detached = []) {id : Nat}
    {entry : Entry MappingNode} (passed : entry ∈ lineage id mapping.tree.branches) {field : Field}
    (holds : entry.content = .field field) : (entry.id, field) ∈ mapping.declared := by
  obtain ⟨node, member, rfl⟩ := exists_of_mem_lineage passed
  exact declared_of_node (nodes_of_settled settled ▸ member) holds

/-- A scope that is passed on the way outwards has around itself what is passed from there on. -/
theorem nestedScopes_of_lineage (settled : mapping.tree.detached = [])
    (distinct : (numbers mapping.tree.branches).Nodup) {id : Nat} {entry : Entry MappingNode}
    {front outward : List (Entry MappingNode)}
    (way : lineage id mapping.tree.branches = front ++ entry :: outward) {path : String}
    (opens : scope? entry = some path) (once : mapping.DeclaredOnce path) :
    mapping.nestedScopes path = .ok (path :: outward.filterMap scope?) := by
  obtain ⟨field, holds, _, rfl⟩ := scope?_eq_some.mp opens
  have passed : entry ∈ lineage id mapping.tree.branches := by simp [way]
  have known := declared_of_lineage settled passed holds
  rw [nestedScopes_of_lookup? (lookup?_of_once once known), scopesAt,
    lineage_suffix distinct way, List.filterMap_cons_some opens]

namespace Orderly

variable (orderly : mapping.Orderly)

include orderly

theorem nestedScopes_declared {entry : Nat × Field} (member : entry ∈ mapping.declared) :
    mapping.nestedScopes entry.2.path = .ok (mapping.scopesAt entry.1) :=
  nestedScopes_of_lookup? (lookup?_of_declared orderly.paths member)

theorem chained_scopesAt (id : Nat) : mapping.Chained (mapping.scopesAt id) := by
  -- along the way outwards, what is left of it is the way of its first entry
  suffices left : ∀ way front, lineage id mapping.tree.branches = front ++ way →
      mapping.Chained (way.filterMap scope?) from left _ [] rfl
  intro way
  induction way with
  | nil => exact fun _ _ => trivial
  | cons entry way ih =>
      intro front same
      have outer := ih (front ++ [entry]) (by simp [same])
      cases opens : scope? entry with
      | none => rwa [List.filterMap_cons_none opens]
      | some path =>
          rw [List.filterMap_cons_some opens]
          exact ⟨nestedScopes_of_lineage orderly.settled orderly.distinct same opens
            (declaredOnce_of_nodup orderly.paths path), outer⟩

/-- Each scope around a field has the scopes outside it around itself. -/
theorem chained {path : String} {scopes : List String}
    (found : mapping.nestedScopes path = .ok scopes) : mapping.Chained scopes := by
  obtain ⟨id, _, _, rfl⟩ := nestedScopes_ok.mp found
  exact orderly.chained_scopesAt id

theorem scope?_eq_of_lineage {id : Nat} {entry : Entry MappingNode}
    (passed : entry ∈ lineage id mapping.tree.branches) {outer : Nat × Field}
    (above : outer ∈ mapping.declared) (same : entry.id = outer.1)
    (nested : outer.2.isNested = true) : scope? entry = some outer.2.path := by
  obtain ⟨node, member, rfl⟩ := exists_of_mem_lineage passed
  obtain ⟨top, live, id, holds⟩ := mem_declared.mp above
  rw [nodes_of_settled orderly.settled] at live
  obtain rfl := eq_of_id orderly.distinct member live (same.trans id.symm)
  exact scope?_eq_some.mpr ⟨outer.2, holds, nested, rfl⟩

theorem mem_scopesAt {outer inner : Nat × Field} (above : outer ∈ mapping.declared)
    (nested : outer.2.isNested = true) (known : inner ∈ mapping.declared) :
    outer.2.path ∈ mapping.scopesAt inner.1 ↔ Covers outer.2.path inner.2.path := by
  rw [← orderly.covers outer above inner known, scopesAt, List.mem_filterMap]
  constructor
  · rintro ⟨entry, passed, opens⟩
    obtain ⟨field, holds, _, same⟩ := scope?_eq_some.mp opens
    have again := declared_of_lineage orderly.settled passed holds
    rw [← List.inj_on_of_nodup_map orderly.paths again above same]
    exact List.mem_map_of_mem passed
  · intro passed
    obtain ⟨entry, onWay, same⟩ := List.mem_map.mp passed
    exact ⟨entry, onWay, orderly.scope?_eq_of_lineage onWay above same nested⟩

theorem nestedScopes_nested {path : String} (nested : mapping.isNested path = true) :
    ∃ outer, mapping.nestedScopes path = .ok (path :: outer) := by
  obtain ⟨entry, member, rfl, opens⟩ := declared_of_isNested nested
  obtain ⟨node, live, same, _⟩ := mem_declared.mp member
  have present : entry.1 ∈ numbers mapping.tree.branches :=
    same ▸ id_mem_numbers (nodes_of_settled orderly.settled ▸ live)
  obtain ⟨first, outward, way, id⟩ := lineage_head present
  have passed : first ∈ lineage entry.1 mapping.tree.branches := by simp [way]
  refine ⟨outward.filterMap scope?, ?_⟩
  rw [orderly.nestedScopes_declared member, scopesAt, way,
    List.filterMap_cons_some (orderly.scope?_eq_of_lineage passed member id opens)]

theorem isNested_of_nestedScopes {path scope : String} {scopes : List String}
    (found : mapping.nestedScopes path = .ok scopes) (listed : scope ∈ scopes) :
    mapping.isNested scope = true := by
  obtain ⟨entry, member, rfl, opens⟩ := nested_of_nestedScopes found listed
  rw [isNested_of_declared orderly.paths member, opens]

theorem isWithin_iff_mem {scope target : String} {outer : List String}
    (own : mapping.nestedScopes scope = .ok (scope :: outer))
    (nested : mapping.isNested target = true) : isWithin scope target = true ↔ target ∈ outer := by
  obtain ⟨inner, known, rfl, _⟩ := nested_of_nestedScopes own List.mem_cons_self
  obtain ⟨above, member, rfl, opens⟩ := declared_of_isNested nested
  have scopes := orderly.mem_scopesAt member opens known
  have chain := orderly.chained own
  rw [← Except.ok.inj (own.symm.trans (orderly.nestedScopes_declared known)), List.mem_cons,
    Covers] at scopes
  constructor
  · intro within
    refine (scopes.mpr (Or.inr within)).resolve_left fun same => ?_
    rw [same, isWithin_irrefl] at within
    cases within
  · intro listed
    refine (scopes.mp (Or.inr listed)).resolve_left fun same => ?_
    exact (List.nodup_cons.mp chain.nodup).1 (same ▸ listed)

end Orderly

end Mapping

end ScopedClauses
