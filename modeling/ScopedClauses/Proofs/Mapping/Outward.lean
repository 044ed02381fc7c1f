import ScopedClauses.Proofs.Mapping.Index

/-!
Scopes lead outwards. Whatever the names of fields, a field below another one has a path below its
path, so that each scope around a path lies strictly within the scopes that follow it.
-/

namespace ScopedClauses

namespace Mapping

open Rose Tree

variable {mapping : Mapping}

theorem Declared.inside {parent : Option String} {forest : List (Shape MappingNode)}
    (declared : Declared parent forest) {node : Shape MappingNode}
    (member : node ∈ preorderAll forest) {field : Field}
    (holds : node.label.content = .field field) : Declared (some field.path) node.children := by
  induction declared with
  | nil => simp at member
  | @cons parent own below beside separated fits inside others ihBelow ihBeside =>
      simp only [preorderAll_cons, List.mem_cons, List.mem_append] at member
      rcases member with rfl | under | after
      · cases holds
        exact inside
      · exact ihBelow under
      · exact ihBeside after

theorem isWithin_of_below {json : Json} (distinct : json.distinct = true)
    (read : ofJson json = .ok mapping) {outer inner : Branch MappingNode}
    (member : outer ∈ mapping.tree.nodes) (below : inner ∈ preorderAll outer.children)
    {around field : Field} (holds : outer.content = .field around)
    (content : inner.content = .field field) : isWithin field.path around.path = true := by
  obtain ⟨parameters, fields, declared, _, rfl⟩ := declared_ofJson distinct read
  have inside := declared.inside (shape_mem_fields member holds) (by rw [content_shape, holds])
  rw [children_shape] at inside
  refine inside.within (List.mem_filterMap.mpr ⟨inner.shape, ?_, by rw [content_shape, content]; rfl⟩)
  rw [preorderAll_shapes]
  exact List.mem_map_of_mem below

theorem covers_of_resolve {path : String} {id : Nat} {type : FieldType}
    (resolved : mapping.resolve path = .ok (id, type)) :
    ∃ field, (id, field) ∈ mapping.declared ∧ Covers field.path path := by
  rcases resolve_ok resolved with ⟨field, found⟩ | ⟨_, owner, name, field, cut, found⟩
  · obtain ⟨member, same⟩ := declared_of_lookup? found
    exact ⟨field, member, Or.inl same.symm⟩
  · obtain ⟨member, same⟩ := declared_of_lookup? found
    obtain ⟨whole, _⟩ := splitLast?_ok cut
    exact ⟨field, member, Or.inr (isWithin_iff.mpr ⟨name.toList, by rw [whole, same]⟩)⟩

theorem openedScope?_eq_some {node : Branch MappingNode} {path : String} :
    openedScope? node = some path ↔
      ∃ field, node.content = .field field ∧ field.isNested = true ∧ field.path = path :=
  @scope?_eq_some node.label path

/-- The scopes around a path cover it, and each lies strictly within those that follow it. -/
theorem nestedScopes_outward {json : Json} (distinct : json.distinct = true)
    (read : ofJson json = .ok mapping) {path : String} {scopes : List String}
    (found : mapping.nestedScopes path = .ok scopes) :
    (∀ scope ∈ scopes, Covers scope path) ∧
      scopes.Pairwise fun inner outer => isWithin inner outer = true := by
  obtain ⟨⟨id, type⟩, resolved, found⟩ := Result.bind_ok.mp found
  cases Result.pure_ok.mp found
  obtain ⟨field, known, covers⟩ := covers_of_resolve resolved
  obtain ⟨node, member, rfl, content⟩ := mem_declared.mp known
  have settled := (numbered_ofJson distinct read).1
  have numbered : mapping.tree.Numbered := by
    obtain ⟨_, _, _, _, rfl⟩ := declared_ofJson distinct read
    exact numbered_ofShape _
  have live : node ∈ mapping.tree.live := nodes_eq_live settled ▸ member
  have nested := ancestry_pairwise numbered live
  have passed : ∀ {passed}, passed ∈ mapping.tree.ancestry node.id → passed ∈ mapping.tree.nodes :=
    fun onWay => mem_nodes_of_ancestry member onWay
  constructor
  · intro scope listed
    obtain ⟨opener, onWay, opens⟩ := List.mem_filterMap.mp listed
    obtain ⟨around, holds, _, rfl⟩ := openedScope?_eq_some.mp opens
    obtain ⟨outward, way, _⟩ := ancestry_of_live numbered live
    have reached := passed onWay
    rw [way] at onWay nested
    rcases List.mem_cons.mp onWay with rfl | further
    · cases content.symm.trans holds
      exact covers
    · have below := (List.pairwise_cons.mp nested).1 opener further
      exact Or.inr (isWithin_of_covers (isWithin_of_below distinct read reached below holds content)
        covers)
  · refine List.pairwise_filterMap.mpr (nested.imp_of_mem ?_)
    intro inner outer _ onWay below scope opens around opened
    obtain ⟨_, innerHolds, _, rfl⟩ := openedScope?_eq_some.mp opens
    obtain ⟨_, outerHolds, _, rfl⟩ := openedScope?_eq_some.mp opened
    exact isWithin_of_below distinct read (passed onWay) below outerHolds innerHolds

/-- The second of the scopes around a path lies strictly around the path. -/
theorem isWithin_of_second {json : Json} (distinct : json.distinct = true)
    (read : ofJson json = .ok mapping) {path outer : String} {scopes : List String}
    (found : mapping.nestedScopes path = .ok scopes) (second : scopes[1]? = some outer) :
    isWithin path outer = true := by
  obtain ⟨covers, descends⟩ := nestedScopes_outward distinct read found
  match scopes, second with
  | first :: _ :: rest, rfl =>
      have within := (List.pairwise_cons.mp descends).1 outer List.mem_cons_self
      exact isWithin_of_covers within (covers first List.mem_cons_self)

end Mapping

end ScopedClauses
