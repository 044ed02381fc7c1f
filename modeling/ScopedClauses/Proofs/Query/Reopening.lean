import ScopedClauses.Proofs.Query.Joining

/-!
Clauses that are found again. A clause comes behind those met at its position, whether it was put
into a slot, joined with the clause in the way, or put at the top, and so the `nested` clause opened
for a path stays the first one for it.
-/

namespace ScopedClauses

namespace Query

open Rose Tree Weaving QueryNode

variable {query middle final : Query} {position : Position} {compound slot id occupant : Nat}
  {name : String} {node : QueryNode} {key : Option String}

structure Puts (query : Query) (position : Position) (id : Nat) (node : QueryNode) (final : Query) :
    Prop where
  widens : query.Widens final
  behind : final.clausesAt position = query.clausesAt position ++ [id]
  content : final.tree.get? id = some node
  scope : final.positionScope position = query.positionScope position

theorem Puts.after (widens : query.Widens middle)
    (same : middle.clausesAt position = query.clausesAt position)
    (known : ∀ compound name, position = .slot compound name →
      ∃ node, query.tree.get? compound = some node)
    (puts : middle.Puts position id node final) : query.Puts position id node final :=
  ⟨widens.trans puts.widens, same ▸ puts.behind, puts.content,
    puts.scope.trans (widens.positionScope known)⟩

theorem known_of_held_position (numbered : query.tree.Numbered) (held : query.held? position = some id) :
    ∀ compound name, position = .slot compound name →
      ∃ node, query.tree.get? compound = some node := by
  rintro compound name rfl
  obtain ⟨slot, found, _⟩ := Option.bind_eq_some_iff.mp held
  exact (slot_of_found numbered found).2.1

theorem known_of_effective (numbered : query.tree.Numbered)
    (effective : query.effective position = .slot compound name)
    (known : ∃ node, query.tree.get? compound = some node) :
    ∀ own parameter, position = .slot own parameter →
      ∃ node, query.tree.get? own = some node := by
  rcases bool_or_plain query position with ⟨clause, held, bool⟩ | plain
  · exact known_of_held_position numbered held
  · rw [effective_of_plain plain] at effective
    rintro own parameter rfl
    cases effective
    exact known

theorem puts_insertNode (numbered : query.tree.Numbered) (plain : node.isBool = false)
    (effective : query.effective position = .slot compound name)
    (found : query.findSlot? compound name = some slot)
    (inserted : query.insertNode node key slot = .ok (id, final)) :
    query.Puts position id node final := by
  obtain ⟨⟨number, tree⟩, made, same⟩ := Result.bind_ok.mp inserted
  cases Result.pure_ok.mp same
  have planted : Planted query.tree slot id node tree := planted_insert numbered made
  let grown : Query := { query with tree := tree }
  have plants : Planted query.tree slot id node grown.tree := planted
  have widens : query.Widens grown := widens_planted plants numbered plain
  refine ⟨widens, ?_, (planted.contents id).trans (if_pos rfl), widens.positionScope
    (known_of_effective numbered effective (slot_of_found numbered found).2.1)⟩
  rw [clausesAt_of_effective effective, slotted_of_found found,
    clausesAt_of_effective ((effective_planted plants numbered plain).trans effective),
    slotted_of_found (findSlot?_planted plants numbered found), plants.children, if_pos rfl]

theorem ensureSlot_widens (numbered : query.tree.Numbered)
    (ensured : query.ensureSlot compound name = .ok (slot, middle)) :
    middle.findSlot? compound name = some slot ∧ query.Widens middle ∧
      (∃ node, query.tree.get? compound = some node) ∧
      ∀ position, query.effective position = .slot compound name →
        middle.effective position = .slot compound name ∧
          middle.clausesAt position = query.clausesAt position := by
  cases found : query.findSlot? compound name with
  | some old =>
      rw [ensureSlot, found] at ensured
      cases Result.pure_ok.mp ensured
      exact ⟨found, .refl query, (slot_of_found numbered found).2.1,
        fun position effective => ⟨effective, rfl⟩⟩
  | none =>
      simp only [ensureSlot, found, Result.bind_ok] at ensured
      obtain ⟨holder, got, opened⟩ := ensured
      split at opened
      · split at opened
        · rename_i clause place declares
          obtain ⟨⟨made, tree⟩, inserted, same⟩ := Result.bind_ok.mp opened
          cases Result.pure_ok.mp same
          let grown : Query := { query with tree := tree }
          have plants : Planted query.tree compound made (.slot place) grown.tree :=
            planted_insert numbered inserted
          have widens : query.Widens grown := widens_planted plants numbered rfl
          have new : grown.findSlot? compound name = some made := by
            have named := CompoundKind.slot?_name declares
            rw [findSlot?] at found ⊢
            rw [plants.findChild? numbered, found, Option.none_or]
            simp [QueryNode.slot?, named]
          refine ⟨new, widens, plants.holder, fun position effective => ?_⟩
          have stays := (effective_planted plants numbered rfl).trans effective
          have empty : query.slotted compound name = [] := by rw [slotted, found]
          refine ⟨stays, ?_⟩
          rw [clausesAt_of_effective effective, clausesAt_of_effective stays, empty,
            slotted_of_found new]
          exact children_planted plants numbered
        · cases opened
      · cases opened

theorem puts_joinWith (structured : query.Structured Known) (plain : node.isBool = false)
    (held : query.held? position = some occupant) (single : query.isBool occupant = false)
    (wraps : ∀ {outer must : Nat} {middle : Query},
      query.wrapInBool occupant = .ok (outer, must, middle) → query.Wraps occupant outer must middle)
    (joined : query.joinWith node key occupant = .ok (id, final)) :
    query.Puts position id node final := by
  obtain ⟨⟨outer, must, middle⟩, wrapped, inserted⟩ := Result.bind_ok.mp joined
  have joins := wraps wrapped
  have moved := joins.held?_outer structured held
  have before : ∀ clause, query.held? position = some clause → query.isBool clause = false := by
    intro clause same
    rw [held] at same
    cases same
    exact single
  have puts : middle.Puts position id node final := puts_insertNode joins.numbered plain
    (effective_of_bool moved joins.bool) joins.found inserted
  refine puts.after (joins.widens structured single) ?_
    (known_of_held_position structured.numbered held)
  rw [clausesAt_of_plain before, joins.standing_held held, clausesAt_of_bool moved joins.bool,
    joins.slotted_must]

theorem puts_first (whole : query.Whole) (plain : node.isBool = false)
    (empty : query.tree.rootId? = none)
    (placed : query.place .top node key = .ok (id, final)) : query.Puts .top id node final := by
  have bare : query.tree.root = none := Option.map_eq_none_iff.mp empty
  have nowhere : ∀ {number known}, query.tree.get? number ≠ some known := by
    intro number known got
    have present := mem_numbers_of_get? got
    simp [branches_of_root whole, bare] at present
  have stays : query.effective .top = .top :=
    effective_of_plain fun clause held => by simp [held?, empty] at held
  simp only [place, stays, empty, insertRoot, bare, Result.pure_bind] at placed
  cases Result.pure_ok.mp placed
  let grown : Query := query.withTree
    ⟨some (bud key node query.tree.next), query.tree.detached, query.tree.next + 1⟩
  have content : grown.tree.get? query.tree.next = some node := by
    simp [grown, withTree, bud, Tree.get?, Tree.find?, ancestry, branches, pathAny?, path?]
  have alone : ∀ clause, grown.held? .top = some clause → grown.isBool clause = false := by
    intro clause held
    cases held
    exact (isBool_of_get? content).trans plain
  refine ⟨⟨fun got => absurd got nowhere, fun got => absurd got nowhere, fun position => ?_⟩, ?_,
    content, rfl⟩
  · have nothing : query.clausesAt position = [] :=
      List.eq_nil_iff_forall_not_mem.mpr fun number met =>
        (known_of_met whole.numbered met).1.elim fun known got => nowhere got
    rw [nothing]
    exact List.nil_prefix
  · have before : query.clausesAt .top = [] := by rw [clausesAt, stays, empty]; rfl
    rw [before]
    exact clausesAt_of_plain alone

theorem puts_top (structured : query.Structured Known) (plain : node.isBool = false)
    (effective : query.effective .top = .top)
    (placed : query.place .top node key = .ok (id, final)) : query.Puts .top id node final := by
  cases rooted : query.tree.root with
  | none => exact puts_first structured.toWhole plain (by rw [rootId?, rooted]; rfl) placed
  | some root =>
      have held : query.held? .top = some root.id := rootId?_root rooted
      obtain ⟨member, bare⟩ := structured.bare_root rooted
      have single := plain_of_effective effective root.id held
      simp only [place, effective, rootId?_root rooted] at placed
      exact puts_joinWith structured plain held single (wraps_root structured.toWhole rooted bare)
        placed

theorem puts_occupied (structured : query.Structured Known) (plain : node.isBool = false)
    (effective : query.effective position = .slot compound name) {slot : Branch QueryNode}
    (member : slot ∈ query.tree.live) {place : Slot} (content : slot.content = .slot place)
    (found : query.findSlot? compound name = some slot.id)
    (met : query.occupant? slot.id = some occupant)
    (joined : query.joinWith node key occupant = .ok (id, final)) :
    query.Puts position id node final := by
  rcases bool_or_plain query position with ⟨clause, held, bool⟩ | single
  -- the `must` of a `bool` has no occupant
  · rw [effective_of_bool held bool] at effective
    cases effective
    rw [occupant?_must structured bool found] at met
    cases met
  · rw [effective_of_plain single] at effective
    subst effective
    have held : query.held? (.slot compound name) = some occupant := by
      rw [held?, found, Option.bind_some, met]
    have one : place.multiple = false := by
      rw [occupant?_live query structured.numbered member content] at met
      split at met
      · cases met
      · rename_i many
        simpa using many
    obtain ⟨branch, below, rfl, bare⟩ := structured.sole_occupant member content met
    obtain ⟨entry, children⟩ := slot
    cases below
    exact puts_joinWith structured plain held (single _ held)
      (wraps_slot structured.toWhole member content one bare) joined

/-- A clause that was placed comes behind those met at its position. -/
theorem puts_place (structured : query.Structured Known) (plain : node.isBool = false)
    (placed : query.place position node key = .ok (id, final)) :
    query.Puts position id node final := by
  cases effective : query.effective position with
  | top =>
      obtain rfl := top_of_effective effective
      exact puts_top structured plain effective placed
  | slot compound name =>
      rw [place_of_effective effective] at placed
      obtain ⟨⟨number, made⟩, ensured, placed⟩ := Result.bind_ok.mp placed
      obtain ⟨found, widens, known, stays⟩ := ensureSlot_widens structured.numbered ensured
      obtain ⟨structuredMade, slot, member, rfl, place, content⟩ := structured.ensureSlot ensured
      obtain ⟨effectiveMade, same⟩ := stays position effective
      refine Puts.after widens same (known_of_effective structured.numbered effective known) ?_
      simp only at placed
      split at placed
      · exact puts_insertNode structuredMade.numbered plain effectiveMade found placed
      · rename_i occupant met
        exact puts_occupied structuredMade plain effectiveMade member content found met placed

/-- A `nested` clause that was opened is found again. -/
theorem reopens_nested : Reopens fun query : Query => query.Structured Known := by
  constructor
  · intro query position inner boundary structured found
    cases boundary with
    | exit target => cases found
    | enter path =>
        obtain ⟨id, first, rfl⟩ := Option.map_eq_some_iff.mp found
        have wanted : (query.tree.get? id).bind nestedPath? = some path := by
          simpa using List.find?_some first
        obtain ⟨node, got, enters⟩ := Option.bind_eq_some_iff.mp wanted
        exact currentScope_of_boundary got (by simp [Scoped.boundary?, enters])
  · intro query final position inner boundary structured missing opened
    obtain ⟨path, id, rfl, rfl, placed⟩ := opened?_ok opened
    have plain : (QueryNode.enter path).isBool = false := rfl
    have puts := puts_place structured plain placed
    refine ⟨structured.place (inert_known.enter path) rfl placed, ?_,
      puts.widens.retains structured.numbered, puts.scope⟩
    have others : (query.clausesAt position).find? (fun other =>
        (final.tree.get? other).bind nestedPath? = some path) = none := by
      rw [← Option.map_eq_none_iff.mp missing]
      refine List.find?_congr fun other met => ?_
      obtain ⟨known, got⟩ := (known_of_met structured.numbered met).1
      rw [got, puts.widens.contents got]
    refine Option.map_eq_some_iff.mpr ⟨id, ?_, rfl⟩
    rw [puts.behind, List.find?_append, others, Option.none_or, List.find?_singleton, puts.content]
    exact if_pos (decide_eq_true rfl)

end Query

end ScopedClauses
