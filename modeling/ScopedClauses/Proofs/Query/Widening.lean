import Mathlib.Data.List.Infix
import ScopedClauses.Proofs.Query.Structured
import ScopedClauses.Proofs.Scope.Trail
import ScopedClauses.Proofs.Tree.Adding

/-!
What is met at the positions of a query, and queries in which it is met before anything else. A node
that is added leaves the clauses of every position the first ones there.
-/

namespace ScopedClauses

namespace Query

open Rose Tree Weaving QueryNode

variable {query middle final : Query} {position : Position} {compound slot id occupant : Nat}
  {name : String} {node : QueryNode}

/-! ### What is met at a position -/

def held? (query : Query) : Position → Option Nat
  | .top => query.tree.rootId?
  | .slot compound name => (query.findSlot? compound name).bind query.occupant?

def slotted (query : Query) (compound : Nat) (name : String) : List Nat :=
  match query.findSlot? compound name with
  | some slot => query.tree.children slot
  | none => []

def standing (query : Query) : Position → List Nat
  | .top => query.tree.rootId?.toList
  | .slot compound name => query.slotted compound name

theorem slotted_of_found (found : query.findSlot? compound name = some slot) :
    query.slotted compound name = query.tree.children slot := by
  rw [slotted, found]

theorem isBool_of_get? (got : query.tree.get? id = some node) : query.isBool id = node.isBool := by
  rw [Query.isBool, got]

theorem isBool_congr (same : final.tree.get? id = query.tree.get? id) :
    final.isBool id = query.isBool id := by
  rw [Query.isBool, Query.isBool, same]

theorem occupant?_of_get? {place : Slot} (got : query.tree.get? slot = some (.slot place)) :
    query.occupant? slot = if place.multiple then none else (query.tree.children slot).head? := by
  simp [occupant?, got, QueryNode.slot?]

theorem occupant?_of_empty (empty : query.tree.children slot = []) : query.occupant? slot = none := by
  simp [occupant?, empty]

theorem child_of_occupant? (met : query.occupant? slot = some occupant) :
    occupant ∈ query.tree.children slot := by
  simp only [occupant?, Option.bind_eq_bind, Option.bind_eq_some_iff] at met
  obtain ⟨_, _, place, _, met⟩ := met
  split at met
  · cases met
  · exact List.mem_of_mem_head? met

theorem effective_eq (query : Query) (position : Position) :
    query.effective position =
      match query.held? position with
      | some clause => if query.isBool clause then .slot clause "must" else position
      | none => position := by
  cases position <;> rfl

theorem effective_of_bool (held : query.held? position = some id) (bool : query.isBool id = true) :
    query.effective position = .slot id "must" := by
  rw [effective_eq, held]
  exact if_pos bool

theorem effective_of_plain (plain : ∀ clause, query.held? position = some clause →
    query.isBool clause = false) : query.effective position = position := by
  rw [effective_eq]
  cases held : query.held? position with
  | none => rfl
  | some clause => simp [plain clause held]

theorem bool_or_plain (query : Query) (position : Position) :
    (∃ clause, query.held? position = some clause ∧ query.isBool clause = true) ∨
      ∀ clause, query.held? position = some clause → query.isBool clause = false := by
  cases held : query.held? position with
  | none => exact Or.inr fun clause some => by cases some
  | some clause =>
      cases bool : query.isBool clause with
      | true => exact Or.inl ⟨clause, rfl, bool⟩
      | false =>
          refine Or.inr fun other same => ?_
          cases same
          exact bool

theorem top_of_effective (effective : query.effective position = .top) : position = .top := by
  rcases bool_or_plain query position with ⟨clause, held, bool⟩ | plain
  · rw [effective_of_bool held bool] at effective
    cases effective
  · rw [← effective, effective_of_plain plain]

theorem plain_of_effective (effective : query.effective .top = .top) :
    ∀ clause, query.held? .top = some clause → query.isBool clause = false := by
  rcases bool_or_plain query .top with ⟨clause, held, bool⟩ | plain
  · rw [effective_of_bool held bool] at effective
    cases effective
  · exact plain

theorem clausesAt_of_bool (held : query.held? position = some id) (bool : query.isBool id = true) :
    query.clausesAt position = query.slotted id "must" := by
  rw [clausesAt, effective_of_bool held bool]
  rfl

theorem clausesAt_of_plain (plain : ∀ clause, query.held? position = some clause →
    query.isBool clause = false) : query.clausesAt position = query.standing position := by
  rw [clausesAt, effective_of_plain plain]
  cases position <;> rfl

theorem clausesAt_of_effective (effective : query.effective position = .slot compound name) :
    query.clausesAt position = query.slotted compound name := by
  rw [clausesAt, effective]
  rfl

section Known

variable (numbered : query.tree.Numbered)

include numbered

theorem slot_of_found (found : query.findSlot? compound name = some slot) :
    slot ∈ query.tree.children compound ∧ (∃ node, query.tree.get? compound = some node) ∧
      ∃ place, query.tree.get? slot = some (.slot place) ∧ place.name = name := by
  rw [findSlot?, findChild?_eq numbered] at found
  have below := List.mem_of_find?_eq_some found
  obtain ⟨holder, node, got⟩ := known_of_child numbered below
  have named := List.find?_some found
  rw [got, Option.any_some] at named
  refine ⟨below, holder, ?_⟩
  cases node with
  | slot place => exact ⟨place, got, by simpa [QueryNode.slot?] using named⟩
  | leaf clause | compound clause => cases named

theorem known_of_root (rooted : query.tree.rootId? = some id) :
    ∃ node, query.tree.get? id = some node := by
  obtain ⟨root, top, rfl⟩ := Option.map_eq_some_iff.mp rooted
  have live : root ∈ query.tree.live := mem_preorderAll_of_mem (by simp [branches, top])
  exact ⟨_, get?_live numbered live⟩

theorem known_of_held (held : query.held? position = some id) :
    ∃ node, query.tree.get? id = some node := by
  cases position with
  | top => exact known_of_root numbered held
  | slot compound name =>
      obtain ⟨slot, _, met⟩ := Option.bind_eq_some_iff.mp held
      exact (known_of_child numbered (child_of_occupant? met)).2

theorem known_of_slotted (met : id ∈ query.slotted compound name) :
    (∃ node, query.tree.get? id = some node) ∧ ∃ node, query.tree.get? compound = some node := by
  cases found : query.findSlot? compound name with
  | none => simp [slotted, found] at met
  | some slot =>
      rw [slotted_of_found found] at met
      exact ⟨(known_of_child numbered met).2, (slot_of_found numbered found).2.1⟩

theorem known_of_met (met : id ∈ query.clausesAt position) :
    (∃ node, query.tree.get? id = some node) ∧
      ∀ compound name, position = .slot compound name →
        ∃ node, query.tree.get? compound = some node := by
  rcases bool_or_plain query position with ⟨clause, held, bool⟩ | plain
  · rw [clausesAt_of_bool held bool] at met
    refine ⟨(known_of_slotted numbered met).1, ?_⟩
    rintro compound name rfl
    obtain ⟨slot, found, _⟩ := Option.bind_eq_some_iff.mp held
    exact (slot_of_found numbered found).2.1
  · rw [clausesAt_of_plain plain] at met
    cases position with
    | top => exact ⟨known_of_root numbered (Option.mem_toList.mp met), fun _ _ same => by cases same⟩
    | slot own parameter =>
        obtain ⟨known, holder⟩ := known_of_slotted numbered met
        refine ⟨known, ?_⟩
        rintro _ _ ⟨⟩
        exact holder

end Known

/-! ### Widening -/

/-- The query `final` has the clauses of `query` in their scopes, and at each position it meets
those that `query` meets there before any other. -/
structure Widens (query final : Query) : Prop where
  contents : ∀ {id node}, query.tree.get? id = some node → final.tree.get? id = some node
  scopes : ∀ {id node}, query.tree.get? id = some node →
    final.tree.currentScope id = query.tree.currentScope id
  clauses : ∀ position, query.clausesAt position <+: final.clausesAt position

namespace Widens

theorem refl (query : Query) : query.Widens query :=
  ⟨id, fun _ => rfl, fun _ => List.prefix_refl _⟩

theorem trans (first : query.Widens middle) (second : middle.Widens final) : query.Widens final :=
  ⟨fun got => second.contents (first.contents got),
    fun got => (second.scopes (first.contents got)).trans (first.scopes got),
    fun position => (first.clauses position).trans (second.clauses position)⟩

theorem positionScope (widens : query.Widens final)
    (known : ∀ compound name, position = .slot compound name →
      ∃ node, query.tree.get? compound = some node) :
    final.positionScope position = query.positionScope position := by
  cases position with
  | top => rfl
  | slot compound name =>
      obtain ⟨node, got⟩ := known compound name rfl
      exact widens.scopes got

theorem retains (widens : query.Widens final) (numbered : query.tree.Numbered) :
    Retains query final := by
  constructor
  · intro position inner boundary found
    cases boundary with
    | exit target => cases found
    | enter path =>
        obtain ⟨id, first, rfl⟩ := Option.map_eq_some_iff.mp found
        refine Option.map_eq_some_iff.mpr ⟨id, ?_, rfl⟩
        refine find?_of_prefix (widens.clauses position) (fun other met => ?_) first
        obtain ⟨node, got⟩ := (known_of_met numbered met).1
        rw [got, widens.contents got]
  · intro position inner boundary found
    cases boundary with
    | exit target => cases found
    | enter path =>
        obtain ⟨id, first, rfl⟩ := Option.map_eq_some_iff.mp found
        exact widens.positionScope (known_of_met numbered (List.mem_of_find?_eq_some first)).2

end Widens

/-! ### A node more -/

section Planted

variable {parent : Nat} (planted : Planted query.tree parent id node final.tree)

include planted

theorem occupant?_planted {place : Slot} (got : query.tree.get? slot = some (.slot place)) :
    final.occupant? slot = query.occupant? slot ∨
      query.occupant? slot = none ∧ final.occupant? slot = some id := by
  rw [occupant?_of_get? got, occupant?_of_get? (planted.kept got), planted.children]
  by_cases many : place.multiple = true
  · simp [many]
  · rw [if_neg many, if_neg many]
    split
    · cases query.tree.children slot <;> simp
    · exact Or.inl rfl

variable (numbered : query.tree.Numbered)

include numbered

theorem findSlot?_planted (found : query.findSlot? compound name = some slot) :
    final.findSlot? compound name = some slot := by
  rw [findSlot?] at found ⊢
  rw [planted.findChild? numbered, found, Option.some_or]

theorem children_planted : final.tree.children id = [] := by
  have dead : query.tree.children id = [] := by
    refine List.eq_nil_iff_forall_not_mem.mpr fun child below => ?_
    obtain ⟨⟨holder, got⟩, _⟩ := known_of_child numbered below
    rw [planted.new] at got
    cases got
  have other : id ≠ parent := by
    rintro rfl
    obtain ⟨holder, got⟩ := planted.holder
    rw [planted.new] at got
    cases got
  rw [planted.children, if_neg other, dead]

theorem held?_planted (position : Position) :
    final.held? position = query.held? position ∨
      query.held? position = none ∧ final.held? position = some id := by
  cases position with
  | top => exact Or.inl planted.root
  | slot compound name =>
      simp only [held?]
      cases found : query.findSlot? compound name with
      | some slot =>
          obtain ⟨_, _, place, got, _⟩ := slot_of_found numbered found
          rw [findSlot?_planted planted numbered found]
          exact occupant?_planted planted got
      | none =>
          refine Or.inl ?_
          have later : final.findSlot? compound name = none ∨
              final.findSlot? compound name = some id := by
            rw [findSlot?] at found ⊢
            rw [planted.findChild? numbered, found, Option.none_or]
            split
            · exact Or.inr rfl
            · exact Or.inl rfl
          have empty := occupant?_of_empty (children_planted planted numbered)
          rcases later with absent | new
          · rw [absent]
            rfl
          · rw [new]
            exact empty

theorem effective_planted (plain : node.isBool = false) :
    final.effective position = query.effective position := by
  rcases held?_planted planted numbered position with same | ⟨nothing, new⟩
  · rw [effective_eq, effective_eq, same]
    cases held : query.held? position with
    | none => rfl
    | some clause =>
        obtain ⟨known, got⟩ := known_of_held numbered held
        simp only [isBool_congr ((planted.kept got).trans got.symm)]
  · have newPlain : final.isBool id = false := by
      rw [isBool_of_get? (planted.contents id |>.trans (if_pos rfl)), plain]
    rw [effective_eq, effective_eq, nothing, new]
    simp [newPlain]

theorem slotted_planted : query.slotted compound name <+: final.slotted compound name := by
  cases found : query.findSlot? compound name with
  | none => simp [slotted, found]
  | some slot =>
      rw [slotted_of_found found, slotted_of_found (findSlot?_planted planted numbered found)]
      exact planted.prefix_children slot

theorem widens_planted (plain : node.isBool = false) : query.Widens final := by
  refine ⟨planted.kept, planted.currentScope, fun position => ?_⟩
  rw [clausesAt, clausesAt, effective_planted planted numbered plain]
  cases query.effective position with
  | top => rw [planted.root]
  | slot compound name => exact slotted_planted planted numbered

end Planted

end Query

end ScopedClauses
