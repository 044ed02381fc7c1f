import ScopedClauses.Proofs.Tree.Relinking

/-!
Arenas as operations make them, one edit of a link after the other. Each operation ends and leaves
an arena that holds a tree, also where it fails halfway, so the links stay in order, and a number
that is gone does not come back.
-/

namespace ScopedClauses

namespace Arena

open Relation

variable {N : Type}

structure Linked (arena : Arena N) : Prop where
  root : ∀ {id}, arena.root = some id → arena.contains id = true ∧ arena.parent? id = none
  children : ∀ {id}, arena.contains id = true → (arena.children id).Nodup ∧
    ∀ child ∈ arena.children id, arena.contains child = true ∧ arena.parent? child = some id
  parent : ∀ {id parent}, arena.parent? id = some parent →
    arena.contains parent = true ∧ id ∈ arena.children parent
  acyclic : ∀ id, ¬TransGen (fun child parent => arena.parent? child = some parent) id id
  ancestors : ∀ {id}, arena.contains id = true → ∃ outward,
    arena.ancestors id false = some outward ∧ arena.ancestors id true = some (id :: outward) ∧
    ∀ upper, upper ∈ outward ↔
      TransGen (fun child parent => arena.parent? child = some parent) id upper
  preorder : ∀ {top}, arena.contains top = true → ∃ passed, arena.preorder top = some passed ∧
    passed.Nodup ∧
    (∀ id, id ∈ passed ↔ ReflTransGen (fun parent child => child ∈ arena.children parent) top id) ∧
    ∀ {parent child}, parent ∈ passed → child ∈ arena.children parent →
      [parent, child].Sublist passed

inductive Operation (N : Type) where
  | insertRoot (content : N) (key : Option String)
  | insert (content : N) (parent : Nat) (key : Option String)
  | detach (id : Nat)
  | attach (id parent : Nat)
  | move (id target : Nat)
  | remove (id : Nat)
  | setKey (id : Nat) (key : Option String)
  | replace (id : Nat) (content : N)
  | assign (id : Nat) (content : N)

def left (arena : Arena N) : Result (Arena N) → Arena N
  | .ok after => after
  | .error _ => arena

def Operation.leave [NodeRules N] (arena : Arena N) : Operation N → Option (Arena N)
  | .insertRoot content key => some (arena.left (Prod.snd <$> arena.insertRoot content key))
  | .insert content parent key => some (arena.left (Prod.snd <$> arena.insert content parent key))
  | .detach id => some (arena.left (arena.detach id))
  | .attach id parent => arena.left <$> arena.attach id parent
  | .move id target => Prod.fst <$> arena.move id target
  | .remove id => (fun result => arena.left (Prod.snd <$> result)) <$> arena.remove id
  | .setKey id key => some (arena.left (arena.setKey id key))
  | .replace id content => some (arena.left (Prod.snd <$> arena.replace id content))
  | .assign id content => some (arena.left (arena.assign id content))

/-- How an arena was made. What is copied or put in has a history of its own. -/
inductive History (N : Type) where
  | empty
  | withRoot (content : N) (key : Option String)
  | subtree (source : History N) (id : Nat)
  | removed (source : History N) (id : Nat)
  | operate (before : History N) (operation : Operation N)
  | graft (before other : History N) (parent : Option Nat)

namespace History

variable [NodeRules N]

def arena : History N → Option (Arena N)
  | .empty => some {}
  | .withRoot content key => some (Arena.withRoot content key)
  | .subtree source id => do
      let arena ← source.arena
      left {} <$> arena.subtree id
  | .removed source id => do
      let arena ← source.arena
      (fun result => left {} (Prod.fst <$> result)) <$> arena.remove id
  | .operate before operation => do operation.leave (← before.arena)
  | .graft before other parent => do
      let arena ← before.arena
      Prod.fst <$> arena.graft (← other.arena) parent

inductive Passes (early : History N) : History N → Prop where
  | here : Passes early early
  | operate {before : History N} (operation : Operation N) :
      Passes early before → Passes early (.operate before operation)
  | graft {before : History N} (other : History N) (parent : Option Nat) :
      Passes early before → Passes early (.graft before other parent)

end History

/-! ### The trees that the arenas hold -/

def Operation.onTree : Operation N → Tree.Operation N
  | .insertRoot content key => .insertRoot content key
  | .insert content parent key => .insert content parent key
  | .detach id => .detach id
  | .attach id parent => .attach id parent
  | .move id target => .move id target
  | .remove id => .remove id
  | .setKey id key => .setKey id key
  | .replace id content => .replace id content
  | .assign id content => .assign id content

theorem left_arena (tree : Tree N) (result : Result (Tree N)) :
    tree.arena.left (Tree.arena <$> result) = (tree.left result).arena := by
  cases result <;> rfl

theorem left_empty (result : Result (Tree N)) :
    left {} (Tree.arena <$> result) = (Tree.left {} result).arena := by
  rw [← left_arena, Tree.empty_arena]

theorem leave_arena [NodeRules N] {tree : Tree N} (numbered : tree.Numbered)
    (operation : Operation N) :
    operation.leave tree.arena = some (operation.onTree.leave tree).arena := by
  have second : ∀ {α : Type} (made : Result (α × Tree N)),
      Prod.snd <$> (fun made => (made.1, made.2.arena)) <$> made = Tree.arena <$> Prod.snd <$> made := by
    intro α made
    cases made <;> rfl
  cases operation with
  | insertRoot content key =>
      simp only [Operation.leave, Tree.insertRoot_arena numbered, second, left_arena]
      rfl
  | insert content parent key =>
      simp only [Operation.leave, Tree.insert_arena numbered, second, left_arena]
      rfl
  | detach id =>
      simp only [Operation.leave, Tree.detach_arena numbered, left_arena]
      rfl
  | attach id parent =>
      simp only [Operation.leave, Tree.attach_arena numbered, Option.map_eq_map, Option.map_some,
        left_arena]
      rfl
  | move id target =>
      simp only [Operation.leave, Tree.move_arena numbered]
      rfl
  | remove id =>
      simp only [Operation.leave, Tree.remove_arena numbered, Option.map_eq_map, Option.map_some]
      have removed : Prod.snd <$> (fun parts : Tree N × Tree N => (parts.1.arena, parts.2.arena)) <$>
          tree.remove id = Tree.arena <$> Prod.snd <$> tree.remove id := by
        cases tree.remove id <;> rfl
      rw [removed, left_arena]
      rfl
  | setKey id key =>
      simp only [Operation.leave, Tree.setKey_arena numbered, left_arena]
      rfl
  | replace id content =>
      simp only [Operation.leave, Tree.replace_arena numbered, second, left_arena]
      rfl
  | assign id content =>
      simp only [Operation.leave, Tree.assign_arena numbered, left_arena]
      rfl

namespace History

def tree [NodeRules N] : History N → Tree N
  | .empty => {}
  | .withRoot content key => Tree.withRoot content key
  | .subtree source id => Tree.left {} (source.tree.subtree id)
  | .removed source id => Tree.left {} (Prod.fst <$> source.tree.remove id)
  | .operate before operation => operation.onTree.leave before.tree
  | .graft before other parent => (Tree.Operation.graft other.tree.shape? parent).leave before.tree

theorem numbered_made {result : Result (Tree N)}
    (made : ∀ after, result = .ok after → after.Numbered) : (Tree.left {} result).Numbered := by
  cases result with
  | error _ => exact Tree.numbered_empty
  | ok after => exact made after rfl

theorem numbered_subtree {tree copy : Tree N} {id : Nat} (copied : tree.subtree id = .ok copy) :
    copy.Numbered := by
  simp only [Tree.subtree, Result.bind_ok, Result.pure_ok] at copied
  obtain ⟨branch, _, rfl⟩ := copied
  exact Tree.numbered_ofShape branch.shape

theorem numbered [NodeRules N] (history : History N) : history.tree.Numbered := by
  induction history with
  | empty => exact Tree.numbered_empty
  | withRoot content key => exact Tree.numbered_ofShape _
  | subtree source id => exact numbered_made fun copy => numbered_subtree
  | removed source id =>
      refine numbered_made fun copy done => ?_
      obtain ⟨⟨removed, rest⟩, removal, rfl⟩ := Result.map_ok.mp done
      simp only [Tree.remove, Result.bind_ok, Result.pure_ok, Prod.mk.injEq] at removal
      obtain ⟨_, copied, _, _, rfl, _⟩ := removal
      exact numbered_subtree copied
  | operate before operation ih => exact (Tree.renewed_leave ih operation.onTree).numbered
  | graft before other parent ih _ => exact (Tree.renewed_leave ih _).numbered

variable [NodeRules N]

/-- Every operation of a history ends, and the arena at its end holds the tree that the operations
on trees make. -/
theorem arena_eq (history : History N) : history.arena = some history.tree.arena := by
  induction history with
  | empty => rw [arena, tree, Tree.empty_arena]
  | withRoot content key => rw [arena, tree, Tree.withRoot_arena]
  | subtree source id ih =>
      rw [arena, ih, tree]
      simp only [Option.bind_eq_bind, Option.bind_some, Tree.subtree_arena source.numbered]
      exact congrArg some (left_empty _)
  | removed source id ih =>
      rw [arena, ih, tree]
      simp only [Option.bind_eq_bind, Option.bind_some, Tree.remove_arena source.numbered]
      have removed : Prod.fst <$> (fun parts : Tree N × Tree N => (parts.1.arena, parts.2.arena)) <$>
          source.tree.remove id = Tree.arena <$> Prod.fst <$> source.tree.remove id := by
        cases source.tree.remove id <;> rfl
      exact congrArg some ((congrArg (left {}) removed).trans (left_empty _))
  | operate before operation ih =>
      rw [arena, ih, tree]
      exact leave_arena before.numbered operation
  | graft before other parent ih ihOther =>
      rw [arena, ih, ihOther, tree]
      simp only [Option.bind_eq_bind, Option.bind_some,
        Tree.graft_arena other.numbered before.numbered]
      rfl

theorem Passes.renewed {early late : History N} (passes : early.Passes late) :
    Tree.Renewed early.tree late.tree := by
  induction passes with
  | here => exact .refl early.numbered
  | operate operation _ ih => exact ih.trans (Tree.renewed_leave ih.numbered operation.onTree)
  | graft other parent _ ih => exact ih.trans (Tree.renewed_leave ih.numbered _)

end History

/-! ### Their links -/

theorem linked_arena {tree : Tree N} (numbered : tree.Numbered) : tree.arena.Linked := by
  have linked := numbered.linked
  have climbs : (fun child parent => tree.arena.parent? child = some parent) =
      fun child parent => tree.parent? child = some parent := by
    funext child parent
    rw [Tree.parent?_arena numbered]
  have descends : (fun parent child => child ∈ tree.arena.children parent) =
      fun parent child => child ∈ tree.children parent := by
    funext parent child
    rw [Tree.children_arena numbered]
  constructor
  case root =>
    intro id rooted
    rw [Tree.contains_arena numbered, Tree.parent?_arena numbered]
    exact linked.root rooted
  case children =>
    intro id present
    simp only [Tree.contains_arena numbered, Tree.parent?_arena numbered,
      Tree.children_arena numbered] at present ⊢
    exact linked.children present
  case parent =>
    intro id parent above
    rw [Tree.parent?_arena numbered] at above
    rw [Tree.contains_arena numbered, Tree.children_arena numbered]
    exact linked.parent above
  case acyclic =>
    rw [climbs]
    exact linked.acyclic
  case ancestors =>
    intro id present
    rw [Tree.contains_arena numbered] at present
    rw [climbs]
    refine ⟨_, Tree.ancestors_arena numbered id false, ?_, fun upper => ?_⟩
    · rw [Tree.ancestors_arena numbered, (linked.ancestors present).1]
    · exact ⟨Tree.climb_of_mem_ancestors numbered, Tree.mem_ancestors_of_climb numbered⟩
  case preorder =>
    intro top present
    rw [Tree.contains_arena numbered] at present
    rw [descends]
    refine ⟨_, Tree.preorder_arena numbered top, linked.once top, linked.reached present, ?_⟩
    intro parent child passed below
    rw [Tree.children_arena numbered] at below
    exact linked.ordered passed below

/-- The links of an arena are in order after any operations, failed ones included, each of which
ends. A number that was live and is gone stays so, and an inserted node gets a number that was
never live. -/
theorem linked_history [NodeRules N] (history : History N) :
    ∃ arena, history.arena = some arena ∧ arena.Linked ∧
    (∀ {early middle : History N}, early.Passes middle → middle.Passes history →
      ∀ {first second : Arena N}, early.arena = some first → middle.arena = some second →
      ∀ id, first.contains id = true → second.contains id = false → arena.contains id = false) ∧
    ∀ {early : History N}, early.Passes history → ∀ {past : Arena N}, early.arena = some past →
      ∀ {content parent key id after}, arena.insert content parent key = .ok (id, after) →
      past.contains id = false := by
  have numbered := history.numbered
  refine ⟨_, history.arena_eq, linked_arena numbered, ?_, ?_⟩
  · intro early middle passes later first second started passed id present gone
    cases started.symm.trans early.arena_eq
    cases passed.symm.trans middle.arena_eq
    rw [Tree.contains_arena early.numbered] at present
    rw [Tree.contains_arena middle.numbered] at gone
    rw [Tree.contains_arena numbered]
    exact passes.renewed.contains_eq_false early.numbered later.renewed present gone
  · intro early passes past started content parent key id after inserted
    cases started.symm.trans early.arena_eq
    rw [Tree.insert_arena numbered, Result.map_ok] at inserted
    obtain ⟨made, inserted, same⟩ := inserted
    obtain ⟨rfl, rfl⟩ := Prod.mk.inj same
    obtain ⟨_, _, _, new, _⟩ := Tree.insert_ok numbered inserted
    rw [Tree.contains_arena early.numbered, Bool.eq_false_iff, ne_eq,
      Tree.contains_iff early.numbered]
    intro present
    have bound := early.numbered.bounded _ present
    have grown := passes.renewed.later
    omega

end Arena

end ScopedClauses
