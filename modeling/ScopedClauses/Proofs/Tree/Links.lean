import ScopedClauses.Proofs.Tree.Moving
import Mathlib.Logic.Relation

/-!
Links between nodes. In a tree whose numbers are given out once, parents and children agree, the
way along parents ends, and a traversal along children meets each node once, after its parent.
-/

namespace ScopedClauses

namespace Tree

open Rose

variable {N : Type}

structure Linked (tree : Tree N) : Prop where
  root : ∀ {id}, tree.rootId? = some id → tree.contains id = true ∧ tree.parent? id = none
  children : ∀ {id}, tree.contains id = true → (tree.children id).Nodup ∧
    ∀ child ∈ tree.children id, tree.contains child = true ∧ tree.parent? child = some id
  parent : ∀ {id parent}, tree.parent? id = some parent →
    tree.contains parent = true ∧ id ∈ tree.children parent
  ancestors : ∀ {id}, tree.contains id = true →
    tree.ancestors id true = id :: tree.ancestors id false ∧
    tree.ancestors id false = ((tree.parent? id).map (tree.ancestors · true)).getD []
  acyclic : ∀ id,
    ¬Relation.TransGen (fun child parent => tree.parent? child = some parent) id id
  reached : ∀ {root}, tree.contains root = true → ∀ id, id ∈ tree.preorder root ↔
    Relation.ReflTransGen (fun parent child => child ∈ tree.children parent) root id
  once : ∀ root, (tree.preorder root).Nodup
  ordered : ∀ {root parent child}, parent ∈ tree.preorder root → child ∈ tree.children parent →
    [parent, child].Sublist (tree.preorder root)

section Links

variable {tree : Tree N}

theorem contains_iff (numbered : tree.Numbered) {id : Nat} :
    tree.contains id = true ↔ id ∈ numbers tree.branches := by
  rw [contains, Option.isSome_iff_exists]
  constructor
  · rintro ⟨branch, found⟩
    obtain ⟨member, rfl⟩ := live_of_find? found
    exact id_mem_numbers member
  · intro present
    obtain ⟨branch, member, rfl⟩ := exists_of_mem_numbers present
    exact ⟨branch, find?_of_live numbered member⟩

theorem exists_of_contains {id : Nat} (present : tree.contains id = true) :
    ∃ branch ∈ tree.live, branch.id = id := by
  obtain ⟨branch, found⟩ := Option.isSome_iff_exists.mp present
  obtain ⟨member, same⟩ := live_of_find? found
  exact ⟨branch, member, same⟩

theorem contains_of_live (numbered : tree.Numbered) {branch : Branch N}
    (member : branch ∈ tree.live) : tree.contains branch.id = true :=
  (contains_iff numbered).mpr (id_mem_numbers member)

theorem ancestry_of_dead {id : Nat} (dead : id ∉ numbers tree.branches) :
    tree.ancestry id = [] := by
  rw [ancestry, show pathAny? _ tree.branches = none from (pathTo?_eq_none_iff _).mpr dead]
  rfl

theorem preorder_of_dead {id : Nat} (dead : id ∉ numbers tree.branches) : tree.preorder id = [] := by
  rw [preorder, find?, ancestry_of_dead dead]
  rfl

theorem map_id_sublist (forest : List (Branch N)) :
    (forest.map Rose.id).Sublist (numbers forest) := by
  induction forest with
  | nil => exact List.Sublist.refl _
  | cons branch rest ih =>
      obtain ⟨label, children⟩ := branch
      rw [List.map_cons, numbers_cons]
      exact (ih.trans (List.sublist_append_right _ _)).cons_cons _

variable (numbered : tree.Numbered)

include numbered

theorem reached_of_inside (forest : List (Branch N)) (live : ∀ branch ∈ forest, branch ∈ tree.live)
    {inner : Branch N} (inside : inner ∈ preorderAll forest) :
    ∃ top ∈ forest,
      Relation.ReflTransGen (fun parent child => child ∈ tree.children parent) top.id inner.id := by
  induction forest using forestInduction with
  | nil => simp at inside
  | cons label children rest ihBelow ihBeside =>
      have head := live _ List.mem_cons_self
      simp only [preorderAll_cons, List.mem_cons, List.mem_append] at inside
      rcases inside with rfl | below | beside
      · exact ⟨_, List.mem_cons_self, .refl⟩
      · obtain ⟨child, listed, reached⟩ := ihBelow
          (fun child listed => mem_preorderAll_trans _ head (mem_preorderAll_of_mem listed)) below
        refine ⟨_, List.mem_cons_self, .head ?_ reached⟩
        rw [children_of_live numbered head]
        exact List.mem_map_of_mem listed
      · obtain ⟨top, listed, reached⟩ := ihBeside
          (fun branch listed => live branch (List.mem_cons_of_mem _ listed)) beside
        exact ⟨top, List.mem_cons_of_mem _ listed, reached⟩

theorem mem_preorder_iff {root : Branch N} (member : root ∈ tree.live) (id : Nat) :
    id ∈ tree.preorder root.id ↔
      Relation.ReflTransGen (fun parent child => child ∈ tree.children parent) root.id id := by
  rw [preorder_of_live numbered member]
  constructor
  · intro present
    obtain ⟨inner, inside, rfl⟩ := exists_of_mem_numbers present
    obtain ⟨top, listed, reached⟩ := reached_of_inside numbered [root]
      (fun branch listed => by rwa [List.mem_singleton.mp listed]) inside
    rwa [List.mem_singleton.mp listed] at reached
  · intro reached
    induction reached with
    | refl => exact id_mem_numbers (self_mem root)
    | tail _ below ih =>
        obtain ⟨parent, inside, rfl⟩ := exists_of_mem_numbers ih
        rw [children_of_live numbered (live_of_branches member inside)] at below
        obtain ⟨child, listed, rfl⟩ := List.mem_map.mp below
        exact id_mem_numbers (mem_preorderAll_trans _ inside (mem_preorderAll_of_mem listed))

theorem parent_before_child {root parent : Branch N} (member : root ∈ tree.live)
    (inside : parent ∈ preorderAll [root]) {child : Branch N} (below : child ∈ parent.children) :
    [parent.id, child.id].Sublist (tree.preorder root.id) := by
  rw [preorder_of_live numbered member]
  refine List.Sublist.trans ?_ (sublist_numbers [root] inside)
  obtain ⟨label, children⟩ := parent
  rw [numbers_cons, numbers_nil, List.append_nil]
  refine List.Sublist.cons_cons _ (List.singleton_sublist.mpr ?_)
  exact id_mem_numbers (mem_preorderAll_of_mem below)

theorem ancestors_of_live {branch : Branch N} (member : branch ∈ tree.live) :
    tree.ancestors branch.id true = branch.id :: tree.ancestors branch.id false ∧
      tree.ancestors branch.id false =
        ((tree.parent? branch.id).map (tree.ancestors · true)).getD [] := by
  obtain ⟨outward, way, _⟩ := lineage_of_mem numbered.distinct member
  rw [ancestors_self, ancestors_outside, way]
  refine ⟨rfl, ?_⟩
  rcases top_or_child tree.branches member with top | ⟨parent, above, below⟩
  · have path := pathTo?_of_top tree.branches numbered.distinct top
    have alone : outward = [] := by
      rw [lineage, path] at way
      exact (List.cons.inj way).2.symm
    rw [parent?_of_top numbered top, alone]
    rfl
  · have further := lineage_child numbered.distinct above below
    rw [way] at further
    rw [parent?_of_child numbered above below, List.tail_cons, (List.cons.inj further).2]
    exact (ancestors_self tree parent.id).symm

theorem live_of_parent? {id parent : Nat} (found : tree.parent? id = some parent) :
    ∃ holder ∈ tree.live, holder.id = parent ∧ ∃ child ∈ holder.children, child.id = id := by
  by_cases present : id ∈ numbers tree.branches
  · obtain ⟨branch, member, rfl⟩ := exists_of_mem_numbers present
    obtain ⟨holder, above, same, below⟩ := child_of_parent? numbered member found
    exact ⟨holder, above, same, branch, below, rfl⟩
  · rw [parent?, ancestry_of_dead present] at found
    cases found

theorem ancestors_eq (id : Nat) :
    tree.ancestors id false = ((tree.parent? id).map (tree.ancestors · true)).getD [] := by
  by_cases present : id ∈ numbers tree.branches
  · obtain ⟨branch, member, rfl⟩ := exists_of_mem_numbers present
    exact (ancestors_of_live numbered member).2
  · rw [ancestors_outside, parent?, lineage_of_not_mem present, ancestry_of_dead present]
    rfl

theorem ancestors_of_parent {child parent : Nat} (found : tree.parent? child = some parent) :
    tree.ancestors child false = parent :: tree.ancestors parent false := by
  obtain ⟨holder, above, rfl, _⟩ := live_of_parent? numbered found
  rw [ancestors_eq numbered, found]
  exact (ancestors_of_live numbered above).1

theorem mem_ancestors_of_climb {id upper : Nat}
    (climb : Relation.TransGen (fun child parent => tree.parent? child = some parent) id upper) :
    upper ∈ tree.ancestors id false := by
  induction climb using Relation.TransGen.head_induction_on with
  | single found =>
      rw [ancestors_of_parent numbered found]
      exact List.mem_cons_self
  | head found _ ih =>
      rw [ancestors_of_parent numbered found]
      exact List.mem_cons_of_mem _ ih

theorem climb_of_mem_ancestors {id upper : Nat} (above : upper ∈ tree.ancestors id false) :
    Relation.TransGen (fun child parent => tree.parent? child = some parent) id upper := by
  induction left : (tree.ancestors id false).length using Nat.strongRecOn generalizing id with
  | ind length ih =>
      cases found : tree.parent? id with
      | none =>
          rw [ancestors_eq numbered, found] at above
          cases above
      | some parent =>
          rw [ancestors_of_parent numbered found] at above left
          rcases List.mem_cons.mp above with rfl | further
          · exact .single found
          · rw [List.length_cons] at left
            exact .head found (ih _ (by omega) further rfl)

/-- The links of a numbered tree are in order. -/
theorem Numbered.linked : tree.Linked where
  root := by
    intro id rooted
    rw [rootId?, Option.map_eq_some_iff] at rooted
    obtain ⟨branch, rooted, rfl⟩ := rooted
    have top : branch ∈ tree.branches := by simp [branches, rooted]
    exact ⟨contains_of_live numbered (mem_preorderAll_of_mem top), parent?_of_top numbered top⟩
  children := by
    intro id present
    obtain ⟨branch, member, rfl⟩ := exists_of_contains present
    rw [children_of_live numbered member]
    constructor
    · refine List.Nodup.sublist ?_ numbered.distinct
      exact ((map_id_sublist branch.children).trans (numbers_children_sublist branch)).trans
        (sublist_numbers tree.branches member)
    · intro child listed
      obtain ⟨below, inChildren, rfl⟩ := List.mem_map.mp listed
      have live := mem_preorderAll_trans _ member (mem_preorderAll_of_mem inChildren)
      exact ⟨contains_of_live numbered live, parent?_of_child numbered member inChildren⟩
  parent := by
    intro id parent found
    obtain ⟨holder, above, rfl, child, below, rfl⟩ := live_of_parent? numbered found
    rw [children_of_live numbered above]
    exact ⟨contains_of_live numbered above, List.mem_map_of_mem below⟩
  ancestors := by
    intro id present
    obtain ⟨branch, member, rfl⟩ := exists_of_contains present
    exact ancestors_of_live numbered member
  acyclic := by
    intro id climb
    have above := mem_ancestors_of_climb numbered climb
    obtain ⟨parent, found, _⟩ := Relation.TransGen.head'_iff.mp climb
    obtain ⟨_, holderLive, _, branch, below, rfl⟩ := live_of_parent? numbered found
    have member := mem_preorderAll_trans _ holderLive (mem_preorderAll_of_mem below)
    have distinct := lineage_nodup numbered.distinct branch.id
    rw [← ancestors_self, (ancestors_of_live numbered member).1, List.nodup_cons] at distinct
    exact distinct.1 above
  reached := by
    intro root present id
    obtain ⟨branch, member, rfl⟩ := exists_of_contains present
    exact mem_preorder_iff numbered member id
  once := by
    intro root
    by_cases present : root ∈ numbers tree.branches
    · obtain ⟨branch, member, rfl⟩ := exists_of_mem_numbers present
      rw [preorder_of_live numbered member]
      exact numbered.distinct.sublist (sublist_numbers _ member)
    · rw [preorder_of_dead present]
      exact List.nodup_nil
  ordered := by
    intro root parent child passed below
    by_cases present : root ∈ numbers tree.branches
    · obtain ⟨branch, member, rfl⟩ := exists_of_mem_numbers present
      rw [preorder_of_live numbered member] at passed
      obtain ⟨holder, inside, rfl⟩ := exists_of_mem_numbers passed
      rw [children_of_live numbered (live_of_branches member inside)] at below
      obtain ⟨inner, listed, rfl⟩ := List.mem_map.mp below
      exact parent_before_child numbered member inside listed
    · rw [preorder_of_dead present] at passed
      cases passed

end Links

end Tree

end ScopedClauses
