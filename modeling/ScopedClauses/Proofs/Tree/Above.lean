import ScopedClauses.Proofs.Tree.Hanging
import ScopedClauses.Proofs.Tree.Links

/-!
Which nodes lie around others. In a forest without repeated numbers this is an order, and the nodes
around one node are all comparable.
-/

namespace ScopedClauses

namespace Rose

variable {N : Type} {forest other : List (Branch N)} {outer inner number first second : Nat}

def Above (forest : List (Branch N)) (outer inner : Nat) : Prop :=
  outer ∈ (lineage inner forest).map Entry.id

theorem Above.self (live : number ∈ numbers forest) : Above forest number number := by
  obtain ⟨entry, outward, way, rfl⟩ := lineage_head live
  rw [Above, way]
  exact List.mem_cons_self

theorem Above.inner_mem (above : Above forest outer inner) : inner ∈ numbers forest :=
  Decidable.byContradiction fun absent => by
    rw [Above, lineage_of_not_mem absent] at above
    cases above

theorem Above.outer_mem (above : Above forest outer inner) : outer ∈ numbers forest :=
  mem_numbers_of_passed above

theorem above_congr (same : lineage inner forest = lineage inner other) :
    Above forest outer inner ↔ Above other outer inner := by
  rw [Above, Above, same]

section Distinct

variable (distinct : (numbers forest).Nodup)

include distinct

theorem Above.split (above : Above forest outer inner) :
    ∃ front, lineage inner forest = front ++ lineage outer forest := by
  obtain ⟨entry, onWay, rfl⟩ := List.mem_map.mp above
  obtain ⟨front, back, way⟩ := List.append_of_mem onWay
  exact ⟨front, by rw [way, lineage_suffix distinct way]⟩

theorem Above.trans (above : Above forest outer number) (further : Above forest number inner) :
    Above forest outer inner := by
  obtain ⟨front, way⟩ := further.split distinct
  rw [Above, way, List.map_append]
  exact List.mem_append_right _ above

theorem Above.antisymm (above : Above forest outer inner) (below : Above forest inner outer) :
    outer = inner := by
  obtain ⟨front, way⟩ := above.split distinct
  obtain ⟨back, wayBack⟩ := below.split distinct
  rw [wayBack, ← List.append_assoc] at way
  have alone : front ++ back = [] := (List.self_eq_append_left).mp way
  rw [(List.append_eq_nil_iff.mp alone).2, List.nil_append] at wayBack
  obtain ⟨entry, rest, start, rfl⟩ := lineage_head above.inner_mem
  obtain ⟨last, others, begins, rfl⟩ := lineage_head above.outer_mem
  rw [start, begins] at wayBack
  rw [(List.cons.inj wayBack).1]

theorem Above.total (above : Above forest first inner) (further : Above forest second inner) :
    Above forest first second ∨ Above forest second first := by
  obtain ⟨branch, member, rfl⟩ := exists_of_mem_numbers above.outer_mem
  obtain ⟨around, memberAround, rfl⟩ := exists_of_mem_numbers further.outer_mem
  have shared := nested_of_shared distinct member memberAround
    ((passes_iff distinct member).mp above) ((passes_iff distinct memberAround).mp further)
  exact shared.symm.imp (passes_iff distinct member).mpr (passes_iff distinct memberAround).mpr

theorem not_above_child {parent child : Branch N} (member : parent ∈ preorderAll forest)
    (below : child ∈ parent.children) : ¬Above forest child.id parent.id := by
  have once := lineage_nodup distinct child.id
  rw [lineage_child distinct member below, List.map_cons, List.nodup_cons] at once
  exact once.1

theorem above_child {parent child : Branch N} (member : parent ∈ preorderAll forest)
    (below : child ∈ parent.children) :
    Above forest outer child.id ↔ outer = child.id ∨ Above forest outer parent.id := by
  rw [Above, lineage_child distinct member below, List.map_cons, List.mem_cons]
  rfl

end Distinct

end Rose

namespace Tree

open Rose

variable {N : Type} {tree : Tree N}

theorem get?_eq_lineage (tree : Tree N) (number : Nat) :
    tree.get? number = (lineage number tree.branches).head?.map fun entry => entry.content := by
  simp only [get?, find?, ancestry, lineage, pathTo?, List.head?_map, Option.map_map]
  rfl

theorem key?_eq_lineage (tree : Tree N) (number : Nat) :
    tree.key? number = (lineage number tree.branches).head?.bind fun entry => entry.key := by
  simp only [key?, find?, ancestry, lineage, pathTo?, List.head?_map, Option.bind_map]
  rfl

theorem contains_eq_lineage (tree : Tree N) (number : Nat) :
    tree.contains number = (lineage number tree.branches).head?.isSome := by
  simp only [contains, find?, ancestry, lineage, pathTo?, List.head?_map, Option.isSome_map]

theorem parent?_eq_lineage (tree : Tree N) (id : Nat) :
    tree.parent? id = (lineage id tree.branches)[1]?.map Entry.id := by
  simp only [parent?, ancestry, lineage, pathTo?, List.getElem?_map, Option.map_map]
  rfl

theorem currentScope_eq_lineage [Scoped N] (tree : Tree N) (id : Nat) :
    tree.currentScope id =
      ((lineage id tree.branches).findSome? fun entry => Scoped.boundary? entry.content).bind
        Boundary.inside := by
  rw [currentScope, ancestry, lineage, List.findSome?_map]
  rfl

theorem currentScope_of_boundary [Scoped N] {id : Nat} {node : N} {boundary : Boundary}
    (got : tree.get? id = some node) (marks : Scoped.boundary? node = some boundary) :
    tree.currentScope id = boundary.inside := by
  rw [get?_eq_lineage, Option.map_eq_some_iff] at got
  obtain ⟨entry, first, rfl⟩ := got
  obtain ⟨outward, way⟩ := List.head?_eq_some_iff.mp first
  rw [currentScope_eq_lineage, way, List.findSome?_cons, marks]
  rfl

theorem mem_ancestors_self {outer inner : Nat} :
    outer ∈ tree.ancestors inner true ↔ Above tree.branches outer inner := by
  rw [ancestors_self, Above]

theorem mem_ancestors_outside (numbered : tree.Numbered) {outer inner : Nat} :
    outer ∈ tree.ancestors inner false ↔ Above tree.branches outer inner ∧ outer ≠ inner := by
  rw [ancestors_outside, Above]
  by_cases live : inner ∈ numbers tree.branches
  · obtain ⟨entry, outward, way, rfl⟩ := lineage_head live
    have once := lineage_nodup numbered.distinct entry.id
    rw [way, List.map_cons, List.nodup_cons] at once
    rw [way, List.tail_cons, List.map_cons, List.mem_cons]
    exact ⟨fun listed => ⟨Or.inr listed, fun same => once.1 (same ▸ listed)⟩,
      fun ⟨either, other⟩ => either.resolve_left other⟩
  · rw [lineage_of_not_mem live]
    simp

theorem child_on_way (numbered : tree.Numbered) {number : Nat} {front back : List (Entry N)}
    {inner outer : Entry N} (way : lineage number tree.branches = front ++ inner :: outer :: back) :
    ∃ holder ∈ tree.live, holder.id = outer.id ∧ ∃ child ∈ holder.children, child.id = inner.id := by
  have line := lineage_suffix numbered.distinct way
  exact live_of_parent? numbered (by rw [parent?_eq_lineage, line]; rfl)

theorem exists_child_above (numbered : tree.Numbered) {holder last : Nat}
    (above : Above tree.branches holder last) (other : holder ≠ last) :
    ∃ child ∈ tree.children holder, Above tree.branches child last := by
  obtain ⟨entry, back, line, rfl⟩ := lineage_head above.outer_mem
  obtain ⟨first, outward, start, rfl⟩ := lineage_head above.inner_mem
  obtain ⟨front, way⟩ := above.split numbered.distinct
  rw [line] at way
  rcases front.eq_nil_or_concat with rfl | ⟨ahead, inner, rfl⟩
  · rw [start] at way
    exact absurd (congrArg Entry.id (List.cons.inj way).1).symm other
  · rw [List.concat_eq_append, List.append_assoc, List.singleton_append] at way
    obtain ⟨parent, live, same, child, below, named⟩ := child_on_way numbered way
    rw [← same, children_of_live numbered live]
    refine ⟨child.id, List.mem_map_of_mem below, ?_⟩
    rw [Above, way, List.map_append, named]
    exact List.mem_append_right _ List.mem_cons_self

/-- Where all that lies below a node is on the way to another one or below that, each node between
the two has a single child. -/
theorem only_child (numbered : tree.Numbered) {top last holder : Nat}
    (strung : ∀ number, Above tree.branches top number →
      Above tree.branches number last ∨ Above tree.branches last number)
    (inside : Above tree.branches top holder) (above : Above tree.branches holder last)
    (other : holder ≠ last) : ∃ child, tree.children holder = [child] := by
  have distinct := numbered.distinct
  obtain ⟨child, listed, onward⟩ := exists_child_above numbered above other
  obtain ⟨branch, live, rfl⟩ := exists_of_mem_numbers above.outer_mem
  rw [children_of_live numbered live] at listed
  obtain ⟨own, below, rfl⟩ := List.mem_map.mp listed
  have self : Above tree.branches branch.id branch.id := .self (id_mem_numbers live)
  have same : ∀ next ∈ branch.children, next.id = own.id := by
    intro next member
    have under : Above tree.branches branch.id next.id :=
      (above_child distinct live member).mpr (Or.inr self)
    have further : Above tree.branches next.id last := by
      rcases strung next.id (inside.trans distinct under) with before | after
      · exact before
      · rcases (above_child distinct live member).mp after with here | outside
        · exact here ▸ .self above.inner_mem
        · exact absurd (above.antisymm distinct outside) other
    rcases further.total distinct onward with first | second
    · exact ((above_child distinct live below).mp first).resolve_right
        (not_above_child distinct live member)
    · exact (((above_child distinct live member).mp second).resolve_right
        (not_above_child distinct live below)).symm
  have once := (numbered.linked.children (contains_of_live numbered live)).1
  refine ⟨own.id, ?_⟩
  rw [children_of_live numbered live] at once ⊢
  exact List.perm_singleton.mp ((List.perm_ext_iff_of_nodup once (List.pairwise_singleton _ _)).mpr
    fun number => ⟨fun present => by
      obtain ⟨next, member, rfl⟩ := List.mem_map.mp present
      exact List.mem_singleton.mpr (same next member), fun present => by
      rw [List.mem_singleton.mp present]
      exact listed⟩)

end Tree

end ScopedClauses
