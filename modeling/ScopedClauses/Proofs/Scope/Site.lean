import ScopedClauses.Proofs.Tree.Numbering
import ScopedClauses.Scope.Basic

/-!
The scopes of the nodes of a forest. A property of nodes and their scopes that holds everywhere
is a property of the shape alone, and changing a branch asks for it again in that branch only.
-/

namespace ScopedClauses

namespace Rose

variable {N : Type} [Scoped N]

def within (outer : Option String) (content : N) : Option String :=
  match Scoped.boundary? content with
  | some boundary => boundary.inside
  | none => outer

mutual

def sitesIn (outer : Option String) : Branch N → List (Branch N × Option String)
  | .node label children =>
      (.node label children, outer) :: sites (within outer label.content) children

def sites (outer : Option String) : List (Branch N) → List (Branch N × Option String)
  | [] => []
  | branch :: rest => sitesIn outer branch ++ sites outer rest

end

@[simp] theorem sites_nil (outer : Option String) : sites outer ([] : List (Branch N)) = [] := rfl

@[simp] theorem sites_cons (outer : Option String) (label : Entry N)
    (children rest : List (Branch N)) :
    sites outer (.node label children :: rest) =
      (.node label children, outer) :: (sites (within outer label.content) children ++
        sites outer rest) := rfl

theorem sites_cons_eq (outer : Option String) (branch : Branch N) (rest : List (Branch N)) :
    sites outer (branch :: rest) = sites outer [branch] ++ sites outer rest := by
  simp [sites]

theorem map_fst_sites (outer : Option String) (forest : List (Branch N)) :
    (sites outer forest).map (·.1) = preorderAll forest := by
  induction forest using forestInduction generalizing outer with
  | nil => rfl
  | cons label children rest ihBelow ihBeside => simp [ihBelow, ihBeside]

theorem mem_of_site {outer : Option String} {forest : List (Branch N)} {branch : Branch N}
    {around : Option String} (site : (branch, around) ∈ sites outer forest) :
    branch ∈ preorderAll forest := by
  rw [← map_fst_sites outer forest]
  exact List.mem_map_of_mem (f := (·.1)) site

theorem exists_site (outer : Option String) {forest : List (Branch N)} {branch : Branch N}
    (member : branch ∈ preorderAll forest) :
    ∃ around, (branch, around) ∈ sites outer forest := by
  rw [← map_fst_sites outer forest] at member
  obtain ⟨⟨_, around⟩, site, rfl⟩ := List.mem_map.mp member
  exact ⟨around, site⟩

theorem top_site {outer : Option String} {forest : List (Branch N)} {branch : Branch N}
    (member : branch ∈ forest) : (branch, outer) ∈ sites outer forest := by
  induction forest with
  | nil => simp at member
  | cons first rest ih =>
      obtain ⟨label, children⟩ := first
      rcases List.mem_cons.mp member with rfl | later
      · simp
      · simp [ih later]

theorem child_site (outer : Option String) (forest : List (Branch N)) {parent child : Branch N}
    {around : Option String} (site : (parent, around) ∈ sites outer forest)
    (below : child ∈ parent.children) :
    (child, within around parent.content) ∈ sites outer forest := by
  induction forest using forestInduction generalizing outer with
  | nil => simp at site
  | cons label children rest ihBelow ihBeside =>
      simp only [sites_cons, List.mem_cons, List.mem_append, Prod.mk.injEq] at site ⊢
      rcases site with ⟨rfl, rfl⟩ | inside | outside
      · exact Or.inr (Or.inl (top_site below))
      · exact Or.inr (Or.inl (ihBelow _ inside))
      · exact Or.inr (Or.inr (ihBeside _ outside))

theorem site_updateAt (outer : Option String) (forest : List (Branch N))
    (distinct : (numbers forest).Nodup) {branch new inner : Branch N}
    {around scope : Option String} (site : (branch, around) ∈ sites outer forest)
    (inside : (inner, scope) ∈ sites around [new]) :
    (inner, scope) ∈ sites outer (updateAt branch.id (fun _ => new) forest) := by
  induction forest using forestInduction generalizing outer with
  | nil => simp at site
  | cons label children rest ihBelow ihBeside =>
      obtain ⟨_, _, below, beside, _⟩ := distinct_cons distinct
      simp only [sites_cons, List.mem_cons, List.mem_append, Prod.mk.injEq] at site
      rcases site with ⟨rfl, rfl⟩ | within | outside
      · rw [id_node, updateAt_here distinct, sites_cons_eq]
        exact List.mem_append_left _ inside
      · rw [updateAt_below distinct _ (id_mem_numbers (mem_of_site within)), sites_cons]
        exact List.mem_cons_of_mem _ (List.mem_append_left _ (ihBelow _ below within))
      · rw [updateAt_beside distinct _ (id_mem_numbers (mem_of_site outside)), sites_cons]
        exact List.mem_cons_of_mem _ (List.mem_append_right _ (ihBeside _ beside outside))

/-! ### Scopes along paths -/

def scopeAlong (outer : Option String) (outward : List (Branch N)) : Option String :=
  match outward.findSome? fun node => Scoped.boundary? node.content with
  | some boundary => boundary.inside
  | none => outer

theorem scopeAlong_cons (outer : Option String) (branch : Branch N)
    (outward : List (Branch N)) :
    scopeAlong outer (branch :: outward) = within (scopeAlong outer outward) branch.content := by
  simp only [scopeAlong, within, List.findSome?_cons]
  cases Scoped.boundary? branch.content <;> rfl

theorem scopeAlong_concat (outer : Option String) (branch : Branch N)
    (outward : List (Branch N)) :
    scopeAlong outer (outward ++ [branch]) = scopeAlong (within outer branch.content) outward := by
  induction outward with
  | nil => rw [List.nil_append, scopeAlong_cons]; rfl
  | cons first rest ih => rw [List.cons_append, scopeAlong_cons, scopeAlong_cons, ih]

/-- The scope around a branch is the one that the path from its parent outwards decides. -/
theorem scopeAlong_of_site (outer : Option String) (forest : List (Branch N))
    (distinct : (numbers forest).Nodup) {branch : Branch N} {around : Option String}
    (site : (branch, around) ∈ sites outer forest) :
    ∃ outward, pathTo? branch.id forest = some (branch :: outward) ∧
      scopeAlong outer outward = around := by
  induction forest using forestInduction generalizing outer with
  | nil => simp at site
  | cons label children rest ihBelow ihBeside =>
      obtain ⟨notBelow, notBeside, below, beside, apart⟩ := distinct_cons distinct
      simp only [sites_cons, List.mem_cons, List.mem_append, Prod.mk.injEq] at site
      rw [pathTo?_cons]
      rcases site with ⟨rfl, rfl⟩ | inside | outside
      · exact ⟨[], by simp, rfl⟩
      · have live := id_mem_numbers (mem_of_site inside)
        have other : label.id ≠ branch.id := fun same => notBelow (by rwa [same])
        obtain ⟨outward, path, scope⟩ := ihBelow _ below inside
        refine ⟨outward ++ [.node label children], ?_, ?_⟩
        · rw [if_neg other, path]
          rfl
        · rw [scopeAlong_concat]
          exact scope
      · have live := id_mem_numbers (mem_of_site outside)
        have other : label.id ≠ branch.id := fun same => notBeside (by rwa [same])
        have absent : branch.id ∉ numbers children := fun inside => apart _ inside live
        obtain ⟨outward, path, scope⟩ := ihBeside _ beside outside
        refine ⟨outward, ?_, scope⟩
        rw [if_neg other, (pathTo?_eq_none_iff children).mpr absent]
        exact path

/-! ### Everywhere -/

mutual

def EverywhereIn (good : N → Option String → Prop) (outer : Option String) : Shape N → Prop
  | .node label children =>
      good label.content (within outer label.content) ∧
        Everywhere good (within outer label.content) children

def Everywhere (good : N → Option String → Prop) (outer : Option String) :
    List (Shape N) → Prop
  | [] => True
  | shape :: rest => EverywhereIn good outer shape ∧ Everywhere good outer rest

end

section Everywhere

variable {good : N → Option String → Prop}

@[simp] theorem everywhere_nil (outer : Option String) :
    Everywhere good outer ([] : List (Shape N)) := trivial

@[simp] theorem everywhere_cons (outer : Option String) (label : Keyed N)
    (children rest : List (Shape N)) :
    Everywhere good outer (.node label children :: rest) ↔
      good label.content (within outer label.content) ∧
        Everywhere good (within outer label.content) children ∧ Everywhere good outer rest := by
  simp [Everywhere, EverywhereIn, and_assoc]

theorem everywhere_append (outer : Option String) (front back : List (Shape N)) :
    Everywhere good outer (front ++ back) ↔
      Everywhere good outer front ∧ Everywhere good outer back := by
  induction front with
  | nil => simp
  | cons shape rest ih =>
      obtain ⟨label, children⟩ := shape
      simp [ih, and_assoc]

theorem everywhere_cons_iff (outer : Option String) (shape : Shape N) (rest : List (Shape N)) :
    Everywhere good outer (shape :: rest) ↔
      Everywhere good outer [shape] ∧ Everywhere good outer rest :=
  everywhere_append outer [shape] rest

theorem everywhere_shapes_iff (outer : Option String) (forest : List (Branch N)) :
    Everywhere good outer (shapes forest) ↔
      ∀ site ∈ sites outer forest, good site.1.content (within site.2 site.1.content) := by
  induction forest using forestInduction generalizing outer with
  | nil => simp
  | cons label children rest ihBelow ihBeside =>
      rw [shapes_cons, everywhere_cons, ihBelow, ihBeside, sites_cons, List.forall_mem_cons,
        List.forall_mem_append]
      rfl

theorem everywhere_updateAt (outer : Option String) (forest : List (Branch N))
    (distinct : (numbers forest).Nodup) {branch new : Branch N}
    (member : branch ∈ preorderAll forest) (holds : Everywhere good outer (shapes forest))
    (change : ∀ around, (branch, around) ∈ sites outer forest →
      Everywhere good around [branch.shape] → Everywhere good around [new.shape]) :
    Everywhere good outer (shapes (updateAt branch.id (fun _ => new) forest)) := by
  induction forest using forestInduction generalizing outer with
  | nil => simp at member
  | cons label children rest ihBelow ihBeside =>
      obtain ⟨_, _, below, beside, _⟩ := distinct_cons distinct
      simp only [preorderAll_cons, List.mem_cons, List.mem_append] at member
      rcases member with rfl | inside | outside
      · rw [id_node, updateAt_here distinct]
        rw [shapes_cons_eq, everywhere_cons_iff] at holds ⊢
        exact ⟨change outer (by simp) holds.1, holds.2⟩
      · rw [updateAt_below distinct _ (id_mem_numbers inside)]
        rw [shapes_cons, everywhere_cons] at holds ⊢
        refine ⟨holds.1, ihBelow _ below inside holds.2.1 fun around site => ?_, holds.2.2⟩
        exact change around (by simp [site])
      · rw [updateAt_beside distinct _ (id_mem_numbers outside)]
        rw [shapes_cons, everywhere_cons] at holds ⊢
        refine ⟨holds.1, holds.2.1, ihBeside _ beside outside holds.2.2 fun around site => ?_⟩
        exact change around (by simp [site])

end Everywhere

end Rose

namespace Tree

open Rose

variable {N : Type} [Scoped N]

theorem exists_site_of_live {tree : Tree N} {branch : Branch N} (member : branch ∈ tree.live) :
    ∃ around, (branch, around) ∈ sites none tree.branches :=
  exists_site none member

theorem currentScope_of_site {tree : Tree N} (numbered : tree.Numbered) {branch : Branch N}
    {around : Option String} (site : (branch, around) ∈ sites none tree.branches) :
    tree.currentScope branch.id = within around branch.content := by
  obtain ⟨outward, path, scope⟩ :=
    scopeAlong_of_site none tree.branches numbered.distinct site
  have along := scopeAlong_cons none branch outward
  rw [scope] at along
  rw [← along, currentScope, ancestry, show pathAny? _ _ = _ from path, Option.getD_some,
    scopeAlong]
  cases (branch :: outward).findSome? fun node => Scoped.boundary? node.content <;> rfl

/-- A property of all nodes and their scopes, read off the shape of the tree. -/
theorem everywhere_iff {tree : Tree N} {good : N → Option String → Prop}
    (numbered : tree.Numbered) (settled : tree.detached = []) :
    Everywhere good none (shapes tree.branches) ↔
      ∀ node ∈ tree.nodes, good node.content (tree.currentScope node.id) := by
  rw [everywhere_shapes_iff, nodes_eq_live settled]
  constructor
  · intro holds node member
    obtain ⟨around, site⟩ := exists_site_of_live member
    rw [currentScope_of_site numbered site]
    exact holds _ site
  · rintro holds ⟨branch, around⟩ site
    have here := holds branch (mem_of_site site)
    rwa [currentScope_of_site numbered site] at here

theorem Regrown.site {before after : Tree N} {old new inner : Branch N}
    {around scope : Option String} (regrown : Regrown before old new after)
    (numbered : before.Numbered) (site : (old, around) ∈ sites none before.branches)
    (inside : (inner, scope) ∈ sites around [new]) :
    (inner, scope) ∈ sites none after.branches := by
  rw [regrown.branches]
  exact site_updateAt none before.branches numbered.distinct site inside

theorem Regrown.site_new {before after : Tree N} {old new : Branch N} {around : Option String}
    (regrown : Regrown before old new after) (numbered : before.Numbered)
    (site : (old, around) ∈ sites none before.branches) :
    (new, around) ∈ sites none after.branches :=
  regrown.site numbered site (top_site (by simp))

theorem Regrown.everywhere {before after : Tree N} {old new : Branch N}
    {good : N → Option String → Prop} (regrown : Regrown before old new after)
    (numbered : before.Numbered) (member : old ∈ before.live)
    (holds : Everywhere good none (shapes before.branches))
    (change : ∀ around, (old, around) ∈ sites none before.branches →
      Everywhere good around [old.shape] → Everywhere good around [new.shape]) :
    Everywhere good none (shapes after.branches) := by
  rw [regrown.branches]
  exact everywhere_updateAt none before.branches numbered.distinct member holds change

end Tree

end ScopedClauses
