import ScopedClauses.Proofs.Scope.Site
import ScopedClauses.Proofs.Tree.Cutting

/-!
Properties of nodes and their scopes in forests with branches cut off: they tell which part of
a forest is in order while the rest still has to be moved.
-/

namespace ScopedClauses

namespace Rose

variable {N : Type} [Scoped N] {good : N → Option String → Prop}

theorem site_unique {outer : Option String} {forest : List (Branch N)}
    (distinct : (numbers forest).Nodup) {branch : Branch N} {first second : Option String}
    (site : (branch, first) ∈ sites outer forest) (other : (branch, second) ∈ sites outer forest) :
    first = second := by
  obtain ⟨outward, path, rfl⟩ := scopeAlong_of_site outer forest distinct site
  obtain ⟨otherOutward, otherPath, rfl⟩ := scopeAlong_of_site outer forest distinct other
  rw [path] at otherPath
  rw [(List.cons.inj (Option.some.inj otherPath)).2]

theorem site_cutOff {gone : List Nat} (outer : Option String) (forest : List (Branch N))
    {branch : Branch N} {around : Option String} (site : (branch, around) ∈ sites outer forest)
    (free : ∀ head ∈ preorderAll forest, head.id ∈ gone → branch.id ∉ numbers [head]) :
    (trimmed gone branch, around) ∈ sites outer (cutOff gone forest) := by
  induction forest using forestInduction generalizing outer with
  | nil => simp at site
  | cons label children rest ihBelow ihBeside =>
      have here := free (.node label children) (by simp)
      simp only [id_node, numbers_cons, numbers_nil, List.append_nil, List.mem_cons] at here
      simp only [sites_cons, List.mem_cons, List.mem_append, Prod.mk.injEq] at site
      rw [cutOff_cons]
      rcases site with ⟨rfl, rfl⟩ | inside | outside
      · rw [if_neg fun cut => here cut (by simp)]
        simp [trimmed]
      · have live := id_mem_numbers (mem_of_site inside)
        rw [if_neg fun cut => here cut (by simp [live]), sites_cons]
        refine List.mem_cons_of_mem _ (List.mem_append_left _ (ihBelow _ inside ?_))
        exact fun head within => free head (by simp [within])
      · have later := ihBeside _ outside fun head within => free head (by simp [within])
        split
        · exact later
        · rw [sites_cons]
          exact List.mem_cons_of_mem _ (List.mem_append_right _ later)

theorem everywhere_of_site (outer : Option String) (forest : List (Branch N))
    (holds : Everywhere good outer (shapes forest)) {branch : Branch N} {around : Option String}
    (site : (branch, around) ∈ sites outer forest) : Everywhere good around [branch.shape] := by
  induction forest using forestInduction generalizing outer with
  | nil => simp at site
  | cons label children rest ihBelow ihBeside =>
      rw [shapes_cons, everywhere_cons] at holds
      simp only [sites_cons, List.mem_cons, List.mem_append, Prod.mk.injEq] at site
      rcases site with ⟨rfl, rfl⟩ | inside | outside
      · rw [shape_node, everywhere_cons]
        exact ⟨holds.1, holds.2.1, trivial⟩
      · exact ihBelow _ holds.2.1 inside
      · exact ihBeside _ holds.2.2 outside

theorem everywhere_of_mem {scope : Option String} {forest : List (Branch N)}
    (holds : Everywhere good scope (shapes forest)) {branch : Branch N} (member : branch ∈ forest) :
    Everywhere good scope [branch.shape] :=
  everywhere_of_site scope forest holds (top_site member)

theorem everywhere_cutOff (gone : List Nat) (outer : Option String) (forest : List (Branch N))
    (holds : Everywhere good outer (shapes forest)) :
    Everywhere good outer (shapes (cutOff gone forest)) := by
  induction forest using forestInduction generalizing outer with
  | nil => trivial
  | cons label children rest ihBelow ihBeside =>
      rw [shapes_cons, everywhere_cons] at holds
      rw [cutOff_cons]
      split
      · exact ihBeside _ holds.2.2
      · rw [shapes_cons, everywhere_cons]
        exact ⟨holds.1, ihBelow _ holds.2.1, ihBeside _ holds.2.2⟩

theorem everywhere_cutOff_mono {gone wider : List Nat} (part : gone ⊆ wider)
    {outer : Option String} {forest : List (Branch N)}
    (holds : Everywhere good outer (shapes (cutOff gone forest))) :
    Everywhere good outer (shapes (cutOff wider forest)) := by
  rw [← cutOff_of_subset part]
  exact everywhere_cutOff wider outer _ holds

theorem everywhere_cutOff_updateAt {gone wider : List Nat} (part : gone ⊆ wider)
    (outer : Option String) (forest : List (Branch N)) (distinct : (numbers forest).Nodup)
    {branch new : Branch N} (member : branch ∈ preorderAll forest)
    (holds : Everywhere good outer (shapes (cutOff gone forest)))
    (change : ∀ around, (branch, around) ∈ sites outer forest →
      Everywhere good around (shapes (cutOff gone [branch])) →
      Everywhere good around (shapes (cutOff wider [new]))) :
    Everywhere good outer (shapes (cutOff wider (updateAt branch.id (fun _ => new) forest))) := by
  have split : ∀ (less : List Nat) (scope : Option String) (first : Branch N)
      (rest : List (Branch N)), Everywhere good scope (shapes (cutOff less (first :: rest))) ↔
        Everywhere good scope (shapes (cutOff less [first])) ∧
          Everywhere good scope (shapes (cutOff less rest)) := by
    intro less scope first rest
    rw [← List.singleton_append, cutOff_append, shapes_append, everywhere_append]
  induction forest using forestInduction generalizing outer with
  | nil => simp at member
  | cons label children rest ihBelow ihBeside =>
      obtain ⟨_, _, below, beside, _⟩ := distinct_cons distinct
      simp only [preorderAll_cons, List.mem_cons, List.mem_append] at member
      rcases member with rfl | inside | outside
      · rw [id_node, updateAt_here distinct]
        rw [split] at holds ⊢
        exact ⟨change outer (by simp) holds.1, everywhere_cutOff_mono part holds.2⟩
      · rw [updateAt_below distinct _ (id_mem_numbers inside)]
        rw [split] at holds ⊢
        refine ⟨?_, everywhere_cutOff_mono part holds.2⟩
        have here := holds.1
        rw [cutOff_cons] at here ⊢
        by_cases cut : label.id ∈ wider
        · rw [if_pos cut]
          trivial
        · rw [if_neg fun early => cut (part early), shapes_cons, everywhere_cons] at here
          rw [if_neg cut, shapes_cons, everywhere_cons]
          refine ⟨here.1, ihBelow _ below inside here.2.1 fun around site => ?_, trivial⟩
          exact change around (by simp [site])
      · rw [updateAt_beside distinct _ (id_mem_numbers outside)]
        rw [split] at holds ⊢
        refine ⟨everywhere_cutOff_mono part holds.1, ?_⟩
        exact ihBeside _ beside outside holds.2 fun around site => change around (by simp [site])

end Rose

end ScopedClauses
