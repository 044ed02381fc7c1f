import ScopedClauses.Proofs.Tree.Moving

/-!
Forests with several branches cut off. Cutting commutes with changes elsewhere, and a node that
lies in none of the branches stays, without what is cut off below it.
-/

namespace ScopedClauses

namespace Rose

variable {N : Type}

def cutOff (gone : List Nat) (forest : List (Branch N)) : List (Branch N) :=
  pruneAll (·.id ∈ gone) forest

@[simp] theorem cutOff_nil (gone : List Nat) : cutOff gone ([] : List (Branch N)) = [] := rfl

theorem cutOff_cons (gone : List Nat) (label : Entry N) (children rest : List (Branch N)) :
    cutOff gone (.node label children :: rest) =
      if label.id ∈ gone then cutOff gone rest
      else .node label (cutOff gone children) :: cutOff gone rest := by
  simp only [cutOff, pruneAll, prune?, decide_eq_true_eq]
  by_cases here : label.id ∈ gone <;> simp [here]

def trimmed (gone : List Nat) (branch : Branch N) : Branch N :=
  .node branch.label (cutOff gone branch.children)

@[simp] theorem id_trimmed (gone : List Nat) (branch : Branch N) :
    (trimmed gone branch).id = branch.id := rfl

@[simp] theorem content_trimmed (gone : List Nat) (branch : Branch N) :
    (trimmed gone branch).content = branch.content := rfl

@[simp] theorem label_trimmed (gone : List Nat) (branch : Branch N) :
    (trimmed gone branch).label = branch.label := rfl

@[simp] theorem children_trimmed (gone : List Nat) (branch : Branch N) :
    (trimmed gone branch).children = cutOff gone branch.children := rfl

theorem cutOff_singleton {gone : List Nat} {branch : Branch N} (stays : branch.id ∉ gone) :
    cutOff gone [branch] = [trimmed gone branch] := by
  obtain ⟨label, children⟩ := branch
  rw [id_node] at stays
  rw [cutOff_cons, if_neg stays]
  rfl

theorem cutOff_append (gone : List Nat) (front back : List (Branch N)) :
    cutOff gone (front ++ back) = cutOff gone front ++ cutOff gone back := by
  induction front with
  | nil => rfl
  | cons branch rest ih =>
      obtain ⟨label, children⟩ := branch
      rw [List.cons_append, cutOff_cons, cutOff_cons, ih]
      split <;> rfl

theorem pruneAt_eq_cutOff (number : Nat) (forest : List (Branch N)) :
    pruneAt number forest = cutOff [number] forest := by
  simp only [pruneAt, cutOff, List.mem_singleton]

theorem cutOff_of_apart {gone : List Nat} (forest : List (Branch N))
    (apart : ∀ number ∈ numbers forest, number ∉ gone) : cutOff gone forest = forest := by
  induction forest using forestInduction with
  | nil => rfl
  | cons label children rest ihBelow ihBeside =>
      rw [cutOff_cons, if_neg (apart label.id (by simp)), ihBelow fun number inside =>
        apart number (by simp [inside]), ihBeside fun number outside =>
        apart number (by simp [outside])]

theorem cutOff_none (forest : List (Branch N)) : cutOff [] forest = forest :=
  cutOff_of_apart forest fun _ _ listed => by cases listed

theorem trimmed_of_apart {gone : List Nat} {branch : Branch N}
    (apart : ∀ number ∈ numbers [branch], number ∉ gone) : trimmed gone branch = branch := by
  have whole := cutOff_of_apart [branch] apart
  rw [cutOff_singleton (apart branch.id (id_mem_numbers (self_mem branch)))] at whole
  exact (List.cons.inj whole).1

theorem numbers_cutOff_sublist (gone : List Nat) (forest : List (Branch N)) :
    (numbers (cutOff gone forest)).Sublist (numbers forest) := by
  induction forest using forestInduction with
  | nil => exact List.Sublist.refl _
  | cons label children rest ihBelow ihBeside =>
      rw [cutOff_cons]
      split
      · rw [numbers_cons]
        exact (ihBeside.trans (List.sublist_append_right _ _)).cons _
      · rw [numbers_cons, numbers_cons]
        exact (ihBelow.append ihBeside).cons_cons _

theorem distinct_cutOff {gone : List Nat} {forest : List (Branch N)}
    (distinct : (numbers forest).Nodup) : (numbers (cutOff gone forest)).Nodup :=
  distinct.sublist (numbers_cutOff_sublist gone forest)

theorem numbers_trimmed_sublist (gone : List Nat) (branch : Branch N) :
    (numbers [trimmed gone branch]).Sublist (numbers [branch]) := by
  obtain ⟨label, children⟩ := branch
  rw [trimmed, numbers_cons, numbers_cons]
  exact ((numbers_cutOff_sublist gone children).append_right _).cons_cons _

theorem cutOff_cutOff (first second : List Nat) (forest : List (Branch N)) :
    cutOff second (cutOff first forest) = cutOff (first ++ second) forest := by
  induction forest using forestInduction with
  | nil => rfl
  | cons label children rest ihBelow ihBeside =>
      rw [cutOff_cons, cutOff_cons]
      by_cases early : label.id ∈ first
      · rw [if_pos early, if_pos (List.mem_append_left _ early), ihBeside]
      · rw [if_neg early, cutOff_cons]
        by_cases late : label.id ∈ second
        · rw [if_pos late, if_pos (List.mem_append_right _ late), ihBeside]
        · rw [if_neg late, if_neg (by simp [early, late]), ihBelow, ihBeside]

theorem cutOff_congr {first second : List Nat} (same : ∀ number, number ∈ first ↔ number ∈ second)
    (forest : List (Branch N)) : cutOff first forest = cutOff second forest := by
  simp only [cutOff, same]

theorem cutOff_of_subset {gone wider : List Nat} (part : gone ⊆ wider) (forest : List (Branch N)) :
    cutOff wider (cutOff gone forest) = cutOff wider forest := by
  rw [cutOff_cutOff]
  refine cutOff_congr (fun number => ?_) forest
  rw [List.mem_append]
  exact or_iff_right_of_imp fun early => part early

theorem cutOff_concat {inner : List Nat} (forest : List (Branch N))
    (distinct : (numbers forest).Nodup) {branch : Branch N} (member : branch ∈ preorderAll forest)
    (inside : ∀ number ∈ inner, number ∈ numbers [branch]) :
    cutOff (inner ++ [branch.id]) forest = cutOff [branch.id] forest := by
  have every : ∀ number ∈ inner ++ [branch.id], number ∈ numbers [branch] := by
    intro number listed
    rcases List.mem_append.mp listed with early | last
    · exact inside number early
    · rw [List.mem_singleton.mp last]
      exact id_mem_numbers (self_mem branch)
  have both : ∀ others : List (Branch N),
      (∀ number ∈ numbers [branch], number ∉ numbers others) →
      cutOff (inner ++ [branch.id]) others = cutOff [branch.id] others := by
    intro others apart
    rw [cutOff_of_apart others fun number present listed =>
        apart number (every number listed) present,
      cutOff_of_apart others fun number present listed =>
        apart number (every number (List.mem_append_right _ listed)) present]
  induction forest using forestInduction with
  | nil => simp at member
  | cons label children rest ihBelow ihBeside =>
      obtain ⟨notBelow, notBeside, below, beside, apart⟩ := distinct_cons distinct
      simp only [preorderAll_cons, List.mem_cons, List.mem_append] at member
      rcases member with rfl | within | outside
      · rw [cutOff_cons, cutOff_cons, if_pos (by simp), if_pos (by simp)]
        refine both rest fun number present => ?_
        simp only [numbers_cons, numbers_nil, List.append_nil, List.mem_cons] at present
        rcases present with rfl | deeper
        · exact notBeside
        · exact apart number deeper
      · have covered := (sublist_numbers children within).subset
        have stays : label.id ∉ inner ++ [branch.id] := fun listed =>
          notBelow (covered (every label.id listed))
        rw [cutOff_cons, cutOff_cons, if_neg stays, if_neg fun listed =>
            stays (List.mem_append_right _ listed), ihBelow below within,
          both rest fun number present => apart number (covered present)]
      · have covered := (sublist_numbers rest outside).subset
        have stays : label.id ∉ inner ++ [branch.id] := fun listed =>
          notBeside (covered (every label.id listed))
        rw [cutOff_cons, cutOff_cons, if_neg stays, if_neg fun listed =>
            stays (List.mem_append_right _ listed), ihBeside beside outside,
          both children fun number present inChildren =>
            apart number inChildren (covered present)]

theorem cutOff_updateAt {gone : List Nat} {number : Nat} {new : Branch N} (stays : number ∉ gone)
    (apart : ∀ inside ∈ numbers [new], inside ∉ gone) (forest : List (Branch N)) :
    cutOff gone (updateAt number (fun _ => new) forest) =
      updateAt number (fun _ => new) (cutOff gone forest) := by
  induction forest using forestInduction with
  | nil => rfl
  | cons label children rest ihBelow ihBeside =>
      rw [updateAt_cons, cutOff_cons]
      by_cases here : label.id = number
      · have whole := cutOff_of_apart [new] apart
        rw [if_pos here, if_neg (here ▸ stays), updateAt_cons, if_pos here,
          ← List.singleton_append, cutOff_append, whole, ihBeside]
        rfl
      · rw [if_neg here, cutOff_cons]
        by_cases cut : label.id ∈ gone
        · rw [if_pos cut, if_pos cut, ihBeside]
        · rw [if_neg cut, if_neg cut, updateAt_cons, if_neg here, ihBelow, ihBeside]

theorem updateAt_twice {number : Nat} {first second : Branch N} (same : first.id = number)
    (forest : List (Branch N)) :
    updateAt number (fun _ => second) (updateAt number (fun _ => first) forest) =
      updateAt number (fun _ => second) forest := by
  induction forest using forestInduction with
  | nil => rfl
  | cons label children rest ihBelow ihBeside =>
      rw [updateAt_cons, updateAt_cons]
      by_cases here : label.id = number
      · obtain ⟨entry, below⟩ := first
        rw [id_node] at same
        rw [if_pos here, if_pos here, updateAt_cons, if_pos same, ihBeside]
      · rw [if_neg here, if_neg here, updateAt_cons, if_neg here, ihBelow, ihBeside]

theorem mem_cutOff {gone : List Nat} (forest : List (Branch N)) {branch : Branch N}
    (member : branch ∈ preorderAll forest)
    (free : ∀ head ∈ preorderAll forest, head.id ∈ gone → branch.id ∉ numbers [head]) :
    trimmed gone branch ∈ preorderAll (cutOff gone forest) := by
  induction forest using forestInduction with
  | nil => simp at member
  | cons label children rest ihBelow ihBeside =>
      have here := free (.node label children) (by simp)
      simp only [id_node, numbers_cons, numbers_nil, List.append_nil, List.mem_cons] at here
      simp only [preorderAll_cons, List.mem_cons, List.mem_append] at member
      rw [cutOff_cons]
      rcases member with rfl | inside | outside
      · rw [if_neg fun cut => here cut (by simp)]
        simp [trimmed]
      · rw [if_neg fun cut => here cut (by simp [id_mem_numbers inside]), preorderAll_cons]
        refine List.mem_cons_of_mem _ (List.mem_append_left _ (ihBelow inside ?_))
        exact fun head within => free head (by simp [within])
      · have later := ihBeside outside fun head within => free head (by simp [within])
        split
        · exact later
        · rw [preorderAll_cons]
          exact List.mem_cons_of_mem _ (List.mem_append_right _ later)

theorem mem_updateAt_around {number : Nat} {new : Branch N} (forest : List (Branch N))
    {branch : Branch N} (member : branch ∈ preorderAll forest)
    (free : ∀ head ∈ preorderAll forest, head.id = number → branch.id ∉ numbers [head]) :
    .node branch.label (updateAt number (fun _ => new) branch.children) ∈
      preorderAll (updateAt number (fun _ => new) forest) := by
  induction forest using forestInduction with
  | nil => simp at member
  | cons label children rest ihBelow ihBeside =>
      have here := free (.node label children) (by simp)
      simp only [id_node, numbers_cons, numbers_nil, List.append_nil, List.mem_cons] at here
      simp only [preorderAll_cons, List.mem_cons, List.mem_append] at member
      rw [updateAt_cons]
      rcases member with rfl | inside | outside
      · rw [if_neg fun same => here same (by simp)]
        simp
      · rw [if_neg fun same => here same (by simp [id_mem_numbers inside]), preorderAll_cons]
        refine List.mem_cons_of_mem _ (List.mem_append_left _ (ihBelow inside ?_))
        exact fun head within => free head (by simp [within])
      · have later := ihBeside outside fun head within => free head (by simp [within])
        rw [← List.singleton_append, preorderAll_append]
        exact List.mem_append_right _ later

theorem exists_of_mem_cutOff {gone : List Nat} {forest : List (Branch N)} {branch : Branch N}
    (member : branch ∈ cutOff gone forest) :
    ∃ old ∈ forest, old.id ∉ gone ∧ branch = trimmed gone old := by
  induction forest with
  | nil => simp at member
  | cons first rest ih =>
      obtain ⟨label, children⟩ := first
      rw [cutOff_cons] at member
      split at member
      · obtain ⟨old, present, found⟩ := ih member
        exact ⟨old, by simp [present], found⟩
      · rename_i stays
        rcases List.mem_cons.mp member with rfl | later
        · exact ⟨.node label children, by simp, stays, rfl⟩
        · obtain ⟨old, present, found⟩ := ih later
          exact ⟨old, by simp [present], found⟩

theorem mem_cutOff_top {gone : List Nat} {forest : List (Branch N)} {branch : Branch N}
    (member : branch ∈ forest) (stays : branch.id ∉ gone) :
    trimmed gone branch ∈ cutOff gone forest := by
  obtain ⟨front, back, rfl⟩ := List.append_of_mem member
  rw [cutOff_append, ← List.singleton_append, cutOff_append, cutOff_singleton stays]
  simp

theorem exists_of_mem_updateAt {number : Nat} {new branch : Branch N} {forest : List (Branch N)}
    (member : branch ∈ updateAt number (fun _ => new) forest) (other : branch ≠ new) :
    ∃ old ∈ forest, old.id ≠ number ∧
      branch = .node old.label (updateAt number (fun _ => new) old.children) := by
  induction forest with
  | nil => simp at member
  | cons first rest ih =>
      obtain ⟨label, children⟩ := first
      rw [updateAt_cons] at member
      rcases List.mem_cons.mp member with same | later
      · split at same
        · exact absurd same other
        · rename_i elsewhere
          exact ⟨.node label children, by simp, elsewhere, same⟩
      · obtain ⟨old, present, found⟩ := ih later
        exact ⟨old, by simp [present], found⟩

theorem mem_updateAt_top {number : Nat} {new branch : Branch N} {forest : List (Branch N)}
    (member : branch ∈ forest) (other : branch.id ≠ number) :
    .node branch.label (updateAt number (fun _ => new) branch.children) ∈
      updateAt number (fun _ => new) forest := by
  obtain ⟨front, back, rfl⟩ := List.append_of_mem member
  obtain ⟨label, children⟩ := branch
  rw [id_node] at other
  rw [updateAt_append, updateAt_cons, if_neg other]
  simp

/-! ### Branches of one number -/

theorem eq_of_id {forest : List (Branch N)} (distinct : (numbers forest).Nodup)
    {first second : Branch N} (memberFirst : first ∈ preorderAll forest)
    (memberSecond : second ∈ preorderAll forest) (same : first.id = second.id) :
    first = second := by
  obtain ⟨_, pathFirst, _⟩ := pathTo?_of_mem forest distinct memberFirst
  obtain ⟨_, pathSecond, _⟩ := pathTo?_of_mem forest distinct memberSecond
  rw [same, pathSecond] at pathFirst
  exact (List.cons.inj (Option.some.inj pathFirst)).1.symm

theorem mem_cutOff_apart {forest : List (Branch N)} (distinct : (numbers forest).Nodup)
    {cut other inner : Branch N} (live : cut ∈ preorderAll forest)
    (member : other ∈ preorderAll forest)
    (apart : ∀ number ∈ numbers [cut], number ∉ numbers [other])
    (within : inner ∈ preorderAll [other]) : inner ∈ preorderAll (cutOff [cut.id] forest) := by
  have covered := (sublist_numbers [other] within).subset
  have free : ∀ head ∈ preorderAll forest, head.id ∈ [cut.id] → inner.id ∉ numbers [head] := by
    intro head headLive listed above
    rw [eq_of_id distinct headLive live (List.mem_singleton.mp listed)] at above
    exact apart _ above (covered (id_mem_numbers (self_mem inner)))
  have intact : ∀ number ∈ numbers [inner], number ∉ [cut.id] := fun number inside listed => by
    rw [List.mem_singleton.mp listed] at inside
    exact apart _ (id_mem_numbers (self_mem cut)) (covered inside)
  have kept := mem_cutOff forest (mem_preorderAll_of_branch forest member within) free
  rwa [trimmed_of_apart intact] at kept

theorem branch_of_mem_numbers {forest : List (Branch N)} (distinct : (numbers forest).Nodup)
    {outer inner : Branch N} (memberOuter : outer ∈ preorderAll forest)
    (memberInner : inner ∈ preorderAll forest) (inside : inner.id ∈ numbers [outer]) :
    inner ∈ preorderAll [outer] := by
  obtain ⟨found, within, same⟩ := exists_of_mem_numbers inside
  have known := mem_preorderAll_of_branch forest memberOuter within
  rwa [eq_of_id distinct memberInner known same.symm]

theorem not_both_inside {forest : List (Branch N)} (distinct : (numbers forest).Nodup)
    {outer inner : Branch N} (memberOuter : outer ∈ preorderAll forest)
    (memberInner : inner ∈ preorderAll forest) (below : inner.id ∈ numbers outer.children)
    (above : outer.id ∈ numbers [inner]) : False := by
  obtain ⟨found, within, same⟩ := exists_of_mem_numbers below
  have known := mem_preorderAll_trans forest memberOuter within
  rw [eq_of_id distinct known memberInner same] at within
  have shorter := (sublist_numbers outer.children within).length_le
  have longer := (sublist_numbers [inner]
    (branch_of_mem_numbers distinct memberInner memberOuter above)).length_le
  rw [← node_eta outer, numbers_cons] at longer
  simp at longer
  omega

theorem apart_of_child {forest : List (Branch N)} (distinct : (numbers forest).Nodup)
    {target holder child : Branch N} (live : target ∈ preorderAll forest)
    (above : holder ∈ preorderAll forest) (below : child ∈ holder.children)
    (inside : target.id ∈ numbers holder.children) (free : target.id ∉ numbers [child]) :
    ∀ number ∈ numbers [child], number ∉ numbers [target] := by
  intro number within present
  have member := mem_preorderAll_trans forest above (mem_preorderAll_of_mem below)
  rcases nested_of_shared distinct member live within present with deep | outer
  · have passed := (passes_iff distinct live).mpr deep
    rw [lineage_child distinct above below, List.map_cons, List.mem_cons] at passed
    rcases passed with same | further
    · exact free (same ▸ id_mem_numbers (self_mem child))
    · exact not_both_inside distinct above live inside ((passes_iff distinct live).mp further)
  · exact free outer

end Rose

end ScopedClauses
