import ScopedClauses.Tree.Basic

/-!
Forests of numbered nodes: where a number is found, and what changing or pruning the tree at a
number leaves alone. A forest is either empty or a node with a forest below it and a forest
beside it, and every proof here is an induction of that shape.
-/

namespace ScopedClauses

namespace Rose

@[elab_as_elim]
theorem forestInduction {α : Type u} {motive : List (Rose α) → Prop} (nil : motive [])
    (cons : ∀ label children rest, motive children → motive rest →
      motive (.node label children :: rest)) : ∀ forest, motive forest
  | [] => nil
  | .node label children :: rest =>
      cons label children rest (forestInduction nil cons children)
        (forestInduction nil cons rest)

variable {N : Type}

@[simp] theorem preorderAll_nil : preorderAll ([] : List (Rose α)) = [] := rfl

@[simp] theorem preorderAll_cons (label : α) (children rest : List (Rose α)) :
    preorderAll (.node label children :: rest) =
      .node label children :: (preorderAll children ++ preorderAll rest) := by
  simp [preorderAll, preorder]

theorem preorderAll_append (front back : List (Rose α)) :
    preorderAll (front ++ back) = preorderAll front ++ preorderAll back := by
  induction front with
  | nil => rfl
  | cons rose rest ih => simp [preorderAll, ih]

theorem mem_preorderAll_of_mem {forest : List (Rose α)} {rose : Rose α}
    (member : rose ∈ forest) : rose ∈ preorderAll forest := by
  induction forest with
  | nil => simp at member
  | cons first rest ih =>
      obtain ⟨label, children⟩ := first
      rcases List.mem_cons.mp member with rfl | later
      · simp
      · simp [ih later]

theorem self_mem (rose : Rose α) : rose ∈ preorderAll [rose] := mem_preorderAll_of_mem (by simp)

theorem mem_preorderAll_trans (forest : List (Rose α)) {outer inner : Rose α}
    (found : outer ∈ preorderAll forest) (below : inner ∈ preorderAll outer.children) :
    inner ∈ preorderAll forest := by
  induction forest using forestInduction with
  | nil => simp at found
  | cons label children rest ihBelow ihBeside =>
      simp only [preorderAll_cons, List.mem_cons, List.mem_append] at found ⊢
      rcases found with rfl | inside | beside
      · exact Or.inr (Or.inl below)
      · exact Or.inr (Or.inl (ihBelow inside))
      · exact Or.inr (Or.inr (ihBeside beside))

theorem top_or_child (forest : List (Rose α)) {rose : Rose α} (found : rose ∈ preorderAll forest) :
    rose ∈ forest ∨ ∃ parent ∈ preorderAll forest, rose ∈ parent.children := by
  induction forest using forestInduction with
  | nil => simp at found
  | cons label children rest ihBelow ihBeside =>
      simp only [preorderAll_cons, List.mem_cons, List.mem_append] at found ⊢
      rcases found with rfl | inside | beside
      · exact Or.inl (Or.inl rfl)
      · rcases ihBelow inside with top | ⟨parent, above, below⟩
        · exact Or.inr ⟨_, Or.inl rfl, top⟩
        · exact Or.inr ⟨parent, Or.inr (Or.inl above), below⟩
      · rcases ihBeside beside with top | ⟨parent, above, below⟩
        · exact Or.inl (Or.inr top)
        · exact Or.inr ⟨parent, Or.inr (Or.inr above), below⟩

/-- What holds of the tops of a forest and goes down to children holds of everything in it. -/
theorem forall_preorderAll {holds : Rose α → Prop} {forest : List (Rose α)}
    (tops : ∀ top ∈ forest, holds top)
    (down : ∀ rose, holds rose → ∀ child ∈ rose.children, holds child) :
    ∀ rose ∈ preorderAll forest, holds rose := by
  induction forest using forestInduction with
  | nil => exact fun _ absent => by cases absent
  | cons label children rest ihBelow ihBeside =>
      rw [List.forall_mem_cons] at tops
      rw [preorderAll_cons, List.forall_mem_cons, List.forall_mem_append]
      exact ⟨tops.1, ihBelow (down _ tops.1), ihBeside tops.2⟩

theorem mem_preorderAll_of_branch (forest : List (Rose α)) {outer inner : Rose α}
    (found : outer ∈ preorderAll forest) (inside : inner ∈ preorderAll [outer]) :
    inner ∈ preorderAll forest := by
  obtain ⟨label, children⟩ := outer
  simp only [preorderAll_cons, preorderAll_nil, List.append_nil, List.mem_cons] at inside
  rcases inside with rfl | below
  · exact found
  · exact mem_preorderAll_trans forest found below

theorem exists_top {forest : List (Rose α)} {inner : Rose α} (member : inner ∈ preorderAll forest) :
    ∃ top ∈ forest, inner ∈ preorderAll [top] := by
  induction forest with
  | nil => simp at member
  | cons first rest ih =>
      rw [← List.singleton_append, preorderAll_append, List.mem_append] at member
      rcases member with inside | outside
      · exact ⟨first, by simp, inside⟩
      · obtain ⟨top, listed, inside⟩ := ih outside
        exact ⟨top, by simp [listed], inside⟩

def numbers (forest : List (Branch N)) : List Nat := (preorderAll forest).map id

@[simp] theorem numbers_nil : numbers ([] : List (Branch N)) = [] := rfl

@[simp] theorem numbers_cons (label : Entry N) (children rest : List (Branch N)) :
    numbers (.node label children :: rest) =
      label.id :: (numbers children ++ numbers rest) := by
  simp [numbers, id, Rose.label]

theorem numbers_append (front back : List (Branch N)) :
    numbers (front ++ back) = numbers front ++ numbers back := by
  simp [numbers, preorderAll_append]

theorem numbers_cons_eq (branch : Branch N) (rest : List (Branch N)) :
    numbers (branch :: rest) = numbers [branch] ++ numbers rest :=
  numbers_append [branch] rest

theorem sublist_numbers (forest : List (Branch N)) {branch : Branch N}
    (member : branch ∈ preorderAll forest) : (numbers [branch]).Sublist (numbers forest) := by
  induction forest using forestInduction with
  | nil => simp at member
  | cons label children rest ihBelow ihBeside =>
      simp only [preorderAll_cons, List.mem_cons, List.mem_append] at member
      rcases member with rfl | inside | outside
      · rw [numbers_cons_eq _ rest]
        exact List.sublist_append_left _ _
      · rw [numbers_cons]
        exact ((ihBelow inside).trans (List.sublist_append_left _ _)).cons _
      · rw [numbers_cons]
        exact ((ihBeside outside).trans (List.sublist_append_right _ _)).cons _

theorem id_mem_numbers {forest : List (Branch N)} {branch : Branch N}
    (member : branch ∈ preorderAll forest) : branch.id ∈ numbers forest :=
  List.mem_map_of_mem member

theorem exists_of_mem_numbers {forest : List (Branch N)} {number : Nat}
    (member : number ∈ numbers forest) :
    ∃ branch ∈ preorderAll forest, branch.id = number :=
  List.mem_map.mp member

theorem numbers_children_sublist (branch : Branch N) :
    (numbers branch.children).Sublist (numbers [branch]) := by
  obtain ⟨label, children⟩ := branch
  rw [numbers_cons, numbers_nil, List.append_nil]
  exact List.sublist_cons_self _ _

@[simp] theorem id_node (label : Entry N) (children : List (Branch N)) :
    Rose.id (.node label children) = label.id := rfl

@[simp] theorem content_node (label : Entry N) (children : List (Branch N)) :
    Rose.content (.node label children) = label.content := rfl

@[simp] theorem key_node (label : Entry N) (children : List (Branch N)) :
    Rose.key (.node label children) = label.key := rfl

@[simp] theorem label_node (label : α) (children : List (Rose α)) :
    Rose.label (.node label children) = label := rfl

@[simp] theorem children_node (label : α) (children : List (Rose α)) :
    Rose.children (.node label children) = children := rfl

def entries (forest : List (Branch N)) : List (Entry N) := (preorderAll forest).map label

@[simp] theorem entries_nil : entries ([] : List (Branch N)) = [] := rfl

@[simp] theorem entries_cons (label : Entry N) (children rest : List (Branch N)) :
    entries (.node label children :: rest) = label :: (entries children ++ entries rest) := by
  simp [entries, Rose.label]

theorem entries_append (front back : List (Branch N)) :
    entries (front ++ back) = entries front ++ entries back := by
  simp [entries, preorderAll_append]

theorem sublist_entries (forest : List (Branch N)) {branch : Branch N}
    (member : branch ∈ preorderAll forest) : (entries branch.children).Sublist (entries forest) := by
  induction forest using forestInduction with
  | nil => cases member
  | cons label children rest ihBelow ihBeside =>
      rw [entries_cons]
      simp only [preorderAll_cons, List.mem_cons, List.mem_append] at member
      rcases member with rfl | below | beside
      · exact (List.sublist_append_left _ _).cons _
      · exact ((ihBelow below).trans (List.sublist_append_left _ _)).cons _
      · exact ((ihBeside beside).trans (List.sublist_append_right _ _)).cons _

theorem map_id_entries (forest : List (Branch N)) :
    (entries forest).map Entry.id = numbers forest := by
  rw [entries, numbers, List.map_map]
  rfl

theorem perm_numbers {first second : List (Branch N)}
    (same : (entries first).Perm (entries second)) : (numbers first).Perm (numbers second) := by
  rw [← map_id_entries, ← map_id_entries]
  exact same.map _

theorem perm_around {first second taken added : List α}
    (change : (first ++ taken).Perm (second ++ added)) (front rest : List α) :
    (front ++ (first ++ rest) ++ taken).Perm (front ++ (second ++ rest) ++ added) := by
  have swap : ∀ left right : List α, (front ++ (left ++ rest) ++ right).Perm
      (front ++ (left ++ right ++ rest)) := fun left right => by
    simp only [List.append_assoc]
    exact (List.perm_append_comm.append_left left).append_left front
  exact (swap first taken).trans
    (((change.append_right rest).append_left front).trans (swap second added).symm)

def shapes (forest : List (Branch N)) : List (Shape N) := mapAll Entry.toKeyed forest

@[simp] theorem shapes_nil : shapes ([] : List (Branch N)) = [] := rfl

@[simp] theorem shape_node (label : Entry N) (children : List (Branch N)) :
    shape (.node label children) = .node label.toKeyed (shapes children) := by
  simp [shape, map, shapes]

theorem shapes_cons_eq (branch : Branch N) (rest : List (Branch N)) :
    shapes (branch :: rest) = branch.shape :: shapes rest := by
  simp [shapes, mapAll, shape]

theorem shapes_cons (label : Entry N) (children rest : List (Branch N)) :
    shapes (.node label children :: rest) =
      .node label.toKeyed (shapes children) :: shapes rest := by
  rw [shapes_cons_eq, shape_node]

theorem shapes_append (front back : List (Branch N)) :
    shapes (front ++ back) = shapes front ++ shapes back := by
  induction front with
  | nil => rfl
  | cons branch rest ih => rw [List.cons_append, shapes_cons_eq, shapes_cons_eq, ih]; rfl

theorem length_shapes (forest : List (Branch N)) : (shapes forest).length = forest.length := by
  induction forest with
  | nil => rfl
  | cons branch rest ih => rw [shapes_cons_eq, List.length_cons, ih, List.length_cons]

theorem mem_shapes {forest : List (Branch N)} {shape : Shape N} :
    shape ∈ shapes forest ↔ ∃ branch ∈ forest, branch.shape = shape := by
  induction forest with
  | nil => simp
  | cons branch rest ih => simp [shapes_cons_eq, ih, eq_comm]

theorem shapes_eq_singleton {forest : List (Branch N)} {shape : Shape N}
    (single : shapes forest = [shape]) : ∃ branch, forest = [branch] ∧ branch.shape = shape := by
  match forest, single with
  | [branch], single =>
      rw [shapes_cons_eq] at single
      exact ⟨branch, rfl, (List.cons.inj single).1⟩
  | first :: second :: rest, single => simp [shapes_cons_eq] at single

theorem shapes_eq_nil {forest : List (Branch N)} (empty : shapes forest = []) : forest = [] := by
  cases forest with
  | nil => rfl
  | cons branch rest => simp [shapes_cons_eq] at empty

theorem node_eta (rose : Rose α) : .node rose.label rose.children = rose := by
  cases rose
  rfl

theorem preorderAll_shapes (forest : List (Branch N)) :
    preorderAll (shapes forest) = (preorderAll forest).map shape := by
  induction forest using forestInduction with
  | nil => rfl
  | cons label children rest ihBelow ihBeside => simp [shapes_cons, ihBelow, ihBeside]

theorem shapes_eq_map (forest : List (Branch N)) : shapes forest = forest.map shape := by
  induction forest with
  | nil => rfl
  | cons branch rest ih => rw [shapes_cons_eq, ih, List.map_cons]

theorem label_shape (branch : Branch N) : branch.shape.label = branch.label.toKeyed := by
  rw [← node_eta branch, shape_node]
  rfl

theorem content_shape (branch : Branch N) : branch.shape.label.content = branch.content := by
  rw [label_shape]
  rfl

theorem children_shape (branch : Branch N) : branch.shape.children = shapes branch.children := by
  rw [← node_eta branch, shape_node]
  rfl

mutual

theorem shape_number (first : Nat) : ∀ shape : Shape N, (number first shape).shape = shape
  | .node label children => by
      rw [number, shape_node, shapes_numberAll (first + 1) children]
  termination_by structural shape => shape

theorem shapes_numberAll (first : Nat) : ∀ forest : List (Shape N),
    shapes (numberAll first forest) = forest
  | [] => rfl
  | shape :: rest => by
      rw [numberAll, shapes_cons_eq, shape_number first shape, shapes_numberAll _ rest]
  termination_by structural forest => forest

end

theorem distinct_cons {label : Entry N} {children rest : List (Branch N)}
    (distinct : (numbers (.node label children :: rest)).Nodup) :
    label.id ∉ numbers children ∧ label.id ∉ numbers rest ∧ (numbers children).Nodup ∧
      (numbers rest).Nodup ∧ ∀ number ∈ numbers children, number ∉ numbers rest := by
  simp only [numbers_cons, List.nodup_cons, List.mem_append, not_or, List.nodup_append] at distinct
  obtain ⟨⟨notBelow, notBeside⟩, below, beside, apart⟩ := distinct
  exact ⟨notBelow, notBeside, below, beside, fun number inside outside =>
    apart number inside number outside rfl⟩

/-! ### Changing the tree at a number -/

def updateAt (number : Nat) (change : Branch N → Branch N) (forest : List (Branch N)) :
    List (Branch N) :=
  updateAll (·.id = number) change forest

@[simp] theorem updateAt_nil (number : Nat) (change : Branch N → Branch N) :
    updateAt number change [] = [] := rfl

theorem updateAt_cons (number : Nat) (change : Branch N → Branch N) (label : Entry N)
    (children rest : List (Branch N)) :
    updateAt number change (.node label children :: rest) =
      (if label.id = number then change (.node label (updateAt number change children))
        else .node label (updateAt number change children)) :: updateAt number change rest := by
  simp [updateAt, updateAll, update]

theorem updateAt_append (number : Nat) (change : Branch N → Branch N)
    (front back : List (Branch N)) :
    updateAt number change (front ++ back) =
      updateAt number change front ++ updateAt number change back := by
  induction front with
  | nil => rfl
  | cons branch rest ih =>
      obtain ⟨label, children⟩ := branch
      rw [List.cons_append, updateAt_cons, updateAt_cons, ih, List.cons_append]

theorem updateAt_of_not_mem {number : Nat} (change : Branch N → Branch N)
    (forest : List (Branch N)) (absent : number ∉ numbers forest) :
    updateAt number change forest = forest := by
  induction forest using forestInduction with
  | nil => rfl
  | cons label children rest ihBelow ihBeside =>
      simp only [numbers_cons, List.mem_cons, List.mem_append, not_or] at absent
      rw [updateAt_cons, ihBelow absent.2.1, ihBeside absent.2.2, if_neg (Ne.symm absent.1)]

theorem updateAt_here {label : Entry N} {children rest : List (Branch N)}
    (distinct : (numbers (.node label children :: rest)).Nodup) (change : Branch N → Branch N) :
    updateAt label.id change (.node label children :: rest) =
      change (.node label children) :: rest := by
  obtain ⟨notBelow, notBeside, _⟩ := distinct_cons distinct
  rw [updateAt_cons, if_pos rfl, updateAt_of_not_mem change children notBelow,
    updateAt_of_not_mem change rest notBeside]

theorem updateAt_below {label : Entry N} {children rest : List (Branch N)}
    (distinct : (numbers (.node label children :: rest)).Nodup) (change : Branch N → Branch N)
    {number : Nat} (inside : number ∈ numbers children) :
    updateAt number change (.node label children :: rest) =
      .node label (updateAt number change children) :: rest := by
  obtain ⟨notBelow, _, _, _, apart⟩ := distinct_cons distinct
  have other : label.id ≠ number := fun same => notBelow (by rwa [same])
  rw [updateAt_cons, if_neg other, updateAt_of_not_mem change rest (apart number inside)]

theorem updateAt_beside {label : Entry N} {children rest : List (Branch N)}
    (distinct : (numbers (.node label children :: rest)).Nodup) (change : Branch N → Branch N)
    {number : Nat} (outside : number ∈ numbers rest) :
    updateAt number change (.node label children :: rest) =
      .node label children :: updateAt number change rest := by
  obtain ⟨_, notBeside, _, _, apart⟩ := distinct_cons distinct
  have other : label.id ≠ number := fun same => notBeside (by rwa [same])
  have absent : number ∉ numbers children := fun inside => apart number inside outside
  rw [updateAt_cons, if_neg other, updateAt_of_not_mem change children absent]

theorem updateAt_eq_const (forest : List (Branch N)) (distinct : (numbers forest).Nodup)
    (change : Branch N → Branch N) {branch : Branch N} (member : branch ∈ preorderAll forest) :
    updateAt branch.id change forest = updateAt branch.id (fun _ => change branch) forest := by
  induction forest using forestInduction with
  | nil => simp at member
  | cons label children rest ihBelow ihBeside =>
      obtain ⟨_, _, below, beside, _⟩ := distinct_cons distinct
      simp only [preorderAll_cons, List.mem_cons, List.mem_append] at member
      rcases member with rfl | inside | outside
      · rw [id_node, updateAt_here distinct, updateAt_here distinct]
      · have live := id_mem_numbers inside
        rw [updateAt_below distinct _ live, updateAt_below distinct _ live, ihBelow below inside]
      · have live := id_mem_numbers outside
        rw [updateAt_beside distinct _ live, updateAt_beside distinct _ live,
          ihBeside beside outside]

theorem updateAt_self (forest : List (Branch N)) (distinct : (numbers forest).Nodup)
    {branch : Branch N} (member : branch ∈ preorderAll forest) :
    updateAt branch.id (fun _ => branch) forest = forest := by
  rw [← updateAt_eq_const forest distinct (fun old => old) member]
  clear distinct member
  induction forest using forestInduction with
  | nil => rfl
  | cons label children rest ihBelow ihBeside =>
      rw [updateAt_cons, ihBelow, ihBeside]
      split <;> rfl

theorem updateAt_child (forest : List (Branch N)) (distinct : (numbers forest).Nodup)
    {label : Entry N} {front back : List (Branch N)} {child : Branch N} (grown : Branch N)
    (member : .node label (front ++ child :: back) ∈ preorderAll forest) :
    updateAt child.id (fun _ => grown) forest =
      updateAt label.id (fun _ => .node label (front ++ grown :: back)) forest := by
  have below : child ∈ Rose.children (.node label (front ++ child :: back)) := by simp
  induction forest using forestInduction with
  | nil => simp at member
  | cons outer children rest ihBelow ihBeside =>
      obtain ⟨_, _, distinctBelow, distinctBeside, _⟩ := distinct_cons distinct
      simp only [preorderAll_cons, List.mem_cons, List.mem_append] at member
      rcases member with same | inside | outside
      · cases same
        have live : child.id ∈ numbers (front ++ child :: back) :=
          id_mem_numbers (mem_preorderAll_of_mem below)
        rw [updateAt_here distinct, updateAt_below distinct _ live]
        obtain ⟨inner, deeper⟩ := child
        rw [numbers_append] at distinctBelow
        obtain ⟨_, distinctBack, apart⟩ := List.nodup_append.mp distinctBelow
        have notBefore : inner.id ∉ numbers front := fun before =>
          apart _ before inner.id (by simp) rfl
        rw [updateAt_append, id_node, updateAt_of_not_mem _ front notBefore,
          updateAt_here distinctBack]
      · have live := id_mem_numbers inside
        rw [id_node] at live
        have liveChild := id_mem_numbers
          (mem_preorderAll_trans children inside (mem_preorderAll_of_mem below))
        rw [updateAt_below distinct _ live, updateAt_below distinct _ liveChild,
          ihBelow distinctBelow inside]
      · have live := id_mem_numbers outside
        rw [id_node] at live
        have liveChild := id_mem_numbers
          (mem_preorderAll_trans rest outside (mem_preorderAll_of_mem below))
        rw [updateAt_beside distinct _ live, updateAt_beside distinct _ liveChild,
          ihBeside distinctBeside outside]

theorem updateAt_updateAt (forest : List (Branch N)) (distinct : (numbers forest).Nodup)
    {branch : Branch N} (grown : Branch N) (member : branch ∈ preorderAll forest) {number : Nat}
    (inside : number ∈ numbers forest → number ∈ numbers [branch])
    (change : Branch N → Branch N) :
    updateAt number change (updateAt branch.id (fun _ => grown) forest) =
      updateAt branch.id (fun _ => update (·.id = number) change grown) forest := by
  induction forest using forestInduction with
  | nil => simp at member
  | cons label children rest ihBelow ihBeside =>
      obtain ⟨notBelow, notBeside, below, beside, apart⟩ := distinct_cons distinct
      have front : ∀ (first : Branch N) tail, updateAt number change (first :: tail) =
          update (·.id = number) change first :: updateAt number change tail := fun _ _ => rfl
      simp only [preorderAll_cons, List.mem_cons, List.mem_append] at member
      rcases member with rfl | within | outside
      · have absent : number ∉ numbers rest := by
          intro present
          have found := inside (by simp [present])
          simp only [numbers_cons, numbers_nil, List.append_nil, List.mem_cons] at found
          rcases found with rfl | deeper
          · exact notBeside present
          · exact apart number deeper present
        rw [id_node, updateAt_here distinct, updateAt_here distinct, front,
          updateAt_of_not_mem change rest absent]
      · have live := id_mem_numbers within
        have covered : ∀ found ∈ numbers [branch], found ∈ numbers children := by
          intro found present
          obtain ⟨holder, holds, rfl⟩ := exists_of_mem_numbers present
          simp only [preorderAll] at holds
          exact id_mem_numbers (mem_preorderAll_of_branch children within holds)
        have other : label.id ≠ number := fun same =>
          notBelow (same ▸ covered number (inside (by simp [same])))
        have absent : number ∉ numbers rest := fun present =>
          apart number (covered number (inside (by simp [present]))) present
        rw [updateAt_below distinct _ live, updateAt_below distinct _ live, updateAt_cons,
          if_neg other, updateAt_of_not_mem change rest absent,
          ihBelow below within fun present => inside (by simp [present])]
      · have live := id_mem_numbers outside
        have covered : ∀ found ∈ numbers [branch], found ∈ numbers rest := by
          intro found present
          obtain ⟨holder, holds, rfl⟩ := exists_of_mem_numbers present
          exact id_mem_numbers (mem_preorderAll_of_branch rest outside holds)
        have other : label.id ≠ number := fun same =>
          notBeside (same ▸ covered number (inside (by simp [same])))
        have absent : number ∉ numbers children := fun present =>
          apart number present (covered number (inside (by simp [present])))
        rw [updateAt_beside distinct _ live, updateAt_beside distinct _ live, updateAt_cons,
          if_neg other, updateAt_of_not_mem change children absent,
          ihBeside beside outside fun present => inside (by simp [present])]

theorem mem_updateAt (forest : List (Branch N)) (distinct : (numbers forest).Nodup)
    {branch grown inner : Branch N} (member : branch ∈ preorderAll forest)
    (inside : inner ∈ preorderAll [grown]) :
    inner ∈ preorderAll (updateAt branch.id (fun _ => grown) forest) := by
  induction forest using forestInduction with
  | nil => simp at member
  | cons label children rest ihBelow ihBeside =>
      obtain ⟨_, _, below, beside, _⟩ := distinct_cons distinct
      simp only [preorderAll_cons, List.mem_cons, List.mem_append] at member
      rcases member with rfl | within | outside
      · rw [id_node, updateAt_here distinct, ← List.singleton_append, preorderAll_append]
        exact List.mem_append_left _ inside
      · rw [updateAt_below distinct _ (id_mem_numbers within), preorderAll_cons]
        exact List.mem_cons_of_mem _ (List.mem_append_left _ (ihBelow below within))
      · rw [updateAt_beside distinct _ (id_mem_numbers outside), preorderAll_cons]
        exact List.mem_cons_of_mem _ (List.mem_append_right _ (ihBeside beside outside))

theorem entries_updateAt (forest : List (Branch N)) (distinct : (numbers forest).Nodup)
    {branch : Branch N} (grown : Branch N) (member : branch ∈ preorderAll forest) :
    (entries (updateAt branch.id (fun _ => grown) forest) ++ entries [branch]).Perm
      (entries forest ++ entries [grown]) := by
  induction forest using forestInduction with
  | nil => simp at member
  | cons label children rest ihBelow ihBeside =>
      obtain ⟨_, _, below, beside, _⟩ := distinct_cons distinct
      simp only [preorderAll_cons, List.mem_cons, List.mem_append] at member
      rcases member with rfl | within | outside
      · rw [id_node, updateAt_here distinct]
        have split : ∀ first : Branch N, entries (first :: rest) =
            entries [first] ++ entries rest := fun first => entries_append [first] rest
        rw [split, split (.node label children)]
        exact perm_around (List.perm_append_comm) [] (entries rest)
      · rw [updateAt_below distinct _ (id_mem_numbers within), entries_cons, entries_cons]
        exact perm_around (ihBelow below within) [label] (entries rest)
      · rw [updateAt_beside distinct _ (id_mem_numbers outside), entries_cons, entries_cons]
        have rearranged := perm_around (ihBeside beside outside) (label :: entries children) []
        simpa using rearranged

theorem numbers_updateAt (forest : List (Branch N)) (distinct : (numbers forest).Nodup)
    {branch : Branch N} (grown : Branch N) (member : branch ∈ preorderAll forest) :
    (numbers (updateAt branch.id (fun _ => grown) forest) ++ numbers [branch]).Perm
      (numbers forest ++ numbers [grown]) := by
  have trade := (entries_updateAt forest distinct grown member).map Entry.id
  rwa [List.map_append, List.map_append, map_id_entries, map_id_entries, map_id_entries,
    map_id_entries] at trade

/-! ### Pruning the tree at a number -/

def pruneAt (number : Nat) (forest : List (Branch N)) : List (Branch N) :=
  pruneAll (·.id = number) forest

@[simp] theorem pruneAt_nil (number : Nat) : pruneAt number ([] : List (Branch N)) = [] := rfl

theorem pruneAt_cons (number : Nat) (label : Entry N) (children rest : List (Branch N)) :
    pruneAt number (.node label children :: rest) =
      if label.id = number then pruneAt number rest
      else .node label (pruneAt number children) :: pruneAt number rest := by
  simp only [pruneAt, pruneAll, prune?, decide_eq_true_eq]
  by_cases here : label.id = number <;> simp [here]

theorem pruneAt_of_not_mem {number : Nat} (forest : List (Branch N))
    (absent : number ∉ numbers forest) : pruneAt number forest = forest := by
  induction forest using forestInduction with
  | nil => rfl
  | cons label children rest ihBelow ihBeside =>
      simp only [numbers_cons, List.mem_cons, List.mem_append, not_or] at absent
      rw [pruneAt_cons, ihBelow absent.2.1, ihBeside absent.2.2, if_neg (Ne.symm absent.1)]

theorem pruneAt_append (number : Nat) (front back : List (Branch N)) :
    pruneAt number (front ++ back) = pruneAt number front ++ pruneAt number back := by
  induction front with
  | nil => rfl
  | cons branch rest ih =>
      obtain ⟨label, children⟩ := branch
      rw [List.cons_append, pruneAt_cons, pruneAt_cons, ih]
      split <;> rfl

theorem pruneAt_here {label : Entry N} {children rest : List (Branch N)}
    (distinct : (numbers (.node label children :: rest)).Nodup) :
    pruneAt label.id (.node label children :: rest) = rest := by
  obtain ⟨_, notBeside, _⟩ := distinct_cons distinct
  rw [pruneAt_cons, if_pos rfl, pruneAt_of_not_mem rest notBeside]

theorem pruneAt_below {label : Entry N} {children rest : List (Branch N)}
    (distinct : (numbers (.node label children :: rest)).Nodup) {number : Nat}
    (inside : number ∈ numbers children) :
    pruneAt number (.node label children :: rest) =
      .node label (pruneAt number children) :: rest := by
  obtain ⟨notBelow, _, _, _, apart⟩ := distinct_cons distinct
  have other : label.id ≠ number := fun same => notBelow (by rwa [same])
  rw [pruneAt_cons, if_neg other, pruneAt_of_not_mem rest (apart number inside)]

theorem pruneAt_beside {label : Entry N} {children rest : List (Branch N)}
    (distinct : (numbers (.node label children :: rest)).Nodup) {number : Nat}
    (outside : number ∈ numbers rest) :
    pruneAt number (.node label children :: rest) =
      .node label children :: pruneAt number rest := by
  obtain ⟨_, notBeside, _, _, apart⟩ := distinct_cons distinct
  have other : label.id ≠ number := fun same => notBeside (by rwa [same])
  have absent : number ∉ numbers children := fun inside => apart number inside outside
  rw [pruneAt_cons, if_neg other, pruneAt_of_not_mem children absent]

theorem pruneAt_child (forest : List (Branch N)) (distinct : (numbers forest).Nodup)
    {label : Entry N} {front back : List (Branch N)} {child : Branch N}
    (member : .node label (front ++ child :: back) ∈ preorderAll forest) :
    pruneAt child.id forest =
      updateAt label.id (fun _ => .node label (front ++ back)) forest := by
  have below : child ∈ Rose.children (.node label (front ++ child :: back)) := by simp
  induction forest using forestInduction with
  | nil => simp at member
  | cons outer children rest ihBelow ihBeside =>
      obtain ⟨_, _, distinctBelow, distinctBeside, _⟩ := distinct_cons distinct
      simp only [preorderAll_cons, List.mem_cons, List.mem_append] at member
      rcases member with same | inside | outside
      · cases same
        have live : child.id ∈ numbers (front ++ child :: back) :=
          id_mem_numbers (mem_preorderAll_of_mem below)
        rw [updateAt_here distinct, pruneAt_below distinct live]
        obtain ⟨inner, deeper⟩ := child
        rw [numbers_append] at distinctBelow
        obtain ⟨_, distinctBack, apart⟩ := List.nodup_append.mp distinctBelow
        have notBefore : inner.id ∉ numbers front := fun before =>
          apart _ before inner.id (by simp) rfl
        rw [pruneAt_append, id_node, pruneAt_of_not_mem front notBefore,
          pruneAt_here distinctBack]
      · have live := id_mem_numbers inside
        rw [id_node] at live
        have liveChild := id_mem_numbers
          (mem_preorderAll_trans children inside (mem_preorderAll_of_mem below))
        rw [updateAt_below distinct _ live, pruneAt_below distinct liveChild,
          ihBelow distinctBelow inside]
      · have live := id_mem_numbers outside
        rw [id_node] at live
        have liveChild := id_mem_numbers
          (mem_preorderAll_trans rest outside (mem_preorderAll_of_mem below))
        rw [updateAt_beside distinct _ live, pruneAt_beside distinct liveChild,
          ihBeside distinctBeside outside]

theorem entries_pruneAt (forest : List (Branch N)) (distinct : (numbers forest).Nodup)
    {branch : Branch N} (member : branch ∈ preorderAll forest) :
    (entries (pruneAt branch.id forest) ++ entries [branch]).Perm (entries forest) := by
  induction forest using forestInduction with
  | nil => simp at member
  | cons label children rest ihBelow ihBeside =>
      obtain ⟨_, _, below, beside, _⟩ := distinct_cons distinct
      simp only [preorderAll_cons, List.mem_cons, List.mem_append] at member
      rcases member with rfl | within | outside
      · rw [id_node, pruneAt_here distinct]
        have split : entries (.node label children :: rest) =
            entries [.node label children] ++ entries rest := entries_append [_] rest
        rw [split]
        exact List.perm_append_comm
      · rw [pruneAt_below distinct (id_mem_numbers within), entries_cons, entries_cons]
        have shorter : (entries (pruneAt branch.id children) ++ entries [branch]).Perm
            (entries children ++ []) := by
          rw [List.append_nil]
          exact ihBelow below within
        simpa using perm_around shorter [label] (entries rest)
      · rw [pruneAt_beside distinct (id_mem_numbers outside), entries_cons, entries_cons]
        simpa using (ihBeside beside outside).append_left (label :: entries children)

theorem numbers_pruneAt (forest : List (Branch N)) (distinct : (numbers forest).Nodup)
    {branch : Branch N} (member : branch ∈ preorderAll forest) :
    (numbers (pruneAt branch.id forest) ++ numbers [branch]).Perm (numbers forest) := by
  have trade := (entries_pruneAt forest distinct member).map Entry.id
  rwa [List.map_append, map_id_entries, map_id_entries, map_id_entries] at trade

/-! ### Paths -/

def pathTo? (number : Nat) (forest : List (Branch N)) : Option (List (Branch N)) :=
  pathAny? (·.id = number) forest

@[simp] theorem pathTo?_nil (number : Nat) : pathTo? number ([] : List (Branch N)) = none := rfl

theorem pathTo?_cons (number : Nat) (label : Entry N) (children rest : List (Branch N)) :
    pathTo? number (.node label children :: rest) =
      if label.id = number then some [.node label children]
      else match pathTo? number children with
        | some path => some (path ++ [.node label children])
        | none => pathTo? number rest := by
  simp only [pathTo?, pathAny?, path?, decide_eq_true_eq]
  by_cases here : label.id = number
  · simp [here]
  · simp only [here, if_false]
    cases pathAny? (fun entry : Entry N => decide (entry.id = number)) children <;> rfl

theorem pathTo?_eq_none_iff {number : Nat} (forest : List (Branch N)) :
    pathTo? number forest = none ↔ number ∉ numbers forest := by
  induction forest using forestInduction with
  | nil => simp
  | cons label children rest ihBelow ihBeside =>
      rw [pathTo?_cons, numbers_cons]
      by_cases here : label.id = number
      · simp [here]
      · simp only [here, if_false, List.mem_cons, List.mem_append, not_or]
        cases inside : pathTo? number children with
        | some path =>
            have live : number ∈ numbers children :=
              Decidable.byContradiction fun absent => by simp [ihBelow.mpr absent] at inside
            simp [live]
        | none =>
            simp only [ihBeside, ihBelow.mp inside, not_false_eq_true, true_and]
            exact ⟨fun absent => ⟨Ne.symm here, absent⟩, fun absent => absent.2⟩

theorem pathTo?_front {number : Nat} {front : Branch N} (rest : List (Branch N))
    (inside : number ∈ numbers [front]) :
    pathTo? number (front :: rest) = pathTo? number [front] := by
  have known : pathTo? number [front] ≠ none := fun absent =>
    (pathTo?_eq_none_iff [front]).mp absent inside
  simp only [pathTo?, pathAny?] at known ⊢
  cases found : path? (fun entry : Entry N => decide (entry.id = number)) front with
  | some path => rfl
  | none => simp [found] at known

theorem pathTo?_some {number : Nat} (forest : List (Branch N)) {path : List (Branch N)}
    (found : pathTo? number forest = some path) :
    ∃ branch outward, path = branch :: outward ∧ branch.id = number ∧
      ∀ passed ∈ path, passed ∈ preorderAll forest := by
  induction forest using forestInduction generalizing path with
  | nil => simp at found
  | cons label children rest ihBelow ihBeside =>
      rw [pathTo?_cons] at found
      split at found
      · rename_i here
        simp only [Option.some.injEq] at found
        subst found
        exact ⟨_, [], rfl, here, by simp⟩
      · split at found
        · rename_i inner inside
          simp only [Option.some.injEq] at found
          subst found
          obtain ⟨branch, outward, rfl, same, passes⟩ := ihBelow inside
          refine ⟨branch, outward ++ [.node label children], rfl, same, ?_⟩
          intro passed member
          rcases List.mem_append.mp member with inPath | last
          · simp [passes passed inPath]
          · simp_all
        · obtain ⟨branch, outward, rfl, same, passes⟩ := ihBeside found
          exact ⟨branch, outward, rfl, same, fun passed member => by simp [passes passed member]⟩

theorem pathTo?_of_top (forest : List (Branch N)) (distinct : (numbers forest).Nodup)
    {branch : Branch N} (member : branch ∈ forest) :
    pathTo? branch.id forest = some [branch] := by
  induction forest with
  | nil => simp at member
  | cons first rest ih =>
      obtain ⟨label, children⟩ := first
      obtain ⟨_, notBeside, _, beside, apart⟩ := distinct_cons distinct
      rw [pathTo?_cons]
      rcases List.mem_cons.mp member with rfl | later
      · simp
      · have live := id_mem_numbers (mem_preorderAll_of_mem later)
        have absent : branch.id ∉ numbers children := fun inside => apart _ inside live
        have other : label.id ≠ branch.id := fun same => notBeside (by rwa [same])
        rw [if_neg other, (pathTo?_eq_none_iff children).mpr absent]
        exact ih beside later

/-- Where no number occurs twice, a node is found under its number, and the way to a child
leads through its parent. -/
theorem pathTo?_of_mem (forest : List (Branch N)) (distinct : (numbers forest).Nodup)
    {branch : Branch N} (member : branch ∈ preorderAll forest) :
    ∃ outward, pathTo? branch.id forest = some (branch :: outward) ∧
      ∀ child ∈ branch.children, pathTo? child.id forest = some (child :: branch :: outward) := by
  induction forest using forestInduction with
  | nil => simp at member
  | cons label children rest ihBelow ihBeside =>
      obtain ⟨notBelow, notBeside, below, beside, apart⟩ := distinct_cons distinct
      have notHere : ∀ number ∈ numbers children, label.id ≠ number :=
        fun number inside same => notBelow (by rwa [same])
      have notFirst : ∀ number ∈ numbers rest,
          label.id ≠ number ∧ pathTo? number children = none := fun number outside =>
        ⟨fun same => notBeside (by rwa [same]),
          (pathTo?_eq_none_iff children).mpr fun inside => apart number inside outside⟩
      simp only [preorderAll_cons, List.mem_cons, List.mem_append] at member
      rcases member with rfl | inside | outside
      · refine ⟨[], by simp [pathTo?_cons], ?_⟩
        intro child memberBelow
        have live := id_mem_numbers (mem_preorderAll_of_mem memberBelow)
        rw [pathTo?_cons, if_neg (notHere _ live), pathTo?_of_top children below memberBelow]
        rfl
      · obtain ⟨outward, path, paths⟩ := ihBelow below inside
        refine ⟨outward ++ [.node label children], ?_, ?_⟩
        · rw [pathTo?_cons, if_neg (notHere _ (id_mem_numbers inside)), path]
          rfl
        · intro child memberBelow
          have live := id_mem_numbers
            (mem_preorderAll_trans children inside (mem_preorderAll_of_mem memberBelow))
          rw [pathTo?_cons, if_neg (notHere _ live), paths child memberBelow]
          rfl
      · obtain ⟨outward, path, paths⟩ := ihBeside beside outside
        refine ⟨outward, ?_, ?_⟩
        · obtain ⟨other, absent⟩ := notFirst _ (id_mem_numbers outside)
          rw [pathTo?_cons, if_neg other, absent]
          exact path
        · intro child memberBelow
          obtain ⟨other, absent⟩ := notFirst _ (id_mem_numbers
            (mem_preorderAll_trans rest outside (mem_preorderAll_of_mem memberBelow)))
          rw [pathTo?_cons, if_neg other, absent]
          exact paths child memberBelow

end Rose

namespace Tree

open Rose

variable {N : Type}

theorem shape?_ofShape (shape : Shape N) : (ofShape shape).shape? = some shape := by
  rw [shape?, ofShape, Option.map_some, Rose.shape_number]

theorem ofShape_inj {shape other : Shape N} : ofShape shape = ofShape other ↔ shape = other := by
  refine ⟨fun same => ?_, fun same => same ▸ rfl⟩
  have shown := congrArg shape? same
  rw [shape?_ofShape, shape?_ofShape] at shown
  exact Option.some.inj shown

theorem shapes_root (tree : Tree N) : shapes tree.root.toList = tree.shape?.toList := by
  rw [shape?]
  cases tree.root <;> rfl

theorem branches_of_settled {tree : Tree N} (settled : tree.detached = []) :
    tree.branches = tree.root.toList := by
  rw [branches, settled, List.append_nil]

theorem len_eq_of_shape? {first second : Tree N} (same : first.shape? = second.shape?) :
    first.len = second.len := by
  have length : ∀ tree : Tree N, tree.len = (preorderAll tree.shape?.toList).length := by
    intro tree
    rw [← shapes_root, preorderAll_shapes, List.length_map]
    rfl
  rw [length, length, same]

theorem mem_nodes_of_ancestry {tree : Tree N} {node passed : Branch N} (member : node ∈ tree.nodes)
    (onWay : passed ∈ tree.ancestry node.id) : passed ∈ tree.nodes := by
  rw [nodes] at member ⊢
  cases rooted : tree.root with
  | none => simp [rooted] at member
  | some root =>
      rw [rooted, Option.toList_some] at member
      have way : tree.ancestry node.id = (pathTo? node.id [root]).getD [] := by
        rw [ancestry, branches, rooted, Option.toList_some]
        exact congrArg (·.getD []) (pathTo?_front _ (id_mem_numbers member))
      rw [way] at onWay
      cases path : pathTo? node.id [root] with
      | none => simp [path] at onWay
      | some outward =>
          rw [path, Option.getD_some] at onWay
          obtain ⟨_, _, _, _, passes⟩ := pathTo?_some [root] path
          exact passes passed onWay

end Tree

end ScopedClauses
