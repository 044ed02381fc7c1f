import ScopedClauses.Proofs.Tree.Forest

/-!
The way from a node outwards, as the entries it passes. A node lies in a branch when its way
passes the head of the branch.
-/

namespace ScopedClauses

namespace Rose

variable {N : Type}

def lineage (number : Nat) (forest : List (Branch N)) : List (Entry N) :=
  ((pathTo? number forest).getD []).map label

@[simp] theorem lineage_nil (number : Nat) : lineage number ([] : List (Branch N)) = [] := rfl

theorem lineage_cons (number : Nat) (label : Entry N) (children rest : List (Branch N)) :
    lineage number (.node label children :: rest) =
      if label.id = number then [label]
      else if number ∈ numbers children then lineage number children ++ [label]
      else lineage number rest := by
  simp only [lineage, pathTo?_cons]
  split
  · rfl
  · cases inside : pathTo? number children with
    | none => rw [if_neg ((pathTo?_eq_none_iff children).mp inside)]
    | some path =>
        have live : number ∈ numbers children := Decidable.byContradiction fun absent => by
          rw [(pathTo?_eq_none_iff children).mpr absent] at inside
          cases inside
        rw [if_pos live]
        simp

theorem lineage_here (label : Entry N) (children rest : List (Branch N)) :
    lineage label.id (.node label children :: rest) = [label] := by
  rw [lineage_cons, if_pos rfl]

theorem lineage_below {label : Entry N} {children rest : List (Branch N)} {number : Nat}
    (other : label.id ≠ number) (inside : number ∈ numbers children) :
    lineage number (.node label children :: rest) = lineage number children ++ [label] := by
  rw [lineage_cons, if_neg other, if_pos inside]

theorem lineage_beside {label : Entry N} {children rest : List (Branch N)} {number : Nat}
    (other : label.id ≠ number) (absent : number ∉ numbers children) :
    lineage number (.node label children :: rest) = lineage number rest := by
  rw [lineage_cons, if_neg other, if_neg absent]

theorem lineage_singleton {number : Nat} {branch : Branch N} (inside : number ∈ numbers [branch]) :
    ∃ front, lineage number [branch] = front ++ [branch.label] := by
  obtain ⟨label, children⟩ := branch
  by_cases here : label.id = number
  · exact ⟨[], by rw [lineage_cons, if_pos here]; rfl⟩
  · have below : number ∈ numbers children := by
      simp only [numbers_cons, numbers_nil, List.append_nil, List.mem_cons] at inside
      exact inside.resolve_left (Ne.symm here)
    exact ⟨_, lineage_below here below⟩

theorem lineage_eq_nil_iff {number : Nat} (forest : List (Branch N)) :
    lineage number forest = [] ↔ number ∉ numbers forest := by
  rw [← pathTo?_eq_none_iff, lineage]
  cases found : pathTo? number forest with
  | none => simp
  | some path =>
      obtain ⟨branch, outward, rfl, _⟩ := pathTo?_some forest found
      simp

theorem lineage_of_not_mem {number : Nat} {forest : List (Branch N)}
    (absent : number ∉ numbers forest) : lineage number forest = [] :=
  (lineage_eq_nil_iff forest).mpr absent

theorem exists_of_mem_lineage {number : Nat} {forest : List (Branch N)} {entry : Entry N}
    (passed : entry ∈ lineage number forest) : ∃ branch ∈ preorderAll forest, branch.label = entry := by
  obtain ⟨branch, onPath, rfl⟩ := List.mem_map.mp passed
  cases found : pathTo? number forest with
  | none => simp [found] at onPath
  | some path =>
      obtain ⟨_, _, _, _, passes⟩ := pathTo?_some forest found
      rw [found] at onPath
      exact ⟨branch, passes branch onPath, rfl⟩

theorem id_mem_of_mem_lineage {number : Nat} {forest : List (Branch N)} {entry : Entry N}
    (passed : entry ∈ lineage number forest) : entry.id ∈ numbers forest := by
  obtain ⟨branch, member, rfl⟩ := exists_of_mem_lineage passed
  exact id_mem_numbers member

theorem mem_numbers_of_passed {number id : Nat} {forest : List (Branch N)}
    (passed : id ∈ (lineage number forest).map Entry.id) : id ∈ numbers forest := by
  obtain ⟨entry, onWay, rfl⟩ := List.mem_map.mp passed
  exact id_mem_of_mem_lineage onWay

theorem lineage_head {number : Nat} {forest : List (Branch N)} (live : number ∈ numbers forest) :
    ∃ entry outward, lineage number forest = entry :: outward ∧ entry.id = number := by
  cases found : pathTo? number forest with
  | none => exact absurd live ((pathTo?_eq_none_iff forest).mp found)
  | some path =>
      obtain ⟨branch, outward, rfl, same, _⟩ := pathTo?_some forest found
      exact ⟨branch.label, outward.map label, by simp [lineage, found], same⟩

section Distinct

variable {forest : List (Branch N)} (distinct : (numbers forest).Nodup)

include distinct

theorem lineage_of_mem {branch : Branch N} (member : branch ∈ preorderAll forest) :
    ∃ outward, lineage branch.id forest = branch.label :: outward ∧
      ∀ child ∈ branch.children,
        lineage child.id forest = child.label :: branch.label :: outward := by
  obtain ⟨outward, path, paths⟩ := pathTo?_of_mem forest distinct member
  refine ⟨outward.map label, by simp [lineage, path], fun child below => ?_⟩
  simp [lineage, paths child below]

theorem lineage_child {parent child : Branch N} (member : parent ∈ preorderAll forest)
    (below : child ∈ parent.children) :
    lineage child.id forest = child.label :: lineage parent.id forest := by
  obtain ⟨outward, way, ways⟩ := lineage_of_mem distinct member
  rw [way, ways child below]

theorem passes_iff {branch : Branch N} (member : branch ∈ preorderAll forest) {number : Nat} :
    branch.id ∈ (lineage number forest).map Entry.id ↔ number ∈ numbers [branch] := by
  have part : ∀ {inner : List (Branch N)}, branch ∈ preorderAll inner → number ∈ numbers [branch] →
      number ∈ numbers inner := fun within => fun found => (sublist_numbers _ within).subset found
  induction forest using forestInduction with
  | nil => simp at member
  | cons label children rest ihBelow ihBeside =>
      obtain ⟨notBelow, notBeside, below, beside, apart⟩ := distinct_cons distinct
      simp only [preorderAll_cons, List.mem_cons, List.mem_append] at member
      -- the number is the head's, or lies below the head, or beside it
      by_cases here : label.id = number
      · subst here
        rw [lineage_here, List.map_singleton, List.mem_singleton]
        rcases member with rfl | inside | outside
        · simp
        · exact iff_of_false (fun same => notBelow (same ▸ id_mem_numbers inside))
            fun found => notBelow (part inside found)
        · exact iff_of_false (fun same => notBeside (same ▸ id_mem_numbers outside))
            fun found => notBeside (part outside found)
      by_cases within : number ∈ numbers children
      · rw [lineage_below here within, List.map_append, List.mem_append, List.map_singleton,
          List.mem_singleton]
        rcases member with rfl | inside | outside
        · simp [within]
        · have elsewhere : branch.id ≠ label.id := fun same =>
            notBelow (same ▸ id_mem_numbers inside)
          rw [or_iff_left elsewhere]
          exact ihBelow below inside
        · refine iff_of_false ?_ fun found => apart number within (part outside found)
          rintro (passed | same)
          · exact apart _ (mem_numbers_of_passed passed) (id_mem_numbers outside)
          · exact notBeside (same ▸ id_mem_numbers outside)
      · rw [lineage_beside here within]
        rcases member with rfl | inside | outside
        · exact iff_of_false (fun passed => notBeside (mem_numbers_of_passed passed))
            (by simp [Ne.symm here, within])
        · exact iff_of_false (fun passed => apart _ (id_mem_numbers inside)
            (mem_numbers_of_passed passed)) fun found => within (part inside found)
        · exact ihBeside beside outside

theorem lineage_suffix {number : Nat} {front back : List (Entry N)} {entry : Entry N}
    (way : lineage number forest = front ++ entry :: back) :
    lineage entry.id forest = entry :: back := by
  induction forest using forestInduction generalizing front back with
  | nil => simp at way
  | cons label children rest ihBelow ihBeside =>
      obtain ⟨notBelow, notBeside, below, beside, apart⟩ := distinct_cons distinct
      rw [lineage_cons] at way
      split at way
      · cases front with
        | nil =>
            cases way
            exact lineage_here entry children rest
        | cons first front => simp at way
      · split at way
        · rename_i other inside
          rcases List.eq_nil_or_concat back with rfl | ⟨inner, last, rfl⟩
          · obtain ⟨_, same⟩ := List.append_inj' way rfl
            cases same
            exact lineage_here entry children rest
          · have split : lineage number children ++ [label] = (front ++ entry :: inner) ++ [last] := by
              rw [way]
              simp
            obtain ⟨wayBelow, same⟩ := List.append_inj' split rfl
            cases same
            have passed : entry ∈ lineage number children := by simp [wayBelow]
            have live := id_mem_of_mem_lineage passed
            rw [lineage_below (fun same => notBelow (same ▸ live)) live, ihBelow below wayBelow]
            simp
        · have passed : entry ∈ lineage number rest := by simp [way]
          have live := id_mem_of_mem_lineage passed
          rw [lineage_beside (fun same => notBeside (same ▸ live))
            (fun inside => apart _ inside live)]
          exact ihBeside beside way

theorem lineage_nodup (number : Nat) : ((lineage number forest).map Entry.id).Nodup := by
  induction forest using forestInduction with
  | nil => simp
  | cons label children rest ihBelow ihBeside =>
      obtain ⟨notBelow, _, below, beside, _⟩ := distinct_cons distinct
      rw [lineage_cons]
      split
      · simp
      · split
        · rw [List.map_append, List.nodup_append]
          refine ⟨ihBelow below, by simp, ?_⟩
          rintro passed onWay other last rfl
          obtain ⟨entry, inWay, same⟩ := List.mem_map.mp onWay
          have here : passed = label.id := by simpa using last
          exact notBelow (here ▸ same ▸ id_mem_of_mem_lineage inWay)
        · exact ihBeside beside

theorem lineage_replaced {branch new : Branch N} (member : branch ∈ preorderAll forest)
    (known : ∀ number ∈ numbers [new], number ∈ numbers forest → number ∈ numbers [branch])
    {number : Nat} (inside : number ∈ numbers [new]) :
    lineage number (updateAt branch.id (fun _ => new) forest) =
      lineage number [new] ++ (lineage branch.id forest).tail := by
  have front : ∀ rest : List (Branch N), lineage number (new :: rest) = lineage number [new] := by
    intro rest
    rw [lineage, pathTo?_front rest inside]
    rfl
  induction forest using forestInduction with
  | nil => simp at member
  | cons label children rest ihBelow ihBeside =>
      obtain ⟨notBelow, notBeside, below, beside, apart⟩ := distinct_cons distinct
      simp only [preorderAll_cons, List.mem_cons, List.mem_append] at member
      rcases member with rfl | within | outside
      · rw [id_node, updateAt_here distinct, lineage_here, front rest]
        simp
      · have live := id_mem_numbers within
        have covered := (sublist_numbers children within).subset
        have other : label.id ≠ number := by
          rintro rfl
          exact notBelow (covered (known _ inside (by simp)))
        have stays : number ∈ numbers (updateAt branch.id (fun _ => new) children) := by
          obtain ⟨holder, holds, rfl⟩ := exists_of_mem_numbers inside
          exact id_mem_numbers (mem_updateAt children below within holds)
        have step := ihBelow below within fun found present old =>
          known found present (by simp [old])
        rw [updateAt_below distinct _ live, lineage_below other stays, step,
          lineage_below (fun same => notBelow (same ▸ live)) live]
        obtain ⟨outward, way, _⟩ := lineage_of_mem below within
        simp [way]
      · have live := id_mem_numbers outside
        have covered := (sublist_numbers rest outside).subset
        have other : label.id ≠ number := by
          rintro rfl
          exact notBeside (covered (known _ inside (by simp)))
        have absent : number ∉ numbers children := fun present =>
          apart number present (covered (known number inside (by simp [present])))
        have step := ihBeside beside outside fun found present old =>
          known found present (by simp [old])
        rw [updateAt_beside distinct _ live, lineage_beside other absent, step,
          lineage_beside (fun same => notBeside (same ▸ live))
            (fun present => apart _ present live)]

theorem lineage_inside {branch : Branch N} (member : branch ∈ preorderAll forest) {number : Nat}
    (inside : number ∈ numbers [branch]) :
    lineage number forest = lineage number [branch] ++ (lineage branch.id forest).tail := by
  have replaced := lineage_replaced distinct member (fun _ present _ => present) inside
  rwa [updateAt_self forest distinct member] at replaced

theorem lineage_updateAt_of_not_mem {branch new : Branch N} (member : branch ∈ preorderAll forest)
    (same : new.label = branch.label) {number : Nat} (outsideOld : number ∉ numbers [branch])
    (outsideNew : number ∉ numbers [new]) :
    lineage number (updateAt branch.id (fun _ => new) forest) = lineage number forest := by
  induction forest using forestInduction with
  | nil => simp at member
  | cons label children rest ihBelow ihBeside =>
      obtain ⟨notBelow, notBeside, below, beside, apart⟩ := distinct_cons distinct
      simp only [preorderAll_cons, List.mem_cons, List.mem_append] at member
      rcases member with rfl | within | outside
      · obtain ⟨newLabel, newChildren⟩ := new
        rw [label_node, label_node] at same
        subst same
        simp only [numbers_cons, numbers_nil, List.append_nil, List.mem_cons, not_or]
          at outsideOld outsideNew
        rw [id_node, updateAt_here distinct, lineage_beside (Ne.symm outsideNew.1) outsideNew.2,
          lineage_beside (Ne.symm outsideOld.1) outsideOld.2]
      · have live := id_mem_numbers within
        rw [updateAt_below distinct _ live, lineage_cons, lineage_cons]
        have step := ihBelow below within
        by_cases here : label.id = number
        · rw [if_pos here, if_pos here]
        · rw [if_neg here, if_neg here, step]
          have members : number ∈ numbers (updateAt branch.id (fun _ => new) children) ↔
              number ∈ numbers children := by
            have absent : number ∉ numbers (updateAt branch.id (fun _ => new) children) ↔
                number ∉ numbers children := by
              rw [← lineage_eq_nil_iff, ← lineage_eq_nil_iff, step]
            exact Decidable.not_iff_not.mp absent
          simp only [members]
      · have live := id_mem_numbers outside
        rw [updateAt_beside distinct _ live, lineage_cons, lineage_cons, ihBeside beside outside]

theorem nested_of_shared {first second : Branch N} (memberFirst : first ∈ preorderAll forest)
    (memberSecond : second ∈ preorderAll forest) {number : Nat}
    (inFirst : number ∈ numbers [first]) (inSecond : number ∈ numbers [second]) :
    first.id ∈ numbers [second] ∨ second.id ∈ numbers [first] := by
  have passesFirst := (passes_iff distinct memberFirst).mpr inFirst
  have passesSecond := (passes_iff distinct memberSecond).mpr inSecond
  obtain ⟨entryFirst, onWayFirst, sameFirst⟩ := List.mem_map.mp passesFirst
  obtain ⟨front, back, way⟩ := List.append_of_mem onWayFirst
  have rest := lineage_suffix distinct way
  rw [way, List.map_append, List.mem_append] at passesSecond
  rcases passesSecond with before | after
  · refine Or.inr ((passes_iff distinct memberFirst).mp ?_)
    obtain ⟨entrySecond, onWaySecond, sameSecond⟩ := List.mem_map.mp before
    obtain ⟨inner, outer, split⟩ := List.append_of_mem onWaySecond
    have restSecond := lineage_suffix distinct
      (show lineage number forest = inner ++ entrySecond :: (outer ++ entryFirst :: back) by
        rw [way, split]; simp)
    rw [← sameSecond, restSecond, ← sameFirst]
    simp
  · refine Or.inl ((passes_iff distinct memberSecond).mp ?_)
    rw [← sameFirst, rest]
    exact after

theorem not_mem_children {branch : Branch N} (member : branch ∈ preorderAll forest) :
    branch.id ∉ numbers branch.children := by
  have whole := distinct.sublist (sublist_numbers forest member)
  obtain ⟨label, children⟩ := branch
  exact (distinct_cons whole).1

end Distinct

end Rose

end ScopedClauses
