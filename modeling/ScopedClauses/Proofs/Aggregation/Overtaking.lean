import ScopedClauses.Proofs.Aggregation.Gathering

/-!
Groupings that take over what was there. A grouping is the last of the inserted clauses, a single
way leads to it from the target, and all that lay below the target lies below it then.
-/

namespace ScopedClauses

namespace Aggregations

open Rose Tree

/-! ### Displacement -/

def Steps (before holding holders : List Nat) (inserted : Nat) (way : List (Entry AggNode)) : Prop :=
  ∃ front child holder back, way = front ++ child :: holder :: back ∧
    holder.id ∈ holders ∧ Aside before holding inserted child.id

section Displacing

variable {aggs final : Aggregations} {before holding : List Nat} {inserted : Nat}
  {entry : Entry AggNode} {outer : List (Entry AggNode)}

theorem gatherable_displaced (whole : Whole aggs.tree)
    (here : lineage inserted aggs.tree.branches = entry :: outer)
    (covered : Covered (entry :: outer) holding inserted) {holder : Nat} (listed : holder ∈ holding)
    (above : holder ∈ outer.map Entry.id) :
    Gatherable aggs inserted (lineage holder aggs.tree.branches)
      (displaced aggs.tree before holding inserted holder) := by
  have distinct := whole.numbered.distinct
  have upper : Above aggs.tree.branches holder inserted := by
    rw [Above, here]
    exact List.mem_cons_of_mem _ above
  refine ⟨hanging_displaced whole here (by simp) covered listed (List.mem_cons_of_mem _ above),
    fun lower => ?_, fun child chosen number below => ?_⟩
  · have once := lineage_nodup distinct inserted
    obtain ⟨first, others, start, same⟩ := lineage_head upper.inner_mem
    rw [here] at start
    rw [here, List.map_cons, List.nodup_cons, (List.cons.inj start).1, same,
      Above.antisymm distinct lower upper] at once
    exact once.1 above
  · obtain ⟨branch, member, rfl⟩ := exists_of_mem_numbers upper.outer_mem
    have present := (mem_displaced.mp chosen).1
    rw [childBranches_of_live whole.numbered member] at present
    exact (passes_iff distinct
      (mem_preorderAll_trans _ member (mem_preorderAll_of_mem present))).mp below

theorem displaced_of_step (whole : Whole aggs.tree) {number holder : Nat}
    (steps : Steps before holding [holder] inserted (lineage number aggs.tree.branches)) :
    ∃ passed ∈ lineage number aggs.tree.branches,
      passed.id ∈ (displaced aggs.tree before holding inserted holder).map Rose.id := by
  obtain ⟨front, inner, upper, back, way, same, aside⟩ := steps
  obtain ⟨branch, member, named, child, below, alike⟩ := child_on_way whole.numbered way
  refine ⟨inner, by simp [way], List.mem_map.mpr ⟨child, mem_displaced.mpr ⟨?_, ?_⟩, alike⟩⟩
  · rw [← List.mem_singleton.mp same, ← named, childBranches_of_live whole.numbered member]
    exact below
  · rw [alike]
    exact aside

/-- Displacing the children of some holders gathers them below the inserted clause, and leaves
none that could be displaced. -/
theorem gathered_displace (whole : Whole aggs.tree)
    (here : lineage inserted aggs.tree.branches = entry :: outer)
    (covered : Covered (entry :: outer) holding inserted) {rest : List Nat}
    (listed : ∀ holder ∈ rest, holder ∈ holding ∧ holder ∈ outer.map Entry.id)
    (made : displace before holding inserted aggs rest = .ok final) :
    ∃ moved, Gathered (entry :: outer) moved aggs final ∧
      (∀ number ∈ moved, Aside before holding inserted number) ∧
      lineage inserted final.tree.branches = entry :: outer ∧
      ∀ number ∈ numbers final.tree.branches,
        entry :: outer <:+ lineage number final.tree.branches ∨
          (lineage number final.tree.branches = lineage number aggs.tree.branches ∧
            ¬Steps before holding rest inserted (lineage number aggs.tree.branches)) := by
  induction rest generalizing aggs with
  | nil =>
      cases Result.pure_ok.mp made
      refine ⟨[], .refl whole, fun _ none => (by cases none), here, fun number _ => Or.inr ⟨rfl, ?_⟩⟩
      rintro ⟨_, _, _, _, _, none, _⟩
      cases none
  | cons holder rest ih =>
      rw [List.forall_mem_cons] at listed
      obtain ⟨middle, first, later⟩ := displace_ok made
      have gatherable : Gatherable aggs inserted (lineage holder aggs.tree.branches)
          (displaced aggs.tree before holding inserted holder) :=
        gatherable_displaced whole here covered listed.1.1 listed.1.2
      have gathered := gathered_relocateAll whole gatherable first
      have stays := gatherable.target_stays gathered (List.Subset.refl _)
      rw [here] at gathered stays
      obtain ⟨moved, further, asides, ends, sorted⟩ := ih gathered.whole stays listed.2 later
      refine ⟨_, gathered.trans further whole, fun number moves => ?_, ends, fun number present => ?_⟩
      · rcases List.mem_append.mp moves with early | late
        · obtain ⟨child, chosen, rfl⟩ := List.mem_map.mp early
          exact (mem_displaced.mp chosen).2
        · exact asides number late
      · rcases sorted number present with below | ⟨same, unmoved⟩
        · exact Or.inl below
        rw [same]
        have between := mem_numbers_of_same same.symm present
        refine (gathered.sorted between).imp_right fun ⟨alike, apart⟩ => ⟨alike, ?_⟩
        rintro ⟨front, child, upper, back, way, held, aside⟩
        rcases List.mem_cons.mp held with here | later
        · have steps : Steps before holding [holder] inserted (lineage number aggs.tree.branches) :=
            ⟨front, child, upper, back, way, List.mem_singleton.mpr here, aside⟩
          obtain ⟨passed, onWay, moves⟩ := displaced_of_step whole steps
          exact apart passed onWay moves
        · exact unmoved ⟨front, child, upper, back, alike.trans way, later, aside⟩

end Displacing

/-! ### Taking over -/

/-- A request in which clauses were inserted below `parent`, one below the other down to `last`,
and took over what lay there. -/
structure Overtaken (aggs : Aggregations) (parent : Nat) (line : List (Entry AggNode))
    (final : Aggregations) (last : Nat) : Prop where
  same : final = aggs.withTree final.tree
  whole : Whole final.tree
  later : aggs.tree.next ≤ final.tree.next
  inserted : ∀ entry ∈ line,
    entry ∈ lineage last final.tree.branches ∧ aggs.tree.next ≤ entry.id
  ends : (line.getLast?.map Entry.id).getD parent = last
  beside : ∀ number ∈ numbers aggs.tree.branches,
    (Above aggs.tree.branches parent number → number = parent) →
      lineage number final.tree.branches = lineage number aggs.tree.branches
  below : Above final.tree.branches parent last
  fate : ∀ number entry outer, lineage number aggs.tree.branches = entry :: outer →
    (∃ further, lineage number final.tree.branches = entry :: further) ∨
      (number ∉ numbers final.tree.branches ∧
        ∃ path, entry.content.boundary? = some (.enter path) ∧
          ∃ clause ∈ line, final.tree.currentScope clause.id = some path)
  brings : ∀ number ∈ numbers final.tree.branches, number ∉ numbers aggs.tree.branches →
    aggs.tree.next ≤ number ∧ Above final.tree.branches parent number
  stays : ∀ number, Above aggs.tree.branches parent number →
    number ∈ numbers final.tree.branches → Above final.tree.branches parent number
  strung : ∀ number, Above final.tree.branches parent number →
    Above final.tree.branches number last ∨ Above final.tree.branches last number
  marked : ∀ number entry outer, lineage number aggs.tree.branches = entry :: outer →
    Above aggs.tree.branches parent number → number ≠ parent →
      Above final.tree.branches number last → entry.content.boundary?.isSome = true
  kinds : ∀ entry ∈ entries final.tree.branches,
    entry ∈ entries aggs.tree.branches ∨ entry.content.clause?.isSome = true

namespace Overtaken

variable {aggs middle final : Aggregations} {parent between last : Nat}
  {line more : List (Entry AggNode)}

theorem refl (whole : Whole aggs.tree) (live : parent ∈ numbers aggs.tree.branches) :
    Overtaken aggs parent [] aggs parent where
  same := rfl
  whole := whole
  later := Nat.le_refl _
  inserted := fun _ none => by cases none
  ends := rfl
  beside := fun _ _ _ => rfl
  below := .self live
  fate := fun _ _ outer way => Or.inl ⟨outer, way⟩
  brings := fun _ present absent => absurd present absent
  stays := fun _ above _ => above
  strung := fun _ above => Or.inr above
  marked := fun _ _ _ _ below other above =>
    absurd (above.antisymm whole.numbered.distinct below) other
  kinds := fun _ => Or.inl

theorem outward (overtaken : Overtaken aggs parent line final last) (whole : Whole aggs.tree)
    {number : Nat} (above : Above aggs.tree.branches number parent) :
    lineage number final.tree.branches = lineage number aggs.tree.branches :=
  overtaken.beside number above.outer_mem fun below =>
    above.antisymm whole.numbered.distinct below

variable (first : Overtaken aggs parent line middle between)
  (second : Overtaken middle between more final last)

include first second

theorem between_stays :
    lineage between final.tree.branches = lineage between middle.tree.branches :=
  second.outward first.whole (.self first.below.inner_mem)

theorem parent_above : Above final.tree.branches parent between :=
  (above_congr (between_stays first second)).mpr first.below

theorem remains {number : Nat} (above : Above middle.tree.branches parent number)
    (present : number ∈ numbers final.tree.branches) :
    Above final.tree.branches parent number := by
  by_cases deeper : Above middle.tree.branches between number
  · exact (parent_above first second).trans second.whole.numbered.distinct
      (second.stays number deeper present)
  · exact (above_congr (second.beside number above.inner_mem fun below =>
      absurd below deeper)).mpr above

/-- What the first step removed does not come back, since numbers are not given out again. -/
theorem never_back (whole : Whole aggs.tree) {number : Nat}
    (live : number ∈ numbers aggs.tree.branches) (gone : number ∉ numbers middle.tree.branches) :
    number ∉ numbers final.tree.branches := fun present => by
  have fresh := (second.brings number present gone).1
  have bound := whole.numbered.bounded number live
  have later := first.later
  omega

theorem trans (whole : Whole aggs.tree) : Overtaken aggs parent (line ++ more) final last where
  same := by
    rw [second.same, first.same]
    rfl
  whole := second.whole
  later := Nat.le_trans first.later second.later
  inserted := by
    intro entry listed
    rcases List.mem_append.mp listed with early | late
    · obtain ⟨onWay, fresh⟩ := first.inserted entry early
      obtain ⟨front, way⟩ := second.below.split second.whole.numbered.distinct
      refine ⟨?_, fresh⟩
      rw [way, between_stays first second]
      exact List.mem_append_right _ onWay
    · obtain ⟨onWay, fresh⟩ := second.inserted entry late
      exact ⟨onWay, Nat.le_trans first.later fresh⟩
  ends := by
    rw [List.getLast?_append, ← second.ends, ← first.ends]
    cases more.getLast? <;> rfl
  beside := by
    intro number live outside
    have kept := first.beside number live outside
    rw [← kept]
    refine second.beside number (mem_numbers_of_same kept live) fun below => ?_
    have distinct := first.whole.numbered.distinct
    have inside := (above_congr kept).mp (first.below.trans distinct below)
    have here := outside inside
    rw [here] at below ⊢
    exact first.below.antisymm distinct below
  below := (parent_above first second).trans second.whole.numbered.distinct second.below
  fate := by
    intro number entry outer way
    rcases first.fate number entry outer way with ⟨further, kept⟩ |
      ⟨gone, path, marks, clause, listed, scope⟩
    · rcases second.fate number entry further kept with found |
        ⟨gone, path, marks, clause, listed, scope⟩
      · exact Or.inl found
      · exact Or.inr ⟨gone, path, marks, clause, List.mem_append_right _ listed, scope⟩
    · refine Or.inr ⟨never_back first second whole (mem_numbers_of_lineage way) gone, path, marks,
        clause, List.mem_append_left _ listed, ?_⟩
      have above : Above middle.tree.branches clause.id between :=
        List.mem_map_of_mem (first.inserted clause listed).1
      rw [currentScope_eq_scopeOn, second.outward first.whole above, ← currentScope_eq_scopeOn]
      exact scope
  brings := by
    intro number present absent
    by_cases halfway : number ∈ numbers middle.tree.branches
    · obtain ⟨fresh, above⟩ := first.brings number halfway absent
      exact ⟨fresh, remains first second above present⟩
    · obtain ⟨fresh, above⟩ := second.brings number present halfway
      exact ⟨Nat.le_trans first.later fresh,
        (parent_above first second).trans second.whole.numbered.distinct above⟩
  stays := by
    intro number above present
    have halfway : number ∈ numbers middle.tree.branches := Decidable.byContradiction fun gone =>
      never_back first second whole above.inner_mem gone present
    exact remains first second (first.stays number above halfway) present
  strung := by
    intro number above
    have distinct := second.whole.numbered.distinct
    by_cases deeper : Above final.tree.branches between number
    · exact second.strung number deeper
    have halfway : number ∈ numbers middle.tree.branches :=
      Decidable.byContradiction fun gone =>
        deeper (second.brings number above.inner_mem gone).2
    have apart : ¬Above middle.tree.branches between number := fun below =>
      deeper (second.stays number below above.inner_mem)
    have kept := second.beside number halfway fun below => absurd below apart
    have onWay := (first.strung number ((above_congr kept).mp above)).resolve_right apart
    exact Or.inl (((above_congr (between_stays first second)).mpr onWay).trans distinct
      second.below)
  marked := by
    intro number entry outer way inside other onWay
    rcases first.fate number entry outer way with ⟨further, kept⟩ | ⟨gone, _⟩
    · have halfway := mem_numbers_of_lineage kept
      rcases first.strung number (first.stays number inside halfway) with before | after
      · exact first.marked number entry outer way inside other before
      · by_cases here : number = between
        · exact first.marked number entry outer way inside other (here ▸ .self (here ▸ halfway))
        · exact second.marked number entry further kept after here onWay
    · exact absurd onWay.outer_mem (never_back first second whole inside.inner_mem gone)
  kinds := fun entry listed => (second.kinds entry listed).elim (first.kinds entry) Or.inr

end Overtaken

/-! ### One clause -/

theorem head_or_step {α : Type} (Holds : α → Prop) (front : List α) {last : α} (holds : Holds last) :
    (∀ first ∈ (front ++ [last]).head?, Holds first) ∨
      ∃ ahead child holder behind, front ++ [last] = ahead ++ child :: holder :: behind ∧
        ¬Holds child ∧ Holds holder := by
  induction front with
  | nil =>
      refine Or.inl fun first here => ?_
      cases here
      exact holds
  | cons element rest ih =>
      rcases ih with all | ⟨ahead, child, holder, behind, split, stops, starts⟩
      · by_cases here : Holds element
        · refine Or.inl fun first head => ?_
          cases head
          exact here
        · obtain ⟨next, others, tail⟩ := List.exists_cons_of_ne_nil
            (l := rest ++ [last]) (by simp)
          refine Or.inr ⟨[], element, next, others, by rw [List.cons_append, tail]; rfl, here, ?_⟩
          exact all next (by rw [tail]; rfl)
      · exact Or.inr ⟨element :: ahead, child, holder, behind, by
          rw [List.cons_append, split, List.cons_append], stops, starts⟩

theorem mem_children_of_inside {branch : Branch AggNode} {number : Nat}
    (inside : number ∈ numbers [branch]) (other : number ≠ branch.id) :
    number ∈ numbers branch.children := by
  obtain ⟨label, children⟩ := branch
  rw [numbers_cons, numbers_nil, List.append_nil, List.mem_cons] at inside
  exact inside.resolve_left other

section Between

variable {aggs grown final : Aggregations} {old : Branch AggNode} {shape : Shape AggNode} {id : Nat}
  {passed new : List (Entry AggNode)}

section Grafted

variable (grafted : Grafted aggs old.id shape grown id passed new) (whole : Whole aggs.tree)
  (member : old ∈ aggs.tree.live)

include grafted whole member

theorem Grafted.way_on : ∃ outward, lineage old.id aggs.tree.branches = old.label :: outward ∧
    lineage id grown.tree.branches = ⟨shape.label, id⟩ :: (passed ++ old.label :: outward) := by
  obtain ⟨outward, top, _⟩ := lineage_of_mem whole.numbered.distinct member
  exact ⟨outward, top, top ▸ grafted.way⟩

theorem Grafted.holder_above {number : Nat} (listed : number ∈ holders grown.tree old.id id) :
    number ∈ (passed ++ lineage old.id aggs.tree.branches).map Entry.id := by
  obtain ⟨outward, top, way⟩ := grafted.way_on whole member
  have above : old.id ∈ (lineage id grown.tree.branches).tail.map Entry.id := by
    rw [way, List.tail_cons]
    simp [Rose.id]
  have onWay := mem_way_of_holder above listed
  rw [way, List.tail_cons] at onWay
  rw [top]
  exact onWay

/-- What lies below the target when a clause was inserted: the way to the clause, what lies below
it, and what comes to the way by a child that is displaced. -/
theorem Grafted.sorted {number : Nat} (above : Above grown.tree.branches old.id number) :
    Above grown.tree.branches number id ∨ Above grown.tree.branches id number ∨
      Steps (numbers old.children) (holders grown.tree old.id id) (holders grown.tree old.id id) id
        (lineage number grown.tree.branches) := by
  obtain ⟨outward, top, way⟩ := grafted.way_on whole member
  rcases grafted.added.mem_numbers_iff.mp above.inner_mem with live | fresh
  · have kept := grafted.added.lines number live
    obtain ⟨front, split⟩ := ((above_congr kept).mp above).split whole.numbered.distinct
    rw [top, ← List.singleton_append, ← List.append_assoc] at split
    have stops : old.label.id ∈ holders grown.tree old.id id := List.mem_append_right _ (by simp [Rose.id])
    rcases head_or_step (fun entry => entry.id ∈ holders grown.tree old.id id) front stops with
      all | ⟨ahead, child, holder, behind, parts, off, held⟩
    · obtain ⟨first, others, start, rfl⟩ := lineage_head live
      have holds := grafted.holder_above whole member (all first (by
        rw [start] at split
        obtain ⟨next, rest, tail⟩ := List.exists_cons_of_ne_nil
          (l := front ++ [old.label]) (by simp)
        rw [tail, List.cons_append] at split
        rw [tail, (List.cons.inj split).1]
        rfl))
      refine Or.inl ?_
      rw [Above, grafted.way]
      exact List.mem_cons_of_mem _ holds
    · have line : lineage number aggs.tree.branches =
          ahead ++ child :: (holder :: (behind ++ outward)) := by
        rw [split, parts]
        simp
      have suffix := lineage_suffix whole.numbered.distinct line
      have last : old.label ∈ holder :: behind := by
        have ends := congrArg List.getLast? parts
        rw [List.getLast?_append, List.getLast?_append, List.getLast?_cons_cons, List.getLast?_cons,
          List.getLast?_cons, Option.some_or, Option.some_or] at ends
        exact List.mem_of_getLast? (List.getLast?_cons.trans ends.symm)
      have inside : child.id ∈ numbers [old] := by
        refine (passes_iff whole.numbered.distinct member).mp ?_
        rw [suffix, ← List.cons_append]
        exact List.mem_cons_of_mem _ (List.mem_map_of_mem (List.mem_append_left _ last))
      have bound := whole.numbered.bounded child.id (mem_numbers_of_lineage suffix)
      have late := grafted.fresh
      exact Or.inr (Or.inr ⟨ahead, child, holder, _, kept.trans line, held,
        mem_children_of_inside inside fun same => off (by rw [same]; exact stops), off, by omega⟩)
  · obtain ⟨entry, listed, rfl⟩ := List.mem_map.mp fresh
    rcases grafted.around entry listed with onWay | below
    · refine Or.inl ?_
      rw [Above, grafted.way]
      exact List.mem_cons_of_mem _ (List.mem_map_of_mem (List.mem_append_left _ onWay))
    · exact Or.inr (Or.inl below)

end Grafted

structure Interposed (aggs : Aggregations) (old : Branch AggNode) (shape : Shape AggNode)
    (grown : Aggregations) (id : Nat) (passed new outward : List (Entry AggNode))
    (moved : List Nat) (final : Aggregations) : Prop where
  whole : Whole aggs.tree
  member : old ∈ aggs.tree.live
  placed : aggs.insertShape old.id shape = .ok (id, grown)
  grafted : Grafted aggs old.id shape grown id passed new
  top : lineage old.id aggs.tree.branches = old.label :: outward
  way : lineage id grown.tree.branches = ⟨shape.label, id⟩ :: (passed ++ old.label :: outward)
  gathered : Gathered (⟨shape.label, id⟩ :: (passed ++ old.label :: outward)) moved grown final
  asides : ∀ number ∈ moved, Aside (numbers old.children) (holders grown.tree old.id id) id number
  ends : lineage id final.tree.branches = ⟨shape.label, id⟩ :: (passed ++ old.label :: outward)
  sorted : ∀ number ∈ numbers final.tree.branches,
    ⟨shape.label, id⟩ :: (passed ++ old.label :: outward) <:+ lineage number final.tree.branches ∨
      (lineage number final.tree.branches = lineage number grown.tree.branches ∧
        ¬Steps (numbers old.children) (holders grown.tree old.id id)
          (holders grown.tree old.id id) id (lineage number grown.tree.branches))

theorem interposed_insertBetween {parent : Nat} (whole : Whole aggs.tree)
    (made : aggs.insertBetween parent shape = .ok (id, final)) :
    ∃ old grown passed new outward moved, old.id = parent ∧
      Interposed aggs old shape grown id passed new outward moved final := by
  obtain ⟨⟨old, member, rfl⟩, grown, placed, displaces⟩ := insertBetween_ok made
  obtain ⟨passed, new, grafted⟩ := grafted_insertShape shape whole placed
  obtain ⟨outward, top, way⟩ := grafted.way_on whole member
  have onWay : ∀ holder ∈ holders grown.tree old.id id,
      holder ∈ (passed ++ old.label :: outward).map Entry.id := fun holder listed => by
    have onWay := grafted.holder_above whole member listed
    rwa [top] at onWay
  rw [descendants_of_live whole.numbered member] at displaces
  obtain ⟨moved, gathered, asides, ends, sorted⟩ := gathered_displace grafted.whole way
    (covered_holders grafted.whole.numbered way) (fun holder listed => ⟨listed, onWay holder listed⟩)
    displaces
  exact ⟨old, grown, passed, new, outward, moved, rfl, whole, member, placed, grafted, top, way,
    gathered, asides, ends, sorted⟩

namespace Interposed

variable {outward : List (Entry AggNode)} {moved : List Nat}
  (interposed : Interposed aggs old shape grown id passed new outward moved final)

include interposed

theorem grows {number : Nat} (present : number ∈ numbers aggs.tree.branches) :
    lineage number grown.tree.branches = lineage number aggs.tree.branches :=
  interposed.grafted.added.lines number present

omit interposed in
theorem below_way {number : Nat} (below : ⟨shape.label, id⟩ :: (passed ++ old.label :: outward) <:+
    lineage number final.tree.branches) :
    Above final.tree.branches old.id number ∧ Above final.tree.branches id number := by
  obtain ⟨front, line⟩ := below
  rw [Above, Above, ← line]
  simp [Rose.id]

theorem beside {number : Nat} (present : number ∈ numbers aggs.tree.branches)
    (outside : Above aggs.tree.branches old.id number → number = old.id) :
    lineage number final.tree.branches = lineage number aggs.tree.branches := by
  have distinct := interposed.whole.numbered.distinct
  have grows := interposed.grows present
  rw [interposed.gathered.keeps number (mem_numbers_of_same grows present), grows]
  rw [grows]
  intro entry onWay moves
  have inside := (interposed.asides entry.id moves).old
  have within := (passes_iff distinct interposed.member).mpr
    ((numbers_children_sublist old).subset inside)
  have above : Above aggs.tree.branches entry.id number := List.mem_map_of_mem onWay
  have here := outside (Above.trans distinct within above)
  rw [here] at above
  rw [above.antisymm distinct within] at inside
  exact not_mem_children distinct interposed.member inside

/-- A clause keeps its entry, or it is dissolved in the scope of the inserted one. -/
theorem fate {number : Nat} {entry : Entry AggNode} {outer : List (Entry AggNode)}
    (line : lineage number aggs.tree.branches = entry :: outer) :
    (∃ further, lineage number final.tree.branches = entry :: further) ∨
      (number ∉ numbers final.tree.branches ∧
        ∃ path, entry.content.boundary? = some (.enter path) ∧
          final.tree.currentScope id = some path) := by
  have kept := (interposed.grows (mem_numbers_of_lineage line)).trans line
  by_cases passes : ∃ passed ∈ entry :: outer, passed.id ∈ moved
  · rcases interposed.gathered.takes number entry outer kept passes with
      ⟨front, below⟩ | ⟨gone, path, marks, scope⟩
    · exact Or.inl ⟨_, below⟩
    · refine Or.inr ⟨gone, path, marks, ?_⟩
      rw [currentScope_eq_scopeOn, interposed.ends]
      exact scope
  · refine Or.inl ⟨outer, ?_⟩
    rw [interposed.gathered.keeps number (mem_numbers_of_lineage kept), kept]
    rw [kept]
    exact fun passed onWay listed => passes ⟨passed, onWay, listed⟩

theorem brings {number : Nat} (present : number ∈ numbers final.tree.branches)
    (absent : number ∉ numbers aggs.tree.branches) :
    aggs.tree.next ≤ number ∧ Above final.tree.branches old.id number := by
  have added := interposed.grafted.added
  rcases interposed.sorted number present with below | ⟨same, _⟩
  · refine ⟨?_, (below_way below).1⟩
    by_cases halfway : number ∈ numbers grown.tree.branches
    · obtain ⟨entry, listed, rfl⟩ := List.mem_map.mp
        ((added.mem_numbers_iff.mp halfway).resolve_left absent)
      exact added.fresh entry listed
    · exact Nat.le_trans added.later (interposed.gathered.brings number present halfway).1
  · obtain ⟨entry, listed, rfl⟩ := List.mem_map.mp ((added.mem_numbers_iff.mp
      (mem_numbers_of_same same.symm present)).resolve_left absent)
    exact ⟨added.fresh entry listed, (above_congr same).mpr
      (interposed.grafted.below (id_mem_numbers interposed.member) entry listed)⟩

theorem stays {number : Nat} (above : Above aggs.tree.branches old.id number)
    (present : number ∈ numbers final.tree.branches) :
    Above final.tree.branches old.id number := by
  rcases interposed.sorted number present with below | ⟨same, _⟩
  · exact (below_way below).1
  · exact (above_congr (same.trans (interposed.grows above.inner_mem))).mpr above

theorem strung {number : Nat} (above : Above final.tree.branches old.id number) :
    Above final.tree.branches number id ∨ Above final.tree.branches id number := by
  rcases interposed.sorted number above.inner_mem with below | ⟨same, none⟩
  · exact Or.inr (below_way below).2
  · rcases interposed.grafted.sorted interposed.whole interposed.member ((above_congr same).mp above)
      with onWay | deeper | steps
    · exact Or.inl ((above_congr (interposed.ends.trans interposed.way.symm)).mpr onWay)
    · exact Or.inr ((above_congr same).mpr deeper)
    · exact absurd steps none

theorem marked {number : Nat} {entry : Entry AggNode} {outer : List (Entry AggNode)}
    (line : lineage number aggs.tree.branches = entry :: outer)
    (inside : Above aggs.tree.branches old.id number) (other : number ≠ old.id)
    (onWay : Above final.tree.branches number id) : entry.content.boundary?.isSome = true := by
  have grafted := interposed.grafted
  rw [Above, interposed.ends, List.map_cons, List.map_append, List.mem_cons, List.mem_append]
    at onWay
  rcases onWay with here | marker | outside
  · have bound := interposed.whole.numbered.bounded number inside.inner_mem
    have fresh := grafted.fresh
    have same : number = id := here
    omega
  · obtain ⟨found, listed, same⟩ := List.mem_map.mp marker
    obtain ⟨front, back, split⟩ := List.append_of_mem listed
    have suffix := interposed.way
    rw [split, List.append_assoc, List.cons_append, ← List.cons_append] at suffix
    have start := lineage_suffix grafted.whole.numbered.distinct suffix
    rw [same, interposed.grows inside.inner_mem, line] at start
    rw [(List.cons.inj start).1]
    exact grafted.marked found listed
  · refine absurd (Above.antisymm interposed.whole.numbered.distinct ?_ inside) other
    rw [Above, interposed.top]
    exact outside

theorem kinds {entry : Entry AggNode} (listed : entry ∈ entries final.tree.branches) :
    entry ∈ entries aggs.tree.branches ∨ entry.content.clause?.isSome = true := by
  have grafted := interposed.grafted
  rcases interposed.gathered.kinds entry listed with halfway | synthesized
  · exact (List.mem_append.mp (grafted.added.entries.subset halfway)).imp_right
      (grafted.copies.clause? (clauses_insertShape shape interposed.placed) entry)
  · exact Or.inr synthesized.clause?

theorem overtaken : Overtaken aggs old.id [⟨shape.label, id⟩] final id where
  same := by
    rw [interposed.gathered.same, interposed.grafted.same]
    rfl
  whole := interposed.gathered.whole
  later := Nat.le_trans interposed.grafted.added.later interposed.gathered.later
  inserted := by
    intro entry listed
    rw [List.mem_singleton.mp listed, interposed.ends]
    exact ⟨List.mem_cons_self, interposed.grafted.fresh⟩
  ends := rfl
  beside := fun _ present outside => interposed.beside present outside
  below := (below_way ⟨[], interposed.ends.symm⟩).1
  fate := by
    intro number entry outer line
    refine (interposed.fate line).imp_right fun ⟨gone, path, marks, scope⟩ => ?_
    exact ⟨gone, path, marks, _, List.mem_singleton_self _, scope⟩
  brings := fun _ present absent => interposed.brings present absent
  stays := fun _ above present => interposed.stays above present
  strung := fun _ above => interposed.strung above
  marked := fun _ _ _ line inside other onWay => interposed.marked line inside other onWay
  kinds := fun _ listed => interposed.kinds listed

end Interposed

end Between

/-! ### Chains of clauses -/

section Chains

variable {aggs final : Aggregations} {parent last : Nat}

theorem overtaken_insertChain {chain : List (Shape AggNode)} (whole : Whole aggs.tree)
    (live : parent ∈ numbers aggs.tree.branches)
    (made : aggs.insertChain parent chain = .ok (last, final)) :
    ∃ line : List (Entry AggNode), line.map Entry.toKeyed = chain.map Rose.label ∧
      Overtaken aggs parent line final last := by
  induction chain generalizing aggs parent with
  | nil =>
      cases Result.pure_ok.mp made
      exact ⟨[], rfl, .refl whole live⟩
  | cons shape rest ih =>
      obtain ⟨inserted, middle, first, later⟩ := insertChain_ok made
      obtain ⟨old, _, _, _, _, _, rfl, interposed⟩ := interposed_insertBetween whole first
      have step := interposed.overtaken
      obtain ⟨line, labels, further⟩ := ih step.whole step.below.inner_mem later
      exact ⟨_, by rw [List.map_append, List.map_cons, List.map_cons, labels]; rfl,
        step.trans further whole⟩

theorem Overtaken.getLast? {line : List (Entry AggNode)} {chain : List (Shape AggNode)}
    (taken : Overtaken aggs parent line final last) (more : chain ≠ [])
    (labels : line.map Entry.toKeyed = chain.map Rose.label) :
    ∃ entry, line.getLast? = some entry ∧ entry.id = last := by
  obtain ⟨entry, ends⟩ : ∃ entry, line.getLast? = some entry := by
    refine Option.ne_none_iff_exists'.mp fun none => more ?_
    rw [List.getLast?_eq_none_iff.mp none] at labels
    exact List.map_eq_nil_iff.mp labels.symm
  have ending := taken.ends
  rw [ends] at ending
  exact ⟨entry, ends, ending⟩

theorem live_of_insertChain {chain : List (Shape AggNode)} (more : chain ≠ [])
    (made : aggs.insertChain parent chain = .ok (last, final)) :
    parent ∈ numbers aggs.tree.branches := by
  obtain ⟨shape, rest, rfl⟩ := List.exists_cons_of_ne_nil more
  obtain ⟨inserted, middle, first, _⟩ := insertChain_ok made
  obtain ⟨⟨holder, member, rfl⟩, _⟩ := insertBetween_ok first
  exact id_mem_numbers member

theorem mem_labels_of_lineage {tree : Tree AggNode} (settled : tree.detached = []) {number : Nat}
    {entry : Entry AggNode} (onWay : entry ∈ lineage number tree.branches) :
    entry ∈ tree.nodes.map Rose.label := by
  obtain ⟨branch, member, rfl⟩ := exists_of_mem_lineage onWay
  rw [nodes_eq_live settled]
  exact List.mem_map_of_mem member

/-- A grouping loses nothing but markers of a scope that an inserted clause is in already. The
pointer is at the last clause; what was below the target is below that clause, or is a marker on
the way to it, and on this way each node has a single child. -/
theorem groupBy_takes_over {input : Input} {below : Option String}
    {request : Option (Shape AggNode)} {target : Nat} (whole : Whole aggs.tree)
    (read : input.read = .ok request) (more : clausesOf request ≠ [])
    (aimed : aggs.target below = .ok target) (made : aggs.groupBy input below = .ok final) :
    ∃ (line : List (Entry AggNode)) (last : Entry AggNode),
      line.map Entry.toKeyed = (clausesOf request).map Rose.label ∧
      line.getLast? = some last ∧ final.grouping = some last.id ∧
      (∀ clause ∈ line, clause ∈ final.tree.nodes.map Rose.label ∧
        ∀ node ∈ aggs.tree.nodes, node.id ≠ clause.id) ∧
      (final.tree.nodes.map Rose.id).Nodup ∧
      (∀ node ∈ aggs.tree.nodes, node.label ∈ final.tree.nodes.map Rose.label ∨
        (node.id ∉ final.tree.nodes.map Rose.id ∧
          ∃ path, node.content.boundary? = some (.enter path) ∧
            ∃ clause ∈ line, final.tree.currentScope clause.id = some path)) ∧
      (∀ node ∈ aggs.tree.nodes, node.id ∈ aggs.tree.descendants target →
        node.id ∈ final.tree.nodes.map Rose.id →
          last.id ∈ final.tree.ancestors node.id false ∨
            (node.id ∈ final.tree.ancestors last.id false ∧
              node.content.boundary?.isSome = true)) ∧
      target ∈ final.tree.ancestors last.id false ∧
      ∀ number ∈ final.tree.ancestors last.id false,
        target ∈ final.tree.ancestors number true →
          ∃ child, final.tree.children number = [child] := by
  obtain ⟨found, start, reads, aims, made⟩ := groupBy_ok made
  cases read.symm.trans reads
  cases aimed.symm.trans aims
  rcases made with ⟨rfl, _⟩ | ⟨last, moved, inserted, rfl⟩
  · exact absurd rfl more
  have live := live_of_insertChain more inserted
  obtain ⟨line, labels, taken⟩ := overtaken_insertChain whole live inserted
  have numbered := taken.whole.numbered
  have nodes := nodes_eq_live taken.whole.settled
  obtain ⟨entry, ends, same⟩ := taken.getLast? more labels
  have fresh : ∀ clause ∈ line, ∀ number ∈ numbers aggs.tree.branches, number ≠ clause.id := by
    intro clause listed number present
    have early := whole.numbered.bounded number present
    have late := (taken.inserted clause listed).2
    omega
  have other : ∀ number ∈ numbers aggs.tree.branches, number ≠ last := fun number present =>
    same ▸ fresh entry (List.mem_of_getLast? ends) number present
  subst same
  refine ⟨line, entry, labels, ends, rfl, fun clause listed => ⟨?_, fun node member => ?_⟩, ?_,
    fun node member => ?_, fun node member inside remains => ?_, ?_, fun number above inside => ?_⟩
  · exact mem_labels_of_lineage taken.whole.settled (taken.inserted clause listed).1
  · rw [nodes_eq_live whole.settled] at member
    exact fresh clause listed node.id (id_mem_numbers member)
  · rw [nodes]
    exact numbered.distinct
  · rw [nodes_eq_live whole.settled] at member
    obtain ⟨outward, way, _⟩ := lineage_of_mem whole.numbered.distinct member
    rcases taken.fate node.id node.label outward way with ⟨further, kept⟩ | ⟨gone, dissolved⟩
    · exact Or.inl (mem_labels_of_lineage taken.whole.settled (kept ▸ List.mem_cons_self))
    · refine Or.inr ⟨?_, dissolved⟩
      rw [nodes]
      exact gone
  · rw [nodes_eq_live whole.settled] at member
    rw [nodes] at remains
    have present := id_mem_numbers member
    obtain ⟨holder, liveHolder, rfl⟩ := exists_of_mem_numbers live
    rw [descendants_of_live whole.numbered liveHolder] at inside
    have within := (passes_iff whole.numbered.distinct liveHolder).mpr
      ((numbers_children_sublist holder).subset inside)
    obtain ⟨outward, way, _⟩ := lineage_of_mem whole.numbered.distinct member
    rw [mem_ancestors_outside numbered, mem_ancestors_outside numbered]
    rcases taken.strung node.id (taken.stays node.id within remains) with onWay | below
    · refine Or.inr ⟨⟨onWay, other node.id present⟩, ?_⟩
      refine taken.marked node.id node.label outward way within (fun here => ?_) onWay
      exact not_mem_children whole.numbered.distinct liveHolder (here ▸ inside)
    · exact Or.inl ⟨below, (other node.id present).symm⟩
  · exact (mem_ancestors_outside numbered).mpr ⟨taken.below, other target live⟩
  · obtain ⟨outside, apart⟩ := (mem_ancestors_outside numbered).mp above
    exact only_child numbered taken.strung (mem_ancestors_self.mp inside) outside apart

end Chains

def genderBelowPrices : List Operation :=
  [.add (.named "prices" "histogram" (.object [("field", .string "price")])) none,
    .add (genderTerms "by_gender") (some "prices")]

def rolesChain : Input :=
  .declaration (.object [("roles", .object [("nested", .object [("path", .string "roles")])]),
    ("again", .object [("terms", .object [("field", .string "roles.gender")])])])

theorem groupBy_takes_over_gender :
    ∃ aggs final, genderBelowPrices.foldlM Operation.apply { mapping := some castMapping } =
        .ok aggs ∧
      aggs.tree.nodes.filterMap Rose.key = ["prices", "nested_below_prices", "by_gender"] ∧
      aggs.groupBy rolesChain (some "prices") = .ok final ∧
      final.tree.nodes.filterMap Rose.key = ["prices", "roles", "again", "by_gender"] ∧
      ∃ last : Entry AggNode, final.grouping = some last.id ∧
        1 ∈ final.tree.ancestors last.id false ∧
        ∀ number ∈ final.tree.ancestors last.id false, 1 ∈ final.tree.ancestors number true →
          ∃ child, final.tree.children number = [child] := by
  have outcome : (genderBelowPrices.foldlM Operation.apply { mapping := some castMapping }
      ).toOption.any (fun aggs =>
        decide (aggs.tree.nodes.filterMap Rose.key =
          ["prices", "nested_below_prices", "by_gender"]) &&
        (aggs.target (some "prices")).toOption.any (fun target => decide (target = 1)) &&
        (aggs.groupBy rolesChain (some "prices")).toOption.any fun final =>
          decide (final.tree.nodes.filterMap Rose.key =
            ["prices", "roles", "again", "by_gender"])) = true := by
    decide +kernel
  have clauses : rolesChain.read.toOption.any (fun request =>
      decide ((clausesOf request).length = 2)) = true := by
    decide +kernel
  obtain ⟨aggs, ran, outcome⟩ := Result.ok_of_any outcome
  obtain ⟨request, read, length⟩ := Result.ok_of_any clauses
  simp only [Bool.and_eq_true, decide_eq_true_eq] at outcome length
  obtain ⟨⟨before, aimed⟩, outcome⟩ := outcome
  obtain ⟨target, aimed, rfl⟩ : ∃ target, aggs.target (some "prices") = .ok target ∧ target = 1 := by
    obtain ⟨target, aimed, here⟩ := Result.ok_of_any aimed
    exact ⟨target, aimed, of_decide_eq_true here⟩
  obtain ⟨final, grouped, after⟩ := Result.ok_of_any outcome
  have whole := (names_run (sound_empty (some castMapping) true).1 _ ran).1.toWhole
  obtain ⟨_, last, _, _, pointer, _, _, _, _, above, single⟩ :=
    groupBy_takes_over whole read (fun none => by simp [none] at length)
      aimed grouped
  exact ⟨aggs, final, ran, before, grouped, of_decide_eq_true after, last, pointer, above, single⟩

end Aggregations

end ScopedClauses
