import ScopedClauses.Proofs.Query.Run

/-!
The boolean meaning of queries. Clauses that share a scope are drawn together in a conjunction,
so correction keeps the meaning of a query where it draws together only what is joined by `and`.
-/

namespace ScopedClauses

namespace Weaving

open Rose

/-! ### Values -/

def boolValue (values : String → List Bool) : Bool :=
  (values "must").all id && (values "filter").all id && !(values "must_not").any id &&
    ((values "should").isEmpty || !(values "must").isEmpty || !(values "filter").isEmpty ||
      (values "should").any id)

/-- The value of a clause for the values in its slots. Apart from a `bool`, only a `query` is
given a meaning. -/
def combine (bool : Bool) (values : String → List Bool) : Bool :=
  if bool then boolValue values else (values "query").all id

mutual

def value (leaves : Json → Bool) : Shape QueryNode → Bool
  | .node entry slots =>
      match entry.content with
      | .leaf clause => leaves (QueryNode.wrap clause.kind.tag clause.body)
      | other => combine other.isBool fun name => valuesNamed leaves name slots

def valuesNamed (leaves : Json → Bool) (name : String) : List (Shape QueryNode) → List Bool
  | [] => []
  | .node entry clauses :: rest =>
      (if entry.content.slot?.any (·.name = name) then valuesOf leaves clauses else []) ++
        valuesNamed leaves name rest

def valuesOf (leaves : Json → Bool) : List (Shape QueryNode) → List Bool
  | [] => []
  | clause :: rest => value leaves clause :: valuesOf leaves rest

end

def clausesNamed (name : String) (slots : List (Shape QueryNode)) : List (Shape QueryNode) :=
  slots.flatMap fun slot => if isNamed name slot then slot.children else []

theorem isNamed_node (name : String) (entry : Keyed QueryNode)
    (clauses : List (Shape QueryNode)) :
    isNamed name (.node entry clauses) = entry.content.slot?.any (·.name = name) := rfl

theorem clausesNamed_cons (name : String) (slot : Shape QueryNode)
    (rest : List (Shape QueryNode)) :
    clausesNamed name (slot :: rest) =
      (if isNamed name slot then slot.children else []) ++ clausesNamed name rest := by
  rw [clausesNamed, List.flatMap_cons]
  rfl

section Values

variable (leaves : Json → Bool)

theorem valuesOf_eq (clauses : List (Shape QueryNode)) :
    valuesOf leaves clauses = clauses.map (value leaves) := by
  induction clauses with
  | nil => rfl
  | cons clause rest ih => rw [valuesOf, ih, List.map_cons]

theorem valuesNamed_eq (name : String) (slots : List (Shape QueryNode)) :
    valuesNamed leaves name slots = (clausesNamed name slots).map (value leaves) := by
  induction slots with
  | nil => rfl
  | cons slot rest ih =>
      obtain ⟨entry, clauses⟩ := slot
      rw [valuesNamed, ih, valuesOf_eq, clausesNamed_cons, List.map_append, isNamed, label_node,
        children_node]
      by_cases named : entry.content.slot?.any (·.name = name) = true
      · rw [if_pos named, if_pos named]
      · rw [if_neg named, if_neg named, List.map_nil]

theorem value_node {entry : Keyed QueryNode} (slots : List (Shape QueryNode))
    (branching : ∀ clause, entry.content ≠ .leaf clause) :
    value leaves (.node entry slots) =
      combine entry.content.isBool fun name => (clausesNamed name slots).map (value leaves) := by
  have names : (fun name => valuesNamed leaves name slots) =
      fun name => (clausesNamed name slots).map (value leaves) :=
    funext fun name => valuesNamed_eq leaves name slots
  rw [value]
  split
  · rename_i clause content
    exact absurd content (branching clause)
  · rw [names]

theorem value_branching {clause : Shape QueryNode}
    (branching : ∀ leaf, clause.label.content ≠ .leaf leaf) :
    value leaves clause =
      combine (isBool clause) fun name => (clausesNamed name clause.children).map (value leaves) := by
  obtain ⟨entry, slots⟩ := clause
  exact value_node leaves slots branching

end Values

/-! ### Agreement -/

def conjunctive (name : String) : Bool := name ≠ "should" && name ≠ "must_not"

structure Agree (name : String) (first second : List Bool) : Prop where
  empty : first = [] ↔ second = []
  all : conjunctive name = true → first.all id = second.all id
  any : conjunctive name = false → first.any id = second.any id

namespace Agree

variable {name : String} {first second third : List Bool}

theorem refl (name : String) (values : List Bool) : Agree name values values :=
  ⟨Iff.rfl, fun _ => rfl, fun _ => rfl⟩

theorem trans (left : Agree name first second) (right : Agree name second third) :
    Agree name first third :=
  ⟨left.empty.trans right.empty, fun joined => (left.all joined).trans (right.all joined),
    fun split => (left.any split).trans (right.any split)⟩

theorem append (agree : Agree name first second) (rest : List Bool) :
    Agree name (first ++ rest) (second ++ rest) := by
  refine ⟨?_, fun joined => ?_, fun split => ?_⟩
  · rw [List.append_eq_nil_iff, List.append_eq_nil_iff, agree.empty]
  · simp only [List.all_append, agree.all joined]
  · simp only [List.any_append, agree.any split]

theorem perm (name : String) (same : first.Perm second) : Agree name first second := by
  refine ⟨⟨?_, ?_⟩, fun _ => same.all_eq, fun _ => same.any_eq⟩
  · rintro rfl
    exact same.symm.eq_nil
  · rintro rfl
    exact same.eq_nil

theorem isEmpty (agree : Agree name first second) : first.isEmpty = second.isEmpty := by
  rw [Bool.eq_iff_iff, List.isEmpty_iff, List.isEmpty_iff, agree.empty]

end Agree

theorem combine_congr (bool : Bool) {first second : String → List Bool}
    (agree : ∀ name, Agree name (first name) (second name)) :
    combine bool first = combine bool second := by
  have must := agree "must"
  have filter := agree "filter"
  have mustNot := agree "must_not"
  have should := agree "should"
  have query := agree "query"
  cases bool with
  | true =>
      simp only [combine, if_true, boolValue]
      rw [must.all rfl, filter.all rfl, mustNot.any rfl, should.any rfl, must.isEmpty,
        filter.isEmpty, should.isEmpty]
  | false =>
      simp only [combine, Bool.false_eq_true, if_false]
      exact query.all rfl

/-! ### Changed slots -/

theorem clausesNamed_changeSlot_other {place : Slot} {name : String} (other : name ≠ place.name)
    (change : List (Shape QueryNode) → List (Shape QueryNode)) (slots : List (Shape QueryNode)) :
    clausesNamed name (changeSlot place change slots) = clausesNamed name slots := by
  induction slots with
  | nil =>
      have differs : isNamed name (QueryNode.slotShape place (change [])) = false := by
        simpa [isNamed, QueryNode.slotShape, QueryNode.slot?] using Ne.symm other
      rw [changeSlot, clausesNamed_cons, differs]
      rfl
  | cons slot rest ih =>
      by_cases named : isNamed place.name slot = true
      · have differs : ∀ clauses, isNamed name (.node slot.label clauses) = false := by
          intro clauses
          obtain ⟨own, content, same⟩ := isNamed_iff.mp named
          simp [isNamed, content, QueryNode.slot?, same, Ne.symm other]
        have apart : isNamed name slot = false := differs slot.children
        simp only [changeSlot, named, if_true, clausesNamed_cons, differs, apart]
        rfl
      · simp only [changeSlot, named, Bool.false_eq_true, if_false, clausesNamed_cons, ih]

theorem clausesNamed_changeSlot (place : Slot) (slots : List (Shape QueryNode)) :
    ∃ others, clausesNamed place.name slots = clausesIn place.name slots ++ others ∧
      ∀ change, clausesNamed place.name (changeSlot place change slots) =
        change (clausesIn place.name slots) ++ others := by
  induction slots with
  | nil =>
      refine ⟨[], rfl, fun change => ?_⟩
      have named : isNamed place.name (QueryNode.slotShape place (change [])) = true := by
        simp [isNamed, QueryNode.slotShape, QueryNode.slot?]
      rw [changeSlot, clausesNamed_cons, if_pos named]
      rfl
  | cons slot rest ih =>
      by_cases named : isNamed place.name slot = true
      · have here : clausesIn place.name (slot :: rest) = slot.children := by
          simp [clausesIn, named]
        refine ⟨clausesNamed place.name rest, by rw [clausesNamed_cons, if_pos named, here],
          fun change => ?_⟩
        have kept : isNamed place.name (.node slot.label (change slot.children)) = true := named
        simp only [changeSlot, named, if_true, clausesNamed_cons, kept, here]
        rfl
      · obtain ⟨others, before, after⟩ := ih
        have later : clausesIn place.name (slot :: rest) = clausesIn place.name rest := by
          simp [clausesIn, named]
        refine ⟨others, ?_, fun change => ?_⟩
        · rw [clausesNamed_cons, if_neg named, List.nil_append, later, before]
        · simp only [changeSlot, named, Bool.false_eq_true, if_false, clausesNamed_cons,
            List.nil_append, after, later]

theorem clausesNamed_same (place : Slot) (name : String) (slots : List (Shape QueryNode)) :
    clausesNamed name (changeSlot place (fun old => old) slots) = clausesNamed name slots := by
  by_cases same : name = place.name
  · obtain ⟨others, before, after⟩ := clausesNamed_changeSlot place slots
    rw [same, after, before]
  · exact clausesNamed_changeSlot_other same _ slots

section Changes

variable (leaves : Json → Bool)

theorem agree_changeSlot {place : Slot}
    {change : List (Shape QueryNode) → List (Shape QueryNode)} {slots : List (Shape QueryNode)}
    {more : List Bool}
    (agree : Agree place.name ((change (clausesIn place.name slots)).map (value leaves))
      ((clausesIn place.name slots).map (value leaves) ++ more)) (name : String) :
    Agree name ((clausesNamed name (changeSlot place change slots)).map (value leaves))
      ((clausesNamed name slots).map (value leaves) ++ if name = place.name then more else []) := by
  by_cases same : name = place.name
  · subst same
    obtain ⟨others, before, after⟩ := clausesNamed_changeSlot place slots
    rw [if_pos rfl, after, before, List.map_append, List.map_append]
    refine (agree.append _).trans (Agree.perm _ ?_)
    rw [List.append_assoc, List.append_assoc]
    exact List.perm_append_comm.append_left _
  · rw [if_neg same, List.append_nil, clausesNamed_changeSlot_other same]
    exact Agree.refl _ _

theorem value_inSlot {place : Slot} {change : List (Shape QueryNode) → List (Shape QueryNode)}
    {clause : Shape QueryNode} (branching : ∀ leaf, clause.label.content ≠ .leaf leaf)
    {more : List Bool}
    (agree : Agree place.name ((change (clausesIn place.name clause.children)).map (value leaves))
      ((clausesIn place.name clause.children).map (value leaves) ++ more)) :
    value leaves (inSlot place change clause) =
      combine (isBool clause) fun name => (clausesNamed name clause.children).map (value leaves) ++
        if name = place.name then more else [] := by
  obtain ⟨entry, slots⟩ := clause
  rw [inSlot, value_node leaves _ branching]
  exact combine_congr _ fun name => agree_changeSlot leaves agree name

def alternatives (clause : Shape QueryNode) : Bool :=
  isBool clause && !(clausesNamed "should" clause.children).isEmpty &&
    (clausesNamed "must" clause.children).isEmpty && (clausesNamed "filter" clause.children).isEmpty

theorem branching_of_bool {clause : Shape QueryNode} (bool : isBool clause = true) :
    ∀ leaf, clause.label.content ≠ .leaf leaf := by
  intro leaf content
  rw [isBool, content] at bool
  cases bool

theorem branching_of_opens {path : String} {clause : Shape QueryNode}
    (opened : opens path clause = true) : ∀ leaf, clause.label.content ≠ .leaf leaf := by
  intro leaf content
  simp [opens, content, QueryNode.nestedPath?] at opened

def demands (values : String → List Bool) : Bool :=
  (values "must").all id && (values "filter").all id && !(values "must_not").any id

theorem combine_joined (values : String → List Bool)
    (joined : values "should" = [] ∨ values "must" ≠ [] ∨ values "filter" ≠ []) :
    combine true values = demands values := by
  have optional : ((values "should").isEmpty || !(values "must").isEmpty ||
      !(values "filter").isEmpty || (values "should").any id) = true := by
    rcases joined with none | some | some
    · simp [none]
    · simp [some]
    · simp [some]
  simp only [combine, if_true, boolValue, optional, Bool.and_true, demands]

/-- Beside a clause in `must` or `filter` alternatives are optional. -/
theorem combine_added (values : String → List Bool) (added : Bool) {name : String}
    (required : name = "must" ∨ name = "filter") :
    combine true (fun other => values other ++ if other = name then [added] else []) =
      (demands values && added) := by
  rcases required with rfl | rfl
  · rw [combine_joined _ (by simp)]
    simp [demands, List.all_append, Bool.and_comm, Bool.and_left_comm, Bool.and_assoc]
  · rw [combine_joined _ (by simp)]
    simp [demands, List.all_append, Bool.and_comm, Bool.and_assoc]

theorem combine_query (values : String → List Bool) (added : Bool) :
    combine false (fun name => values name ++ if name = "query" then [added] else []) =
      (combine false values && added) := by
  simp [combine, List.all_append]

/-- What a clause demands of a document that a further clause, required beside it, selects. The
alternatives of a `bool` are optional then. -/
def demanded (clause : Shape QueryNode) : Bool :=
  if isBool clause then
    demands fun name => (clausesNamed name clause.children).map (value leaves)
  else value leaves clause

theorem demanded_eq_value {clause : Shape QueryNode} (joined : alternatives clause = false) :
    demanded leaves clause = value leaves clause := by
  rw [demanded]
  split
  · rename_i bool
    rw [value_branching leaves (branching_of_bool bool), bool, combine_joined]
    simp only [alternatives, bool, Bool.true_and, Bool.and_eq_false_iff,
      Bool.not_eq_false', List.isEmpty_iff, List.isEmpty_eq_false_iff] at joined
    simpa only [ne_eq, List.map_eq_nil_iff, or_assoc] using joined
  · rfl

theorem value_inRequired {place : Slot} (required : place.name = "must" ∨ place.name = "filter")
    {change : List (Shape QueryNode) → List (Shape QueryNode)} {clause : Shape QueryNode}
    (bool : isBool clause = true) {added : Bool}
    (agree : Agree place.name ((change (clausesIn place.name clause.children)).map (value leaves))
      ((clausesIn place.name clause.children).map (value leaves) ++ [added])) :
    value leaves (inSlot place change clause) = (demanded leaves clause && added) := by
  rw [value_inSlot leaves (branching_of_bool bool) agree, bool, combine_added _ _ required,
    demanded, if_pos bool]

theorem value_inMust {change : List (Shape QueryNode) → List (Shape QueryNode)}
    {clause : Shape QueryNode} (bool : isBool clause = true)
    (joined : alternatives clause = false) {added : Bool}
    (agree : Agree mustPlace.name
      ((change (clausesIn mustPlace.name clause.children)).map (value leaves))
      ((clausesIn mustPlace.name clause.children).map (value leaves) ++ [added])) :
    value leaves (inSlot mustPlace change clause) = (value leaves clause && added) := by
  rw [value_inRequired leaves (Or.inl rfl) bool agree, demanded_eq_value leaves joined]

theorem value_inQuery {change : List (Shape QueryNode) → List (Shape QueryNode)}
    {clause : Shape QueryNode} {path : String} (opened : opens path clause = true)
    (plain : isBool clause = false) {added : Bool}
    (agree : Agree queryPlace.name
      ((change (clausesIn queryPlace.name clause.children)).map (value leaves))
      ((clausesIn queryPlace.name clause.children).map (value leaves) ++ [added])) :
    value leaves (inSlot queryPlace change clause) = (value leaves clause && added) := by
  rw [value_inSlot leaves (branching_of_opens opened) agree,
    value_branching leaves (branching_of_opens opened), plain]
  exact combine_query (fun name => (clausesNamed name clause.children).map (value leaves)) added

theorem value_conjunction (first second : Shape QueryNode) :
    value leaves (conjunction [first, second]) = (value leaves first && value leaves second) := by
  rw [conjunction, value_node leaves _ fun leaf same => by cases same]
  simp [combine, boolValue, QueryNode.emptyBool, QueryNode.isBool, QueryKind.boolean, clausesNamed,
    isNamed, QueryNode.slotShape, QueryNode.slot?, mustPlace]

theorem value_chain (route : List String) (incoming : Shape QueryNode) :
    value leaves (chain route incoming) = value leaves incoming := by
  induction route with
  | nil => rfl
  | cons path rest ih =>
      rw [chain, value_node leaves _ fun leaf same => by cases same]
      simp [combine, QueryNode.enter, QueryNode.isBool, QueryKind.nested, clausesNamed, isNamed,
        QueryNode.slotShape, QueryNode.slot?, queryPlace, ih]

/-! ### Weaving -/

def roomy (many : Bool) (clauses : List (Shape QueryNode)) : Bool :=
  many || !clauses.head?.any alternatives

def keeps : String → List String → Bool → List (Shape QueryNode) → Bool
  | _, [], many, clauses => roomy many clauses
  | name, path :: rest, many, clauses =>
      match (standing many clauses).find? (opens path) with
      | some entered =>
          conjunctive name &&
            keeps queryPlace.name rest queryPlace.multiple
              (clausesIn queryPlace.name entered.children)
      | none => roomy many clauses

theorem agree_replaced {name : String} (joined : conjunctive name = true)
    (front back : List (Shape QueryNode)) {old new : Shape QueryNode} {added : Bool}
    (changed : value leaves new = (value leaves old && added)) :
    Agree name ((front ++ new :: back).map (value leaves))
      ((front ++ old :: back).map (value leaves) ++ [added]) := by
  refine ⟨by simp, fun _ => ?_, fun split => ?_⟩
  · simp [List.all_append, changed, Bool.and_comm, Bool.and_left_comm, Bool.and_assoc]
  · rw [joined] at split
    cases split

theorem agree_add {name : String} {many : Bool} {incoming : Shape QueryNode}
    {clauses : List (Shape QueryNode)} (single : many = false → conjunctive name = true)
    (room : roomy many clauses = true) :
    Agree name ((add many incoming clauses).map (value leaves))
      (clauses.map (value leaves) ++ [value leaves incoming]) := by
  cases many with
  | true =>
      rw [add_many, List.map_append]
      exact Agree.refl _ _
  | false =>
      cases clauses with
      | nil => exact Agree.refl _ _
      | cons occupant rest =>
          rw [add_single]
          split
          · rename_i bool
            refine agree_replaced leaves (single rfl) [] rest ?_
            refine value_inMust leaves bool (by simpa [roomy] using room) ?_
            rw [List.map_append]
            exact Agree.refl _ _
          · exact agree_replaced leaves (single rfl) [] rest (value_conjunction leaves _ _)

theorem agree_changeFirst {name path : String} (joined : conjunctive name = true)
    {change : Shape QueryNode → Shape QueryNode} {clauses : List (Shape QueryNode)}
    {entered : Shape QueryNode} (found : clauses.find? (opens path) = some entered) {added : Bool}
    (changed : value leaves (change entered) = (value leaves entered && added)) :
    Agree name ((changeFirst (opens path) change clauses).map (value leaves))
      (clauses.map (value leaves) ++ [added]) := by
  obtain ⟨opened, front, back, rfl, others⟩ := List.find?_eq_some_iff_append.mp found
  rw [changeFirst_split change (by simpa using others) opened]
  exact agree_replaced leaves joined front back changed

theorem formed_of_mem {clauses : List (Shape QueryNode)} (formed : Formed clauses)
    {clause : Shape QueryNode} (member : clause ∈ clauses) : Formed [clause] := by
  obtain ⟨front, back, rfl⟩ := List.append_of_mem member
  rw [formed_append, formed_cons_iff] at formed
  exact formed.2.1

theorem formed_children {clause : Shape QueryNode} (formed : Formed [clause]) :
    Formed clause.children := by
  obtain ⟨entry, slots⟩ := clause
  exact ((formed_cons _ _ _).mp formed).2.1

theorem formed_clausesIn {slots : List (Shape QueryNode)} (formed : Formed slots)
    (name : String) : Formed (clausesIn name slots) := by
  rw [clausesIn]
  split
  · rename_i slot found
    exact formed_children (formed_of_mem formed (List.mem_of_find?_eq_some found))
  · exact formed_nil

theorem plain_of_opens {clause : Shape QueryNode} (formed : Formed [clause]) {path : String}
    (opened : opens path clause = true) : isBool clause = false := by
  obtain ⟨entry, slots⟩ := clause
  obtain ⟨compound, content, kind⟩ :=
    QueryNode.kind_of_nestedPath ((formed_cons _ _ _).mp formed).1 (of_decide_eq_true opened)
  simp [isBool, content, QueryNode.isBool, kind, QueryKind.nested]

theorem joined_of_must {occupant clause : Shape QueryNode}
    (member : clause ∈ clausesIn mustPlace.name occupant.children) :
    alternatives occupant = false := by
  obtain ⟨others, before, _⟩ := clausesNamed_changeSlot mustPlace occupant.children
  have filled : (clausesNamed "must" occupant.children).isEmpty = false := by
    rw [List.isEmpty_eq_false_iff_exists_mem]
    exact ⟨clause, before ▸ List.mem_append_left _ member⟩
  simp [alternatives, filled]

/-- Weaving a clause in where it is kept apart adds its value to the slot. -/
theorem agree_weave (route : List String) (incoming : Shape QueryNode) {name : String}
    {many : Bool} {clauses : List (Shape QueryNode)} (formed : Formed clauses)
    (single : many = false → conjunctive name = true)
    (kept : keeps name route many clauses = true) :
    Agree name ((weave route many incoming clauses).map (value leaves))
      (clauses.map (value leaves) ++ [value leaves incoming]) := by
  induction route generalizing name many clauses with
  | nil => exact agree_add leaves single kept
  | cons path rest ih =>
      rw [keeps] at kept
      cases found : (standing many clauses).find? (opens path) with
      | none =>
          rw [found] at kept
          have closed : (standing many clauses).any (opens path) = false := by
            simpa using found
          rw [weave, closed, if_neg (by simp), ← value_chain leaves (path :: rest) incoming]
          exact agree_add leaves single kept
      | some entered =>
          rw [found] at kept
          simp only [Bool.and_eq_true] at kept
          obtain ⟨joined, kept⟩ := kept
          have opened : opens path entered = true := List.find?_some found
          have some : (standing many clauses).any (opens path) = true :=
            List.any_eq_true.mpr ⟨entered, List.mem_of_find?_eq_some found, opened⟩
          -- the clause that is entered takes the value into its own query
          have inward : Formed [entered] →
              value leaves (inSlot queryPlace (weave rest false incoming) entered) =
                (value leaves entered && value leaves incoming) := fun formedEntered =>
            value_inQuery leaves opened (plain_of_opens formedEntered opened)
              (ih (formed_clausesIn (formed_children formedEntered) _) (fun _ => rfl) kept)
          rw [weave, some, if_pos rfl]
          cases many with
          | true =>
              rw [changeStanding_many]
              exact agree_changeFirst leaves joined found
                (inward (formed_of_mem formed (List.mem_of_find?_eq_some found)))
          | false =>
              cases clauses with
              | nil => cases found
              | cons occupant others =>
                  rw [standing_single] at found
                  rw [changeStanding_single]
                  by_cases bool : isBool occupant = true
                  · rw [if_pos bool] at found ⊢
                    have formedMust : Formed (clausesIn mustPlace.name occupant.children) :=
                      formed_clausesIn (formed_children (formed_of_mem formed List.mem_cons_self)) _
                    have member := List.mem_of_find?_eq_some found
                    have must : conjunctive mustPlace.name = true := rfl
                    refine agree_replaced leaves joined [] others ?_
                    exact value_inMust leaves bool (joined_of_must member)
                      (agree_changeFirst leaves must found
                        (inward (formed_of_mem formedMust member)))
                  · rw [if_neg bool] at found ⊢
                    exact agree_changeFirst leaves joined found
                      (inward (formed_of_mem formed (List.mem_of_find?_eq_some found)))

end Changes

/-! ### Correction -/

section Correction

variable (mapping : Option Mapping) (autocorrect : Bool)

mutual

/-- Whether correcting a clause draws clauses together only where that keeps the meaning. -/
def faithful (scope : Option String) : Shape QueryNode → Bool
  | .node entry slots => faithfulSlots (within scope entry.content) entry.content slots []

def faithfulSlots (scope : Option String) (holder : QueryNode) :
    List (Shape QueryNode) → List (Shape QueryNode) → Bool
  | [], _ => true
  | .node entry clauses :: rest, done =>
      match entry.content.slot? with
      | none => faithfulSlots scope holder rest done
      | some named =>
          match declared holder named.name with
          | .error _ => true
          | .ok place =>
              let started := changeSlot place (fun old => old) done
              faithfulClauses scope place clauses started &&
                match correctClauses mapping autocorrect scope place clauses started with
                | .error _ => true
                | .ok done => faithfulSlots scope holder rest done

def faithfulClauses (scope : Option String) (place : Slot) :
    List (Shape QueryNode) → List (Shape QueryNode) → Bool
  | [], _ => true
  | clause :: rest, done =>
      match routeFor mapping autocorrect scope clause.label.content with
      | .error _ => true
      | .ok route =>
          faithful (arrive scope route) clause &&
            keeps place.name route place.multiple (clausesIn place.name done) &&
            match weaveClause mapping autocorrect scope place clause done with
            | .error _ => true
            | .ok done => faithfulClauses scope place rest done

end

variable {mapping autocorrect} (leaves : Json → Bool)

theorem conjunctive_of_single {clause : CompoundClause} {place : Slot}
    (known : .compound clause.kind ∈ QueryKind.all)
    (declares : clause.kind.slot? place.name = some place) (single : place.multiple = false) :
    conjunctive place.name = true := by
  have all : ∀ kind ∈ QueryKind.compounds, ∀ place ∈ kind.slots, place.multiple = false →
      conjunctive place.name = true := by decide +kernel
  exact all _ (QueryKind.compound_of_mem known) place (List.mem_of_find?_eq_some declares) single

mutual

/-- A clause that is corrected faithfully keeps its value. -/
theorem value_correct {scope : Option String} {done : Shape QueryNode} :
    ∀ shape, AllKnown [shape] → correct mapping autocorrect scope shape = .ok done →
      faithful mapping autocorrect scope shape = true →
      value leaves done = value leaves shape
  | .node entry slots, known, corrected, kept => by
      rw [allKnown_cons] at known
      simp only [correct, Result.bind_ok, Result.pure_ok] at corrected
      obtain ⟨slotsDone, corrected, rfl⟩ := corrected
      have agree := agree_correctSlots slots known.2.1 (formedSlots_nil known.1) corrected
        (by rwa [faithful] at kept)
      by_cases branching : ∀ leaf, entry.content ≠ .leaf leaf
      · rw [value_node leaves _ branching, value_node leaves _ branching]
        exact combine_congr _ agree
      · simp only [ne_eq, not_forall, not_not] at branching
        obtain ⟨leaf, content⟩ := branching
        simp only [value, content]
  termination_by structural shape => shape

theorem agree_correctSlots {scope : Option String} {holder : QueryNode}
    {before done : List (Shape QueryNode)} :
    ∀ slots, AllKnown slots → FormedSlots holder before →
      correctSlots mapping autocorrect scope holder slots before = .ok done →
      faithfulSlots mapping autocorrect scope holder slots before = true →
      ∀ name, Agree name ((clausesNamed name done).map (value leaves))
        ((clausesNamed name before ++ clausesNamed name slots).map (value leaves))
  | [], _, _, corrected, _ => by
      cases Result.pure_ok.mp corrected
      intro name
      rw [clausesNamed, clausesNamed, List.flatMap_nil, List.append_nil]
      exact Agree.refl _ _
  | .node entry clauses :: rest, known, formed, corrected, kept => by
      rw [allKnown_cons] at known
      rw [correctSlots] at corrected
      rw [faithfulSlots] at kept
      intro name
      rw [clausesNamed_cons]
      cases slotted : entry.content.slot? with
      | none =>
          simp only [slotted] at corrected kept
          have unnamed : isNamed name (.node entry clauses) = false := by
            rw [isNamed_node, slotted]
            rfl
          rw [unnamed, if_neg (by simp), List.nil_append]
          exact agree_correctSlots rest known.2.2 formed corrected kept name
      | some own =>
          simp only [slotted, Result.bind_ok] at corrected
          obtain ⟨place, asked, between, first, second⟩ := corrected
          simp only [slotted, asked, first, Bool.and_eq_true] at kept
          obtain ⟨compound, content, declares⟩ := declared_ok.mp asked
          have same : place.name = own.name := CompoundKind.slot?_name declares
          rw [← same] at declares
          rw [content] at formed
          have started := (formed_changeSlot declares (fun old => old) (fun _ kept => kept) formed).1
          have formedBetween := formed_correctClauses clauses known.2.1 declares started first
          have here := agree_correctClauses clauses known.2.1 declares started first kept.1 name
          have later := agree_correctSlots rest known.2.2 (content ▸ formedBetween) second kept.2 name
          rw [clausesNamed_same, ← List.map_nil, ← apply_ite (List.map (value leaves))] at here
          have names : isNamed name (.node entry clauses) = decide (name = place.name) := by
            rw [isNamed_node, slotted, same]
            simp [eq_comm]
          rw [List.map_append] at later
          rw [names, children_node, ← List.append_assoc, List.map_append, List.map_append]
          simpa only [decide_eq_true_eq] using later.trans (here.append _)
  termination_by structural slots => slots

theorem agree_correctClauses {scope : Option String} {compound : CompoundClause} {place : Slot}
    {before done : List (Shape QueryNode)} :
    ∀ clauses, AllKnown clauses → compound.kind.slot? place.name = some place →
      FormedSlots (.compound compound) before →
      correctClauses mapping autocorrect scope place clauses before = .ok done →
      faithfulClauses mapping autocorrect scope place clauses before = true →
      ∀ name, Agree name ((clausesNamed name done).map (value leaves))
        ((clausesNamed name before).map (value leaves) ++
          if name = place.name then clauses.map (value leaves) else [])
  | [], _, _, _, corrected, _ => by
      cases Result.pure_ok.mp corrected
      intro name
      rw [List.map_nil, ite_self, List.append_nil]
      exact Agree.refl _ _
  | clause :: rest, known, declares, formed, corrected, kept => by
      rw [allKnown_cons_iff] at known
      rw [correctClauses_cons, Result.bind_ok] at corrected
      obtain ⟨between, woven, corrected⟩ := corrected
      rw [faithfulClauses] at kept
      have step := woven
      simp only [weaveClause, Result.bind_ok, Result.pure_ok, refuseSlot_ok] at step
      obtain ⟨route, routed, _, bare, incoming, here, rfl⟩ := step
      simp only [routed, woven, Bool.and_eq_true] at kept
      obtain ⟨⟨keptHere, apart⟩, keptRest⟩ := kept
      have same := value_correct clause known.1 here keptHere
      have formedBetween := formed_weaveClause known.1 declares formed woven
      have single : place.multiple = false → conjunctive place.name = true :=
        conjunctive_of_single formed.2.1 declares
      have woven :=
        agree_weave leaves route incoming (formed_clausesIn formed.1 place.name) single apart
      intro name
      have later := agree_correctClauses rest known.2 declares formedBetween corrected keptRest name
      have added := (agree_changeSlot leaves woven name).append
        (if name = place.name then rest.map (value leaves) else [])
      refine later.trans ?_
      rw [same, List.append_assoc] at added
      by_cases here : name = place.name
      · simpa only [if_pos here, List.map_cons, List.singleton_append] using added
      · simpa only [if_neg here, List.append_nil] using added
  termination_by structural clauses => clauses

end

end Correction

/-! ### Documents -/

def faithfulTop (mapping : Option Mapping) (autocorrect : Bool) (clause : Shape QueryNode) : Bool :=
  match routeFor mapping autocorrect none clause.label.content with
  | .error _ => true
  | .ok route => faithful mapping autocorrect (arrive none route) clause

theorem value_weaveTop {mapping : Option Mapping} {autocorrect : Bool} {clause : Shape QueryNode}
    {roots : List (Shape QueryNode)} (known : AllKnown [clause])
    (woven : weaveTop mapping autocorrect clause [] = .ok roots)
    (kept : faithfulTop mapping autocorrect clause = true) :
    ∃ result, roots = [result] ∧ ∀ leaves, value leaves result = value leaves clause := by
  simp only [weaveTop, Result.bind_ok, Result.pure_ok] at woven
  obtain ⟨route, routed, _, _, incoming, corrected, rfl⟩ := woven
  refine ⟨chain route incoming, weave_nil route false incoming, fun leaves => ?_⟩
  rw [faithfulTop, routed] at kept
  rw [value_chain]
  exact value_correct leaves clause known corrected kept

end Weaving

namespace Query

open Rose Tree Weaving

/-- A document that is corrected faithfully is read as a query of the same meaning. -/
theorem value_ofJson {json : Json} {mapping : Mapping} {clause : Shape QueryNode}
    (read : QueryNode.ofJson json = .ok clause) {query : Query}
    (made : ofJson json (some mapping) = .ok query)
    (kept : faithfulTop (some mapping) true clause = true) :
    ∃ result, query.tree.shape? = some result ∧
      ∀ leaves, value leaves result = value leaves clause := by
  have known := QueryNode.allKnown_ofJson read
  have empty := sound_empty (some mapping)
  have follows := insertClause_top empty clause known
  have inserted := (ofJson_of_read read (some mapping)).symm.trans made
  rw [inserted] at follows
  cases woven : weaveTop (some mapping) true clause [] with
  | error error =>
      change FollowsTop _ (weaveTop (some mapping) true clause []) _ at follows
      rw [woven] at follows
      cases follows
  | ok roots =>
      change FollowsTop _ (weaveTop (some mapping) true clause []) _ at follows
      rw [woven] at follows
      obtain ⟨after, same, sound, shape⟩ := follows
      obtain ⟨result, rfl, value⟩ := value_weaveTop known woven kept
      cases same
      exact ⟨result, shape?_of_branches sound.toWhole shape, value⟩

def genders (slot : String) : Json :=
  let clause gender := Json.object [("term", .object [("roles.gender", .string gender)])]
  .object [("bool", .object [(slot, .array [clause "F", clause "M"])])]

def onlyFemale : Json → Bool
  | .object [("term", .object [("roles.gender", .string "F")])] => true
  | _ => false

/-- Below `must` the two clauses share their scope without harm. -/
theorem value_ofJson_must :
    ∃ clause query result, QueryNode.ofJson (genders "must") = .ok clause ∧
      ofJson (genders "must") (some rolesMapping) = .ok query ∧
      faithfulTop (some rolesMapping) true clause = true ∧ query.tree.shape? = some result ∧
      ∀ leaves, value leaves result = value leaves clause := by
  have faithful : (QueryNode.ofJson (genders "must")).toOption.map
      (faithfulTop (some rolesMapping) true) = some true := by decide +kernel
  have succeeds : (ofJson (genders "must") (some rolesMapping)).isOk = true := by decide +kernel
  cases read : QueryNode.ofJson (genders "must") with
  | error error => simp [read, Except.toOption] at faithful
  | ok clause =>
      cases made : ofJson (genders "must") (some rolesMapping) with
      | error error => simp [made, Except.isOk, Except.toBool] at succeeds
      | ok query =>
          have kept : faithfulTop (some rolesMapping) true clause = true := by
            simpa [read, Except.toOption] using faithful
          obtain ⟨result, shape, same⟩ := value_ofJson read made kept
          exact ⟨clause, query, result, rfl, rfl, kept, shape, same⟩

/-- Below `should` the shared scope makes a conjunction of the two. -/
theorem value_ofJson_should :
    ∃ clause query result, QueryNode.ofJson (genders "should") = .ok clause ∧
      ofJson (genders "should") (some rolesMapping) = .ok query ∧
      query.tree.shape? = some result ∧ value onlyFemale clause = true ∧
      value onlyFemale result = false := by
  have before : (QueryNode.ofJson (genders "should")).toOption.map (value onlyFemale) =
      some true := by decide +kernel
  have after : ((ofJson (genders "should") (some rolesMapping)).toOption.bind
      (·.tree.shape?)).map (value onlyFemale) = some false := by decide +kernel
  cases read : QueryNode.ofJson (genders "should") with
  | error error => simp [read, Except.toOption] at before
  | ok clause =>
      cases made : ofJson (genders "should") (some rolesMapping) with
      | error error => simp [made, Except.toOption] at after
      | ok query =>
          cases shape : query.tree.shape? with
          | none => simp [made, shape, Except.toOption] at after
          | some result =>
              refine ⟨clause, query, result, rfl, rfl, shape, ?_, ?_⟩
              · simpa [read, Except.toOption] using before
              · simpa [made, shape, Except.toOption] using after

end Query

end ScopedClauses
