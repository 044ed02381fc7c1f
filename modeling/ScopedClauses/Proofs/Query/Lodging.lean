import ScopedClauses.Proofs.Query.Exact
import ScopedClauses.Proofs.Query.Structured

/-!
Clauses in slots, node by node. Without a mapping a clause comes behind those of the slot that it
is added to; where only one has place, it comes behind those in the `must` of a `bool`. Nodes that
were there keep their numbers, and the other slots of the clause stay as they are.
-/

namespace ScopedClauses

namespace Query

open Rose Tree Weaving QueryNode

def under (name : String) (holder : Branch QueryNode) : List (Branch QueryNode) :=
  match holder.children.find? fun child => isNamed name child.shape with
  | some found => found.children
  | none => []

structure Refilled (name : String) (clauses : List (Branch QueryNode))
    (holder grown : Branch QueryNode) : Prop where
  label : grown.label = holder.label
  here : under name grown = clauses
  elsewhere : ∀ other, other ≠ name → under other grown = under other holder

structure Fresh (next : Nat) (clauses : List (Shape QueryNode))
    (copies : List (Branch QueryNode)) : Prop where
  same : shapes copies = clauses
  late : ∀ number ∈ numbers copies, next ≤ number

/-- What a slot holds once clauses are added to it: they come behind the old ones, or, where only
one clause has place, behind those in the `must` of a `bool`. The `bool` is the old clause itself
if that is one, and a new one around it otherwise. -/
inductive Lodged (next : Nat) (place : Slot) (old : List (Branch QueryNode)) :
    List (Shape QueryNode) → List (Branch QueryNode) → Prop where
  | behind {clauses : List (Shape QueryNode)} {copies : List (Branch QueryNode)}
      (room : place.multiple = true ∨ old = [] ∨ clauses = []) (fresh : Fresh next clauses copies) :
      Lodged next place old clauses (old ++ copies)
  | inside {clause : Shape QueryNode} {copy occupant grown : Branch QueryNode}
      (single : place.multiple = false) (met : old = [occupant])
      (bool : occupant.content.isBool = true) (fresh : Fresh next [clause] [copy])
      (refilled : Refilled "must" (under "must" occupant ++ [copy]) occupant grown) :
      Lodged next place old [clause] [grown]
  | around {clause : Shape QueryNode} {copy occupant : Branch QueryNode} {outer must : Nat}
      (single : place.multiple = false) (met : old = [occupant])
      (plain : occupant.content.isBool = false) (fresh : Fresh next [clause] [copy])
      (late : next ≤ outer ∧ next ≤ must) :
      Lodged next place old [clause]
        [.node ⟨⟨none, emptyBool⟩, outer⟩ [.node ⟨⟨some "must", .slot mustPlace⟩, must⟩
          [occupant, copy]]]

/-! ### Slots -/

section Slots

variable {name : String} {holder slot : Branch QueryNode} {front back : List (Branch QueryNode)}

theorem under_cons (entry : Entry QueryNode) (child : Branch QueryNode) :
    under name (.node entry (child :: back)) =
      if isNamed name child.shape then child.children else under name (.node entry back) := by
  simp only [under, children_node, List.find?_cons]
  cases isNamed name child.shape <;> rfl

theorem under_skip (entry : Entry QueryNode)
    (absent : ∀ child ∈ front, isNamed name child.shape = false) :
    under name (.node entry (front ++ back)) = under name (.node entry back) := by
  induction front with
  | nil => rfl
  | cons child rest ih =>
      rw [List.forall_mem_cons] at absent
      rw [List.cons_append, under_cons, absent.1, if_neg Bool.false_ne_true, ih absent.2]

theorem under_absent (absent : ∀ child ∈ holder.children, isNamed name child.shape = false) :
    under name holder = [] := by
  have skipped : under name (.node holder.label (holder.children ++ [])) =
      under name (.node holder.label []) := under_skip holder.label absent
  rw [List.append_nil, node_eta] at skipped
  exact skipped.trans rfl

theorem under_other (entry : Entry QueryNode) (other : isNamed name slot.shape = false) :
    under name (.node entry (front ++ slot :: back)) = under name (.node entry (front ++ back)) := by
  induction front with
  | nil => rw [List.nil_append, List.nil_append, under_cons, other, if_neg Bool.false_ne_true]
  | cons child rest ih =>
      rw [List.cons_append, List.cons_append, under_cons, under_cons, ih]

theorem FirstSlot.under_eq (first : FirstSlot holder name front slot back) :
    under name holder = slot.children := by
  rw [first.holder_eq, under_skip _ first.absent, under_cons, if_pos first.named]

theorem shapes_under (name : String) (holder : Branch QueryNode) :
    shapes (under name holder) = clausesIn name (shapes holder.children) := by
  have looked : (shapes holder.children).find? (isNamed name) =
      (holder.children.find? fun child => isNamed name child.shape).map Rose.shape := by
    rw [shapes_eq_map, List.find?_map]
    rfl
  rw [clausesIn, looked, under]
  cases holder.children.find? fun child => isNamed name child.shape with
  | none => rfl
  | some slot => exact (children_shape slot).symm

theorem isNamed_of_label {new : Branch QueryNode} (label : new.label = slot.label) :
    isNamed name new.shape = isNamed name slot.shape := by
  rw [isNamed_shape, isNamed_shape, Rose.content, Rose.content, label]

theorem isNamed_other {other : String} (named : isNamed name slot.shape = true)
    (apart : other ≠ name) : isNamed other slot.shape = false := by
  obtain ⟨place, content, rfl⟩ := isNamed_iff.mp named
  simp [isNamed, content, QueryNode.slot?, Ne.symm apart]

theorem FirstSlot.refilled (first : FirstSlot holder name front slot back) {new : Branch QueryNode}
    (label : new.label = slot.label) :
    Refilled name new.children holder (.node holder.label (front ++ new :: back)) := by
  have named : isNamed name new.shape = true := (isNamed_of_label label).trans first.named
  refine ⟨rfl, ?_, fun other apart => ?_⟩
  · rw [under_skip _ first.absent, under_cons, if_pos named]
  · rw [first.holder_eq, label_node, under_other _ (isNamed_other named apart),
      under_other _ (isNamed_other first.named apart)]

theorem FirstSlot.lifts (first : FirstSlot holder name front slot back)
    {before after : Tree QueryNode} (numbered : before.Numbered) (member : holder ∈ before.live)
    {new : Branch QueryNode} (grew : Regrown before slot new after) (label : new.label = slot.label) :
    ∃ grown, Regrown before holder grown after ∧ Refilled name new.children holder grown := by
  have parts : .node holder.label (front ++ slot :: back) ∈ before.live := first.holder_eq ▸ member
  have inside := grew.child front back numbered parts
  rw [← first.holder_eq] at inside
  exact ⟨_, inside, first.refilled label⟩

theorem refilled_new {place : Slot} (content : slot.content = .slot place)
    (absent : ∀ child ∈ holder.children, isNamed place.name child.shape = false) :
    Refilled place.name slot.children holder (.node holder.label (holder.children ++ [slot])) := by
  have named : isNamed place.name slot.shape = true :=
    isNamed_iff.mpr ⟨place, by rw [content_shape, content], rfl⟩
  refine ⟨rfl, ?_, fun other apart => ?_⟩
  · rw [under_skip _ absent, under_cons, if_pos named]
  · rw [under_other _ (isNamed_other named apart), List.append_nil, node_eta]

theorem Refilled.refl (name : String) (holder : Branch QueryNode) :
    Refilled name (under name holder) holder holder :=
  ⟨rfl, rfl, fun _ _ => rfl⟩

theorem Refilled.trans {first second : List (Branch QueryNode)} {middle grown : Branch QueryNode}
    (start : Refilled name first holder middle) (later : Refilled name second middle grown) :
    Refilled name second holder grown :=
  ⟨later.label.trans start.label, later.here, fun other apart =>
    (later.elsewhere other apart).trans (start.elsewhere other apart)⟩

end Slots

/-! ### Copies -/

section Copies

variable {next later : Nat} {clauses more : List (Shape QueryNode)}
  {copies others old result : List (Branch QueryNode)} {place : Slot}

theorem Fresh.nil (next : Nat) : Fresh next [] [] := ⟨rfl, by simp⟩

theorem Fresh.append (first : Fresh next clauses copies) (second : Fresh next more others) :
    Fresh next (clauses ++ more) (copies ++ others) := by
  refine ⟨by rw [shapes_append, first.same, second.same], fun number inside => ?_⟩
  rw [numbers_append, List.mem_append] at inside
  exact inside.elim (first.late number) (second.late number)

theorem Fresh.mono (fresh : Fresh later clauses copies) (earlier : next ≤ later) :
    Fresh next clauses copies :=
  ⟨fresh.same, fun number inside => Nat.le_trans earlier (fresh.late number inside)⟩

theorem fresh_numberAll (next : Nat) (clauses : List (Shape QueryNode)) :
    Fresh next clauses (numberAll next clauses) := by
  refine ⟨shapes_numberAll next clauses, fun number inside => ?_⟩
  rw [numbers_numberAll] at inside
  exact (List.mem_range'_1.mp inside).1

theorem Lodged.mono (lodged : Lodged later place old clauses result) (earlier : next ≤ later) :
    Lodged next place old clauses result := by
  cases lodged with
  | behind room fresh => exact .behind room (fresh.mono earlier)
  | inside single met bool fresh refilled =>
      exact .inside single met bool (fresh.mono earlier) refilled
  | around single met plain fresh late =>
      exact .around single met plain (fresh.mono earlier)
        ⟨Nat.le_trans earlier late.1, Nat.le_trans earlier late.2⟩

theorem late_wrapped {before after : Tree QueryNode} {entry outer must : Entry QueryNode}
    {occupant : Branch QueryNode} (grew : Regrown before (.node entry [occupant])
      (.node entry [.node outer [.node must [occupant]]]) after) :
    before.next ≤ outer.id ∧ before.next ≤ must.id := by
  have distinct := grew.distinct
  have fresh := grew.fresh
  simp only [numbers_cons, numbers_nil, List.append_nil, List.nodup_cons, List.mem_cons,
    not_or] at distinct fresh
  obtain ⟨⟨apart, other, _⟩, ⟨_, outside⟩, inside, _⟩ := distinct
  have made : ∀ number, number = outer.id ∨ number = must.id → number ≠ entry.id →
      number ∉ numbers [occupant] → before.next ≤ number := by
    intro number either differs absent
    rcases fresh number (by tauto) with (same | below) | later
    · exact absurd same differs
    · exact absurd below absent
    · exact later.1
  exact ⟨made _ (Or.inl rfl) (Ne.symm apart) outside, made _ (Or.inr rfl) (Ne.symm other) inside⟩

theorem Lodged.none_iff : Lodged next place old [] result ↔ result = old := by
  refine ⟨fun lodged => ?_, ?_⟩
  · cases lodged with
    | behind room fresh => rw [shapes_eq_nil fresh.same, List.append_nil]
  · rintro rfl
    have stays : Lodged next place result [] (result ++ []) :=
      .behind (Or.inr (Or.inr rfl)) (Fresh.nil next)
    rwa [List.append_nil] at stays

theorem Lodged.fresh (lodged : Lodged next place [] clauses result) : Fresh next clauses result := by
  cases lodged with
  | behind room fresh => exact fresh
  | inside single met => cases met
  | around single met => cases met

end Copies

/-! ### Placing -/

def Lodges (query : Query) (holder : Branch QueryNode) (place : Slot) (old : List (Branch QueryNode))
    (clauses : List (Shape QueryNode)) (outcome : Result Query) : Prop :=
  ∃ result grown after, outcome = .ok (query.withTree after) ∧
    Regrown query.tree holder grown after ∧ Refilled place.name result holder grown ∧
    Lodged query.tree.next place old clauses result

structure Berth (before : Tree QueryNode) (holder : Branch QueryNode) (place : Slot)
    (made : Tree QueryNode) (slot : Branch QueryNode) : Prop where
  later : before.next ≤ made.next
  live : slot ∈ made.live
  content : slot.content = .slot place
  below : slot.children = under place.name holder
  lifts : ∀ grown after, Regrown made slot grown after → grown.label = slot.label →
    ∃ whole, Regrown before holder whole after ∧ Refilled place.name grown.children holder whole

theorem insertClause_congr {query : Query} (free : query.mapping = none) {first second : Position}
    (same : query.effective first = query.effective second) (shape : Shape QueryNode) :
    query.insertClause first shape = query.insertClause second shape := by
  obtain ⟨entry, below⟩ := shape
  simp only [insertClause, settle_free free, Result.ok_bind, place_congr same]

theorem Occupied.split {query : Query} {holder slot occupant : Branch QueryNode} {place : Slot}
    (occupied : Occupied query holder place slot occupant) :
    slot = .node slot.label [occupant] := by
  rw [← occupied.below, node_eta]

theorem wrapInBool_occupied {query : Query} (whole : query.Whole)
    {holder slot occupant : Branch QueryNode} {place : Slot}
    (occupied : Occupied query holder place slot occupant) :
    ∃ outer must wrapped, query.wrapInBool occupant.id = .ok (outer, must, query.withTree wrapped) ∧
      Regrown query.tree slot (.node slot.label [.node ⟨⟨none, emptyBool⟩, outer⟩
        [.node ⟨⟨some "must", .slot mustPlace⟩, must⟩ [occupant]]]) wrapped := by
  have live : .node slot.label [occupant] ∈ query.tree.live := occupied.split ▸ occupied.live
  obtain ⟨outer, must, wrapped, made, outerKeyed, outerBelow, mustKeyed, mustBelow, grew⟩ :=
    wrapInBool_slot whole live occupied.content occupied.bare
  obtain ⟨⟨outerLabel, outerId⟩, outerChildren⟩ := outer
  obtain ⟨⟨mustLabel, mustId⟩, mustChildren⟩ := must
  cases outerKeyed
  cases outerBelow
  cases mustKeyed
  cases mustBelow
  rw [← occupied.split] at grew
  exact ⟨outerId, mustId, wrapped, made, grew⟩

section Placing

variable {query : Query} (whole : query.Whole) {holder : Branch QueryNode}
  (member : holder ∈ query.tree.live) {clause : CompoundClause}
  (content : holder.content = .compound clause) {place : Slot}
  (declares : clause.kind.slot? place.name = some place)
  (formed : FormedSlots holder.content (shapes holder.children))

include whole member content declares formed

theorem ensureSlot_berth : ∃ slot made,
    query.ensureSlot holder.id place.name = .ok (slot.id, query.withTree made) ∧
      (query.withTree made).Whole ∧ Berth query.tree holder place made slot := by
  rcases findSlot?_cases whole.numbered member place.name with
    ⟨missing, absent⟩ | ⟨front, slot, back, first, found⟩
  · obtain ⟨made, ensured, grew, next⟩ :=
      ensureSlot_missing whole.numbered member content declares missing
    have live := grew.live_new whole.numbered member
    refine ⟨bud (some place.name) (.slot place) query.tree.next, made, ensured,
      whole.regrown grew member, ⟨by omega, ?_, rfl, (under_absent absent).symm, ?_⟩⟩
    · exact mem_preorderAll_trans _ live (mem_preorderAll_of_mem (by simp [extended]))
    · intro grown after regrown label
      have inside := regrown.child holder.children [] (grew.numbered whole.numbered member) live
      have slotted : grown.content = .slot place := congrArg (·.content) label
      exact ⟨_, grew.trans inside whole.numbered member, refilled_new slotted absent⟩
  · obtain ⟨slotContent, _⟩ := first.formed content declares formed
    refine ⟨slot, query.tree, by rw [ensureSlot, found]; rfl, whole, Nat.le_refl _,
      first.live member, slotContent, first.under_eq.symm, fun grown after regrown label => ?_⟩
    exact first.lifts whole.numbered member regrown label

section Clauses

variable (free : query.mapping = none) {shape : Shape QueryNode} (sheer : Sheer [shape])
  (bare : shape.label.content.slot? = none)

include free sheer bare

/-- Where a slot has room, a clause comes behind the others. -/
theorem insertClause_behind
    (effective : query.effective (.slot holder.id place.name) = .slot holder.id place.name)
    (room : place.multiple = false → under place.name holder = []) :
    ∃ copy grown after, (·.2) <$> query.insertClause (.slot holder.id place.name) shape =
        .ok (query.withTree after) ∧ Regrown query.tree holder grown after ∧
      Refilled place.name (under place.name holder ++ [copy]) holder grown ∧
      Fresh query.tree.next [shape] [copy] := by
  obtain ⟨slot, made, ensured, wholeMade, berth⟩ :=
    ensureSlot_berth whole member content declares formed
  have space : place.multiple = false → slot.children = [] := fun single => by
    rw [berth.below, room single]
  have vacant : (query.withTree made).occupant? slot.id = none := by
    rw [occupant?_live _ wholeMade.numbered berth.live berth.content]
    cases single : place.multiple with
    | true => rfl
    | false => rw [space single]; rfl
  have taken : NodeRules.checkChild slot.content shape.label.content slot.children.length =
      .ok () := by
    rw [berth.content]
    exact slot_takes place bare fun single => by rw [space single]; rfl
  obtain ⟨middle, inserted, grew, next⟩ :=
    insert_taken wholeMade.numbered berth.live shape.label.key taken
  have placed : query.place (.slot holder.id place.name) shape.label.content shape.label.key =
      .ok (made.next, query.withTree middle) := by
    rw [place_of_effective effective, placeIn, ensured, Result.ok_bind]
    simp only [vacant, insertNode, inserted]
    rfl
  obtain ⟨after, done, appended⟩ :=
    insertClause_filled free wholeMade berth.live sheer bare placed ⟨grew, next⟩
  obtain ⟨grown, regrown, refilled⟩ := berth.lifts _ _ appended.grew rfl
  refine ⟨_, grown, after, done, regrown, ?_, (fresh_numberAll made.next [shape]).mono berth.later⟩
  rw [← berth.below]
  exact refilled

omit content declares formed in
/-- Where a clause that is no `bool` has the only place, it is joined with the new one. -/
theorem insertClause_around {slot occupant : Branch QueryNode}
    (occupied : Occupied query holder place slot occupant)
    (plain : occupant.content.isBool = false) : query.Lodges holder place [occupant] [shape]
      ((·.2) <$> query.insertClause (.slot holder.id place.name) shape) := by
  obtain ⟨front, back, first⟩ := occupied.first
  obtain ⟨outer, must, wrapped, made, grew⟩ := wrapInBool_occupied whole occupied
  have wholeWrapped := whole.regrown grew occupied.live
  have liveWrapped := grew.live_new whole.numbered occupied.live
  have liveOuter := mem_preorderAll_trans _ liveWrapped
    (mem_preorderAll_of_mem (List.mem_singleton_self _))
  have liveMust := mem_preorderAll_trans _ liveOuter
    (mem_preorderAll_of_mem (List.mem_singleton_self _))
  have taken : NodeRules.checkChild (QueryNode.slot mustPlace) shape.label.content 1 = .ok () :=
    slot_takes mustPlace bare fun single => by cases single
  obtain ⟨middle, inserted, extended, next⟩ :=
    insert_taken wholeWrapped.numbered liveMust shape.label.key taken
  have effective := occupied.effective whole.numbered
  rw [plain, if_neg Bool.false_ne_true] at effective
  have joined : (query.withTree wrapped).insertNode shape.label.content shape.label.key must =
      .ok (wrapped.next, query.withTree middle) := Result.bind_ok.mpr ⟨_, inserted, rfl⟩
  have placed : query.place (.slot holder.id place.name) shape.label.content shape.label.key =
      .ok (wrapped.next, query.withTree middle) := by
    rw [place_of_effective effective, placeIn, ensureSlot, occupied.found, Result.pure_bind]
    simp only [occupied.met, joinWith, made, Result.ok_bind]
    exact joined
  obtain ⟨after, done, appended⟩ :=
    insertClause_filled free wholeWrapped liveMust sheer bare placed ⟨extended, next⟩
  -- what was added to the `must` is added to the slot around it
  have inOuter := appended.grew.child [] [] wholeWrapped.numbered liveOuter
  have inSlot := inOuter.child [] [] wholeWrapped.numbered liveWrapped
  have total := grew.trans inSlot whole.numbered occupied.live
  obtain ⟨grown, regrown, refilled⟩ := first.lifts whole.numbered member total rfl
  rw [occupied.split] at grew
  refine ⟨_, grown, after, done, regrown, refilled, ?_⟩
  exact .around occupied.single rfl plain ((fresh_numberAll _ _).mono grew.later) (late_wrapped grew)

omit content declares formed in
/-- Where a `bool` has the only place, a clause comes into its `must`. -/
theorem insertClause_inside {slot occupant : Branch QueryNode}
    (occupied : Occupied query holder place slot occupant)
    (bool : occupant.content.isBool = true) : query.Lodges holder place [occupant] [shape]
      ((·.2) <$> query.insertClause (.slot holder.id place.name) shape) := by
  obtain ⟨front, back, first⟩ := occupied.first
  obtain ⟨⟨inner, innerContent, innerDeclares⟩, innerFormed, _⟩ := occupied.inner bool
  have live := occupied.live_occupant
  have effective := occupied.effective whole.numbered
  rw [bool, if_pos rfl] at effective
  rcases room_or_occupied whole live innerContent innerDeclares innerFormed with
    ⟨stays, _⟩ | ⟨_, _, other⟩
  · have many : mustPlace.multiple = false → under mustPlace.name occupant = [] :=
      fun single => by cases single
    obtain ⟨copy, grownBool, after, done, regrown, refilled, fresh⟩ :=
      insertClause_behind whole live innerContent innerDeclares innerFormed free sheer bare stays
        many
    have same : query.effective (.slot holder.id place.name) =
      query.effective (.slot occupant.id mustPlace.name) := effective.trans stays.symm
    rw [← insertClause_congr free same] at done
    have inSlot := regrown.child [] [] whole.numbered (occupied.split ▸ occupied.live)
    rw [List.nil_append, ← occupied.split] at inSlot
    obtain ⟨grown, lifted, outer⟩ := first.lifts whole.numbered member inSlot rfl
    exact ⟨_, grown, after, done, lifted, outer, .inside occupied.single rfl bool fresh refilled⟩
  · cases other.single

theorem insertClause_lodges : query.Lodges holder place (under place.name holder) [shape]
    ((·.2) <$> query.insertClause (.slot holder.id place.name) shape) := by
  rcases room_or_occupied whole member content declares formed with
    ⟨effective, room⟩ | ⟨slot, occupant, occupied⟩
  · have space : place.multiple = false → under place.name holder = [] := by
      intro single
      exact shapes_eq_nil ((shapes_under _ _).trans (room single))
    obtain ⟨copy, grown, after, done, regrown, refilled, fresh⟩ :=
      insertClause_behind whole member content declares formed free sheer bare effective space
    refine ⟨_, grown, after, done, regrown, refilled, .behind ?_ fresh⟩
    cases many : place.multiple with
    | true => exact Or.inl rfl
    | false => exact Or.inr (Or.inl (space many))
  · obtain ⟨front, back, first⟩ := occupied.first
    rw [first.under_eq, occupied.below]
    cases bool : occupant.content.isBool with
    | true => exact insertClause_inside whole member free sheer bare occupied bool
    | false => exact insertClause_around whole member free sheer bare occupied bool

end Clauses

end Placing

/-! ### Slots of clauses -/

section Filling

variable {query : Query} (structured : query.Structured Known) (free : query.mapping = none)
  {holder : Branch QueryNode} (member : holder ∈ query.tree.live) {clause : CompoundClause}
  (content : holder.content = .compound clause) {place : Slot}
  (declares : clause.kind.slot? place.name = some place) {clauses : List (Shape QueryNode)}
  (sheer : Sheer clauses) (bare : ∀ shape ∈ clauses, shape.label.content.slot? = none)

include structured free member content declares sheer bare

/-- Clauses for a slot with room for all of them come behind the others, one by one. -/
theorem insertClauses_behind (many : place.multiple = true) :
    ∃ copies grown after, query.insertClauses (.slot holder.id place.name) clauses =
        .ok (query.withTree after) ∧ Regrown query.tree holder grown after ∧
      Refilled place.name (under place.name holder ++ copies) holder grown ∧
      Fresh query.tree.next clauses copies := by
  induction clauses generalizing query holder with
  | nil =>
      refine ⟨[], holder, query.tree, rfl, Regrown.refl structured.numbered member, ?_, Fresh.nil _⟩
      rw [List.append_nil]
      exact Refilled.refl _ _
  | cons shape rest ih =>
      rw [sheer_cons_iff] at sheer
      rw [List.forall_mem_cons] at bare
      obtain ⟨result, middle, made, first, grew, refilled, lodged⟩ :=
        insertClause_lodges structured.toWhole member content declares
          (formed_of_live structured.sound member) free sheer.1 bare.1
      cases lodged with
      | inside single => cases many.symm.trans single
      | around single => cases many.symm.trans single
      | behind _ fresh =>
          obtain ⟨⟨id, _⟩, inserted, rfl⟩ := Result.map_ok.mp first
          have kept := structured_insertClause structured shape
            (enters_of_formed sheer.1.1) bare.1 inserted
          have number : middle.id = holder.id := congrArg (·.id) refilled.label
          have same : middle.content = holder.content := congrArg (·.content) refilled.label
          obtain ⟨others, grown, after, second, again, filled, late⟩ :=
            ih kept free (grew.live_new structured.numbered member) (same.trans content) sheer.2 bare.2
          rw [refilled.here, List.append_assoc] at filled
          refine ⟨_, grown, after, ?_, grew.trans again structured.numbered member,
            refilled.trans filled, fresh.append (late.mono grew.later)⟩
          rw [insertClauses_cons, first, ← number]
          exact second

/-- Where only one clause has place, no more than one is added. -/
theorem insertClauses_lodges (few : place.multiple = false → clauses.length ≤ 1) :
    query.Lodges holder place (under place.name holder) clauses
      (query.insertClauses (.slot holder.id place.name) clauses) := by
  cases many : place.multiple with
  | true =>
      obtain ⟨copies, grown, after, inserted, grew, refilled, fresh⟩ :=
        insertClauses_behind structured free member content declares sheer bare many
      exact ⟨_, grown, after, inserted, grew, refilled, .behind (Or.inl many) fresh⟩
  | false =>
      match clauses, few many with
      | [], _ =>
          exact ⟨_, holder, query.tree, rfl, Regrown.refl structured.numbered member,
            Refilled.refl _ _, Lodged.none_iff.mpr rfl⟩
      | [shape], _ =>
          obtain ⟨result, grown, after, inserted, rest⟩ :=
            insertClause_lodges structured.toWhole member content declares
              (formed_of_live structured.sound member) free sheer (bare shape (by simp))
          refine ⟨result, grown, after, ?_, rest⟩
          rw [insertClauses_cons, inserted]
          rfl

omit sheer bare in
/-- A slot is made if need be, and its clauses are added. -/
theorem insertSlot_lodges {key : Option String} (sheer : Sheer [.node ⟨key, .slot place⟩ clauses]) :
    query.Lodges holder place (under place.name holder) clauses
      (query.insertSlots holder.id [.node ⟨key, .slot place⟩ clauses]) := by
  obtain ⟨formed, legible⟩ := sheer
  rw [formed_cons] at formed
  obtain ⟨slot, made, ensured, whole, berth⟩ :=
    ensureSlot_berth structured.toWhole member content declares
      (formed_of_live structured.sound member)
  have kept := (structured.ensureSlot ensured).1
  obtain ⟨middle, grew, opened⟩ :=
    berth.lifts slot made (Regrown.refl whole.numbered berth.live) rfl
  rw [berth.below] at opened
  have number : middle.id = holder.id := congrArg (·.id) opened.label
  have same : middle.content = holder.content := congrArg (·.content) opened.label
  have bare : ∀ shape ∈ clauses, shape.label.content.slot? = none := fun shape inside =>
    formed.1.1 _ (List.mem_map_of_mem inside)
  have few : place.multiple = false → clauses.length ≤ 1 := fun single => by
    simpa using formed.1.2 single
  have freeMade : (query.withTree made).mapping = none := free
  obtain ⟨result, grown, after, inserted, again, filled, lodged⟩ :=
    insertClauses_lodges kept freeMade (grew.live_new structured.numbered member)
      (same.trans content) declares ⟨formed.2.1, ((allLegible_cons _ _ _).mp legible).2.1⟩ bare few
  rw [opened.here] at lodged
  refine ⟨result, grown, after, ?_, grew.trans again structured.numbered member,
    opened.trans filled, lodged.mono berth.later⟩
  rw [insertSlots_single, ensured, Result.ok_bind, ← number]
  exact inserted

end Filling

end Query

end ScopedClauses
