import ScopedClauses.Proofs.Query.Reading
import ScopedClauses.Proofs.Query.TopLevel

/-!
Every leaf on a field stands in the scope of its field, whatever was inserted and wherever. A
route ends in the scope of the field it was made for, and weaving moves no other clause into
another scope.
-/

namespace ScopedClauses

namespace Weaving

open Rose QueryNode

structure Fits (mapping : Mapping) (node : QueryNode) (scope : Option String) : Prop where
  inScope : ∀ field, node.field? = some field → mapping.nestedAt field = .ok scope
  plain : node.isBool = true → node.nestedPath? = none

section Shapes

variable {mapping : Mapping} {scope : Option String}

theorem fits_slot (place : Slot) : Fits mapping (.slot place) scope :=
  ⟨fun _ absent => (by cases absent), fun _ => rfl⟩

theorem fits_emptyBool : Fits mapping emptyBool scope :=
  ⟨fun _ absent => (by cases absent), fun _ => rfl⟩

theorem fits_enter (path : String) : Fits mapping (QueryNode.enter path) scope := by
  refine ⟨fun _ absent => (by cases absent), fun bool => ?_⟩
  simp [QueryNode.enter, QueryNode.isBool, QueryKind.nested] at bool

theorem within_bool {clause : Shape QueryNode} (bool : isBool clause = true)
    (fits : Fits mapping clause.label.content (within scope clause.label.content)) :
    within scope clause.label.content = scope := by
  simp [within, Scoped.boundary?, fits.plain bool]

theorem within_opened {clause : Shape QueryNode} {path : String} (opened : opens path clause = true) :
    within scope clause.label.content = some path := by
  have enters : clause.label.content.nestedPath? = some path := by simpa [opens] using opened
  simp [within, Scoped.boundary?, enters, Boundary.inside]

theorem everywhere_slotShape (place : Slot) (clauses : List (Shape QueryNode)) :
    Everywhere (Fits mapping) scope [slotShape place clauses] ↔
      Everywhere (Fits mapping) scope clauses := by
  rw [slotShape, everywhere_cons]
  exact ⟨fun holds => holds.2.1, fun holds => ⟨fits_slot place, holds, trivial⟩⟩

theorem everywhere_changeSlot {place : Slot}
    {change : List (Shape QueryNode) → List (Shape QueryNode)}
    (keeps : ∀ clauses, Everywhere (Fits mapping) scope clauses →
      Everywhere (Fits mapping) scope (change clauses))
    {slots : List (Shape QueryNode)} (holds : Everywhere (Fits mapping) scope slots) :
    Everywhere (Fits mapping) scope (changeSlot place change slots) := by
  induction slots with
  | nil => exact (everywhere_slotShape place _).mpr (keeps [] trivial)
  | cons slot rest ih =>
      rw [everywhere_cons_iff] at holds
      by_cases named : isNamed place.name slot = true
      · obtain ⟨own, content, _⟩ := isNamed_iff.mp named
        obtain ⟨label, clauses⟩ := slot
        have same : within scope label.content = scope := by
          rw [show label.content = .slot own from content]
          rfl
        rw [everywhere_cons, same] at holds
        simp only [changeSlot, named, if_true, label_node, children_node]
        rw [everywhere_cons, same]
        exact ⟨holds.1.1, keeps clauses holds.1.2.1, holds.2⟩
      · simp only [changeSlot, named]
        exact (everywhere_cons_iff _ _ _).mpr ⟨holds.1, ih holds.2⟩

theorem everywhere_inSlot {place : Slot}
    {change : List (Shape QueryNode) → List (Shape QueryNode)} {clause : Shape QueryNode}
    (keeps : ∀ clauses, Everywhere (Fits mapping) (within scope clause.label.content) clauses →
      Everywhere (Fits mapping) (within scope clause.label.content) (change clauses))
    (holds : Everywhere (Fits mapping) scope [clause]) :
    Everywhere (Fits mapping) scope [inSlot place change clause] := by
  obtain ⟨label, children⟩ := clause
  rw [everywhere_cons] at holds
  rw [inSlot, everywhere_cons]
  exact ⟨holds.1, everywhere_changeSlot keeps holds.2.1, trivial⟩

theorem everywhere_changeFirst {wanted : Shape QueryNode → Bool}
    {change : Shape QueryNode → Shape QueryNode}
    (keeps : ∀ clause, wanted clause = true → Everywhere (Fits mapping) scope [clause] →
      Everywhere (Fits mapping) scope [change clause])
    {clauses : List (Shape QueryNode)} (holds : Everywhere (Fits mapping) scope clauses) :
    Everywhere (Fits mapping) scope (changeFirst wanted change clauses) := by
  induction clauses with
  | nil => trivial
  | cons clause rest ih =>
      rw [everywhere_cons_iff] at holds
      by_cases here : wanted clause = true
      · simp only [changeFirst, here, if_true]
        exact (everywhere_cons_iff _ _ _).mpr ⟨keeps clause here holds.1, holds.2⟩
      · simp only [changeFirst, here]
        exact (everywhere_cons_iff _ _ _).mpr ⟨holds.1, ih holds.2⟩

theorem everywhere_conjunction (clauses : List (Shape QueryNode)) :
    Everywhere (Fits mapping) scope [conjunction clauses] ↔
      Everywhere (Fits mapping) scope clauses := by
  have same : within scope emptyBool = scope := rfl
  rw [conjunction, everywhere_cons, same, everywhere_slotShape]
  exact ⟨fun holds => holds.2.1, fun holds => ⟨fits_emptyBool, holds, trivial⟩⟩

theorem everywhere_chain (route : List String) (incoming : Shape QueryNode) :
    Everywhere (Fits mapping) scope [chain route incoming] ↔
      Everywhere (Fits mapping) (arrive scope route) [incoming] := by
  induction route generalizing scope with
  | nil => rfl
  | cons path rest ih =>
      have inside : within scope (QueryNode.enter path) = some path := rfl
      rw [chain, everywhere_cons, inside, everywhere_slotShape, ih]
      exact ⟨fun holds => holds.2.1, fun holds => ⟨fits_enter path, holds, trivial⟩⟩

theorem everywhere_concat {clauses : List (Shape QueryNode)} {incoming : Shape QueryNode}
    (holds : Everywhere (Fits mapping) scope clauses)
    (fits : Everywhere (Fits mapping) scope [incoming]) :
    Everywhere (Fits mapping) scope (clauses ++ [incoming]) :=
  (everywhere_append _ _ _).mpr ⟨holds, fits⟩

theorem everywhere_inMust {clause : Shape QueryNode}
    {change : List (Shape QueryNode) → List (Shape QueryNode)} (bool : isBool clause = true)
    (keeps : ∀ clauses, Everywhere (Fits mapping) scope clauses →
      Everywhere (Fits mapping) scope (change clauses))
    (holds : Everywhere (Fits mapping) scope [clause]) :
    Everywhere (Fits mapping) scope [inSlot mustPlace change clause] := by
  have same : within scope clause.label.content = scope := by
    obtain ⟨label, children⟩ := clause
    exact within_bool bool ((everywhere_cons _ _ _ _).mp holds).1
  refine everywhere_inSlot ?_ holds
  rw [same]
  exact keeps

theorem everywhere_add {many : Bool} {incoming : Shape QueryNode}
    {clauses : List (Shape QueryNode)} (holds : Everywhere (Fits mapping) scope clauses)
    (fits : Everywhere (Fits mapping) scope [incoming]) :
    Everywhere (Fits mapping) scope (add many incoming clauses) := by
  cases many with
  | true => exact everywhere_concat holds fits
  | false =>
      cases clauses with
      | nil => exact fits
      | cons occupant rest =>
          rw [everywhere_cons_iff] at holds
          rw [add_single]
          split
          · rename_i bool
            refine (everywhere_cons_iff _ _ _).mpr ⟨everywhere_inMust bool ?_ holds.1, holds.2⟩
            exact fun _ inMust => everywhere_concat inMust fits
          · refine (everywhere_cons_iff _ _ _).mpr ⟨(everywhere_conjunction _).mpr ?_, holds.2⟩
            exact (everywhere_cons_iff _ _ _).mpr ⟨holds.1, fits⟩

theorem everywhere_weave (route : List String) {many : Bool} {incoming : Shape QueryNode}
    {clauses : List (Shape QueryNode)} (holds : Everywhere (Fits mapping) scope clauses)
    (fits : Everywhere (Fits mapping) (arrive scope route) [incoming]) :
    Everywhere (Fits mapping) scope (weave route many incoming clauses) := by
  induction route generalizing scope many clauses with
  | nil => exact everywhere_add holds fits
  | cons path rest ih =>
      have inward : ∀ clauses, Everywhere (Fits mapping) scope clauses →
          Everywhere (Fits mapping) scope
            (changeFirst (opens path) (inSlot queryPlace (weave rest false incoming)) clauses) := by
        intro clauses
        refine everywhere_changeFirst fun clause opened => everywhere_inSlot fun inside holds => ?_
        rw [within_opened opened] at holds ⊢
        exact ih holds fits
      rw [weave]
      split
      · cases many with
        | true => exact inward clauses holds
        | false =>
            cases clauses with
            | nil => exact inward [] holds
            | cons occupant others =>
                rw [changeStanding_single]
                split
                · rename_i bool
                  rw [everywhere_cons_iff] at holds
                  exact (everywhere_cons_iff _ _ _).mpr
                    ⟨everywhere_inMust bool inward holds.1, holds.2⟩
                · exact inward _ holds
      · exact everywhere_add holds ((everywhere_chain (path :: rest) incoming).mpr fits)

/-! ### Routes -/

theorem arrive_eq_reach (scope : Option String) (route : List String) :
    arrive scope route = reach scope (route.map .enter) := by
  induction route generalizing scope with
  | nil => rfl
  | cons path rest ih => exact ih (some path)

theorem routeTo_arrives {autocorrect : Bool} {field : String} {route : List String}
    (routed : routeTo mapping autocorrect scope field = .ok route) :
    mapping.nestedAt field = .ok (arrive scope route) := by
  simp only [routeTo, Result.bind_ok] at routed
  obtain ⟨required, resolved, routed⟩ := routed
  have ends := Crossing.plan_reaches scope required
  rw [Mapping.nestedAt, resolved, arrive_eq_reach]
  refine congrArg Except.ok ?_
  cases planned : Crossing.plan scope required with
  | direct =>
      rw [planned] at routed ends
      cases Result.pure_ok.mp routed
      exact ends.symm
  | enter scopes =>
      rw [planned] at routed ends
      simp only at routed
      split at routed
      · cases Result.pure_ok.mp routed
        exact ends.symm
      · cases routed
  | exit target scopes =>
      rw [planned] at routed
      cases routed

theorem fits_of_route {autocorrect : Bool} {node : QueryNode} {route : List String}
    (known : Known node)
    (routed : routeFor (some mapping) autocorrect scope node = .ok route) :
    Fits mapping node (within (arrive scope route) node) := by
  cases node with
  | slot place => exact fits_slot place
  | compound clause =>
      refine ⟨fun _ absent => (by cases absent), fun bool => ?_⟩
      have kind : clause.kind = QueryKind.boolean :=
        QueryKind.eq_boolean known (by simpa [QueryNode.isBool] using bool)
      simp [nestedPath?, CompoundClause.path?, kind, QueryKind.boolean]
  | leaf clause =>
      refine ⟨fun field named => ?_, fun _ => rfl⟩
      have named : clause.field = some field := named
      simp only [routeFor, named, Result.bind_ok] at routed
      obtain ⟨_, _, routed⟩ := routed
      exact routeTo_arrives routed

/-! ### Corrected clauses -/

variable {autocorrect : Bool}

mutual

theorem everywhere_correct {scope : Option String} {done : Shape QueryNode} :
    ∀ shape, AllKnown [shape] →
      Fits mapping shape.label.content (within scope shape.label.content) →
      correct (some mapping) autocorrect scope shape = .ok done →
      Everywhere (Fits mapping) scope [done]
  | .node entry children, known, fits, corrected => by
      rw [allKnown_cons] at known
      simp only [correct, Result.bind_ok, Result.pure_ok] at corrected
      obtain ⟨slots, corrected, rfl⟩ := corrected
      exact (everywhere_cons _ _ _ _).mpr
        ⟨fits, everywhere_correctSlots children known.2.1 (everywhere_nil _) corrected, trivial⟩
  termination_by structural shape => shape

theorem everywhere_correctSlots {scope : Option String} {holder : QueryNode}
    {before done : List (Shape QueryNode)} :
    ∀ slots, AllKnown slots → Everywhere (Fits mapping) scope before →
      correctSlots (some mapping) autocorrect scope holder slots before = .ok done →
      Everywhere (Fits mapping) scope done
  | [], _, holds, corrected => by
      cases Result.pure_ok.mp corrected
      exact holds
  | .node entry clauses :: rest, known, holds, corrected => by
      rw [allKnown_cons] at known
      rw [correctSlots] at corrected
      split at corrected
      · simp only [Result.bind_ok] at corrected
        obtain ⟨place, _, between, first, second⟩ := corrected
        have made : Everywhere (Fits mapping) scope (changeSlot place (fun old => old) before) :=
          everywhere_changeSlot (fun _ kept => kept) holds
        exact everywhere_correctSlots rest known.2.2
          (everywhere_correctClauses clauses known.2.1 made first) second
      · exact everywhere_correctSlots rest known.2.2 holds corrected
  termination_by structural slots => slots

theorem everywhere_correctClauses {scope : Option String} {place : Slot}
    {before done : List (Shape QueryNode)} :
    ∀ clauses, AllKnown clauses → Everywhere (Fits mapping) scope before →
      correctClauses (some mapping) autocorrect scope place clauses before = .ok done →
      Everywhere (Fits mapping) scope done
  | [], _, holds, corrected => by
      cases Result.pure_ok.mp corrected
      exact holds
  | shape :: rest, known, holds, corrected => by
      rw [allKnown_cons_iff] at known
      simp only [correctClauses, Result.bind_ok] at corrected
      obtain ⟨route, routed, _, _, incoming, first, second⟩ := corrected
      have fits := everywhere_correct shape known.1
        (fits_of_route (known.1 shape (mem_preorderAll_of_mem (by simp))) routed) first
      exact everywhere_correctClauses rest known.2
        (everywhere_changeSlot (fun _ inside => everywhere_weave route inside fits) holds) second
  termination_by structural clauses => clauses

end

theorem everywhere_weaveClause {place : Slot} {shape : Shape QueryNode}
    {before done : List (Shape QueryNode)} (known : AllKnown [shape])
    (holds : Everywhere (Fits mapping) scope before)
    (woven : weaveClause (some mapping) autocorrect scope place shape before = .ok done) :
    Everywhere (Fits mapping) scope done := by
  simp only [weaveClause, Result.bind_ok, Result.pure_ok] at woven
  obtain ⟨route, routed, _, _, incoming, corrected, rfl⟩ := woven
  have fits := everywhere_correct shape known
    (fits_of_route (known shape (mem_preorderAll_of_mem (by simp))) routed) corrected
  exact everywhere_changeSlot (fun _ inside => everywhere_weave route inside fits) holds

theorem everywhere_weaveTop {shape : Shape QueryNode} {before done : List (Shape QueryNode)}
    (known : AllKnown [shape]) (holds : Everywhere (Fits mapping) none before)
    (woven : weaveTop (some mapping) autocorrect shape before = .ok done) :
    Everywhere (Fits mapping) none done := by
  simp only [weaveTop, Result.bind_ok, Result.pure_ok] at woven
  obtain ⟨route, routed, _, _, incoming, corrected, rfl⟩ := woven
  have fits := everywhere_correct shape known
    (fits_of_route (known shape (mem_preorderAll_of_mem (by simp))) routed) corrected
  exact everywhere_weave route holds fits

theorem everywhere_weaveTopAll (clauses : List (Shape QueryNode))
    {before done : List (Shape QueryNode)} (known : AllKnown clauses)
    (holds : Everywhere (Fits mapping) none before)
    (woven : weaveTopAll (some mapping) autocorrect clauses before = .ok done) :
    Everywhere (Fits mapping) none done := by
  induction clauses generalizing before with
  | nil =>
      cases Result.pure_ok.mp woven
      exact holds
  | cons shape rest ih =>
      rw [allKnown_cons_iff] at known
      simp only [weaveTopAll, Result.bind_ok] at woven
      obtain ⟨between, first, second⟩ := woven
      exact ih known.2 (everywhere_weaveTop known.1 holds first) second

end Shapes

end Weaving

namespace Query

open Rose Tree Weaving

/-! ### Insertions -/

structure InScope (mapping : Mapping) (query : Query) : Prop extends query.Sound where
  bound : query.mapping = some mapping
  fits : Everywhere (Fits mapping) none (shapes query.tree.branches)

def Stands (query : Query) : Position → Prop
  | .top => True
  | .slot compound name => ∃ holder ∈ query.tree.live, holder.id = compound ∧
      ∃ clause place, holder.content = .compound clause ∧ clause.kind.slot? name = some place

section Insertions

variable {mapping : Mapping} {query final : Query}

theorem inScope_of_follows (inScope : query.InScope mapping) {holder : Branch QueryNode}
    {around : Option String} (site : (holder, around) ∈ sites none query.tree.branches)
    {woven : Result (List (Shape QueryNode))} (follows : Follows query holder woven (.ok final))
    (formed : ∀ done, woven = .ok done → FormedSlots holder.content done)
    (fits : ∀ done, woven = .ok done →
      Everywhere (Fits mapping) (within around holder.content) (shapes holder.children) →
      Everywhere (Fits mapping) (within around holder.content) done) :
    final.InScope mapping := by
  have member := mem_of_site site
  obtain ⟨grown, after, rfl, grew, label, wove⟩ := follows.ok
  have content : grown.content = holder.content := congrArg (·.content) label
  refine { inScope.toSound.regrown grew member label (content ▸ formed _ wove) with
    bound := inScope.bound
    fits := grew.everywhere inScope.numbered member inScope.fits fun other there holds => ?_ }
  have scope : within other holder.content = within around holder.content := by
    rw [← currentScope_of_site inScope.numbered there,
      currentScope_of_site inScope.numbered site]
  rw [← node_eta holder, shape_node, everywhere_cons] at holds
  rw [← node_eta grown, shape_node, everywhere_cons, label]
  have inside := fits _ wove (scope ▸ holds.2.1)
  exact ⟨holds.1, scope.symm ▸ inside, trivial⟩

theorem inScope_of_followsTop (inScope : query.InScope mapping)
    {woven : Result (List (Shape QueryNode))} (follows : FollowsTop query woven (.ok final))
    (fits : ∀ roots, woven = .ok roots → Everywhere (Fits mapping) none roots) :
    final.InScope mapping := by
  obtain ⟨after, rfl, sound, wove⟩ := follows.ok
  exact { sound with bound := inScope.bound, fits := fits _ wove }

theorem inScope_insertClause (inScope : query.InScope mapping) {position : Position}
    (stands : query.Stands position) {shape : Shape QueryNode} (known : AllKnown [shape])
    (inserted : (·.2) <$> query.insertClause position shape = .ok final) :
    final.InScope mapping := by
  cases position with
  | top =>
      have follows := insertClause_top inScope.toSound shape known
      rw [inserted, inScope.bound] at follows
      exact inScope_of_followsTop inScope follows fun _ => everywhere_weaveTop known inScope.fits
  | slot compound name =>
      obtain ⟨holder, member, rfl, clause, place, content, declares⟩ := stands
      obtain ⟨around, site⟩ := exists_site_of_live member
      obtain rfl := CompoundKind.slot?_name declares
      have follows := insertClause_follows inScope.toSound site content declares shape known
      rw [inserted, inScope.bound] at follows
      refine inScope_of_follows inScope site follows (fun done woven => ?_)
        fun done woven holds => everywhere_weaveClause known holds woven
      have formed := formed_of_live inScope.toSound member
      rw [content] at formed ⊢
      exact formed_weaveClause known declares formed woven

theorem inScope_insertClauses (inScope : query.InScope mapping) {position : Position}
    (stands : query.Stands position) {clauses : List (Shape QueryNode)} (known : AllKnown clauses)
    (inserted : query.insertClauses position clauses = .ok final) : final.InScope mapping := by
  cases position with
  | top =>
      have follows := insertClauses_top inScope.toSound clauses known
      rw [inserted, inScope.bound] at follows
      exact inScope_of_followsTop inScope follows fun _ =>
        everywhere_weaveTopAll clauses known inScope.fits
  | slot compound name =>
      obtain ⟨holder, member, rfl, clause, place, content, declares⟩ := stands
      obtain ⟨around, site⟩ := exists_site_of_live member
      obtain rfl := CompoundKind.slot?_name declares
      have follows := insertClauses_follows inScope.toSound site content declares clauses known
      rw [inserted, inScope.bound] at follows
      refine inScope_of_follows inScope site follows (fun done woven => ?_)
        fun done woven holds => everywhere_correctClauses clauses known holds woven
      have formed := formed_of_live inScope.toSound member
      rw [content] at formed ⊢
      exact formed_correctClauses clauses known declares formed woven

theorem inScope_insertShape (inScope : query.InScope mapping) {position : Position}
    (stands : query.Stands position) {incoming : Option (Shape QueryNode)}
    (known : ∀ shape, incoming = some shape → AllKnown [shape])
    (inserted : query.insertShape position incoming = .ok final) : final.InScope mapping := by
  cases incoming with
  | none =>
      cases Result.pure_ok.mp inserted
      exact inScope
  | some shape =>
      have known := known shape rfl
      rw [insertShape] at inserted
      split at inserted
      · obtain ⟨label, clauses⟩ := shape
        exact inScope_insertClauses inScope stands ((allKnown_cons _ _ _).mp known).2.1 inserted
      · exact inScope_insertClause inScope stands known inserted

theorem holder_of_slot {parent branch : Branch QueryNode}
    (formed : FormedSlots parent.content (shapes parent.children))
    (below : branch ∈ parent.children) {place : Slot} (content : branch.content = .slot place) :
    ∃ clause, parent.content = .compound clause ∧ clause.kind.slot? place.name = some place := by
  have inside : branch.content ∈ contents (shapes parent.children) :=
    List.mem_map.mpr ⟨branch.shape, mem_shapes.mpr ⟨branch, below, rfl⟩, content_shape branch⟩
  have holds := formed.2
  rw [content] at inside
  cases held : parent.content with
  | leaf clause =>
      rw [held] at holds
      have empty : contents (shapes parent.children) = [] := holds
      rw [empty] at inside
      cases inside
  | slot own =>
      rw [held] at holds
      have bare := holds.1 _ inside
      cases bare
  | compound clause =>
      rw [held] at holds
      obtain ⟨own, same, declares⟩ := holds.2.1 _ inside
      cases same
      exact ⟨clause, rfl, declares⟩

theorem stands_positionFor (sound : query.Sound) {address : Address} {parameter : Option String}
    {position : Position} (found : query.positionFor address parameter = .ok position) :
    query.Stands position := by
  simp only [positionFor, Result.bind_ok] at found
  obtain ⟨id, _, node, got, found⟩ := found
  obtain ⟨branch, member, rfl, rfl⟩ := live_of_get got
  cases content : branch.content with
  | leaf clause =>
      rw [content] at found
      cases found
  | compound clause =>
      rw [content] at found
      simp only at found
      split at found
      · rename_i place declares
        cases Result.pure_ok.mp found
        refine ⟨branch, member, rfl, clause, place, content, ?_⟩
        rwa [CompoundKind.slot?_name declares]
      · cases found
  | slot place =>
      rw [content] at found
      cases above : query.tree.parent? branch.id with
      | none =>
          simp only [above] at found
          cases parameter with
          | none => cases found
          | some name =>
              simp only at found
              split at found
              · cases found
              · cases found
      | some compound =>
          have same : position = .slot compound place.name := by
            simp only [above] at found
            cases parameter with
            | none => exact (Result.pure_ok.mp found).symm
            | some name =>
                simp only at found
                split at found
                · cases found
                · exact (Result.pure_ok.mp found).symm
          obtain ⟨parent, liveParent, rfl, below⟩ := child_of_parent? sound.numbered member above
          obtain ⟨clause, holds, declares⟩ :=
            holder_of_slot (formed_of_live sound liveParent) below content
          rw [same]
          exact ⟨parent, liveParent, rfl, clause, place, holds, declares⟩

end Insertions

end Query

end ScopedClauses
