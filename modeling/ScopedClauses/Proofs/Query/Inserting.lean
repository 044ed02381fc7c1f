import ScopedClauses.Proofs.Query.Placing

/-!
Inserting whole clauses is weaving them in, errors included. The shape of a query after an
insertion is thereby a function of its shape before.
-/

namespace ScopedClauses

namespace Query

open Rose Tree Weaving

structure Sound (query : Query) : Prop extends query.Whole where
  formed : Formed (shapes query.tree.branches)

theorem formed_of_live {query : Query} (sound : query.Sound) {branch : Branch QueryNode}
    (member : branch ∈ query.tree.live) :
    FormedSlots branch.content (shapes branch.children) := by
  have inside : branch.shape ∈ preorderAll (shapes query.tree.branches) := by
    rw [preorderAll_shapes]
    exact List.mem_map_of_mem member
  refine ⟨fun shape below => sound.formed shape ?_, ?_⟩
  · exact mem_preorderAll_trans _ inside (by rwa [children_shape])
  · have holds := sound.formed branch.shape inside
    rwa [content_shape, children_shape] at holds

theorem Sound.exchanged {query : Query} (sound : query.Sound) {old new : Branch QueryNode}
    {after : Tree QueryNode} (grew : Regrown query.tree old new after)
    (member : old ∈ query.tree.live) (alike : StandsFor new.content old.content)
    (formed : FormedSlots new.content (shapes new.children)) :
    (query.withTree after).Sound ∧ ∀ holder,
      QueryNode.Holds holder (contents (shapes query.tree.branches)) →
      QueryNode.Holds holder (contents (shapes after.branches)) := by
  have formedNew : Formed (shapes [new]) := by
    rw [shapes_cons_eq, ← node_eta new, shape_node]
    exact (formed_cons _ _ _).mpr ⟨formed.2, formed.1, formed_nil⟩
  obtain ⟨kept, may⟩ := formed_updateAt query.tree.branches sound.numbered.distinct member
    sound.formed alike formedNew
  rw [← grew.branches] at kept may
  exact ⟨⟨sound.toWhole.regrown grew member, kept⟩, fun holder => may holder []⟩

theorem Sound.regrown {query : Query} (sound : query.Sound) {old new : Branch QueryNode}
    {after : Tree QueryNode} (grew : Regrown query.tree old new after)
    (member : old ∈ query.tree.live) (label : new.label = old.label)
    (formed : FormedSlots new.content (shapes new.children)) : (query.withTree after).Sound := by
  have same : new.content = old.content := congrArg (·.content) label
  exact (sound.exchanged grew member (same ▸ standsFor_self new.content) formed).1

/-! ### Settling -/

theorem reconcile_cases (query : Query) (position : Position) (field : String)
    (mapping : Mapping) :
    (∃ error, routeTo mapping query.autocorrect (query.positionScope position) field =
        .error error ∧ reconcile query position field mapping query.autocorrect = .error error) ∨
      ∃ route refusal,
        routeTo mapping query.autocorrect (query.positionScope position) field = .ok route ∧
        reconcile query position field mapping query.autocorrect =
          cross refusal query position (route.map .enter) := by
  have scope : Crossable.scopeAt query position = query.positionScope position := rfl
  cases resolved : mapping.nestedScopes field with
  | error error =>
      exact Or.inl ⟨error, by simp [routeTo, resolved], by simp [reconcile, resolved]⟩
  | ok required =>
      simp only [routeTo, reconcile, resolved, Result.ok_bind, scope]
      cases planned : Crossing.plan (query.positionScope position) required with
      | direct => exact Or.inr ⟨[], .rootOccupied, rfl, rfl⟩
      | enter scopes =>
          cases query.autocorrect with
          | true => exact Or.inr ⟨scopes, _, rfl, rfl⟩
          | false => exact Or.inl ⟨_, rfl, rfl⟩
      | exit target scopes =>
          cases query.autocorrect with
          | true =>
              refine Or.inl ⟨.invalidNesting field (query.positionScope position) required.head?,
                rfl, ?_⟩
              have missing : Crossable.existing? query position (.exit target) =
                  (none : Option Position) := rfl
              exact cross_refused missing rfl
          | false => exact Or.inl ⟨_, rfl, rfl⟩

theorem settle_cases (query : Query) (position : Position) (node : QueryNode) :
    (∃ error, routeFor query.mapping query.autocorrect (query.positionScope position) node =
        .error error ∧ query.settle position node = .error error) ∨
      ∃ route refusal,
        routeFor query.mapping query.autocorrect (query.positionScope position) node = .ok route ∧
        query.settle position node = cross refusal query position (route.map .enter) := by
  have stays : ∀ refusal, cross refusal query position ([].map .enter) = pure (position, query) :=
    fun _ => rfl
  cases node with
  | leaf clause =>
      cases mapped : query.mapping with
      | none => exact Or.inr ⟨[], .rootOccupied, rfl, by simp only [settle, mapped, stays]⟩
      | some mapping =>
          simp only [settle, routeFor, mapped]
          cases clause.field with
          | none => exact Or.inr ⟨[], .rootOccupied, rfl, rfl⟩
          | some field =>
              cases checked : mapping.checkField clause.kind.tag clause.kind.rule field with
              | error error => exact Or.inl ⟨error, by simp [checked], by simp [checked]⟩
              | ok type =>
                  simp only [checked, Result.ok_bind]
                  exact reconcile_cases query position field mapping
  | compound clause => exact Or.inr ⟨[], .rootOccupied, rfl, rfl⟩
  | slot place => exact Or.inr ⟨[], .rootOccupied, rfl, rfl⟩

/-! ### Following -/

def Follows (query : Query) (holder : Branch QueryNode) (woven : Result (List (Shape QueryNode)))
    (inserted : Result Query) : Prop :=
  match woven with
  | .error error => inserted = .error error
  | .ok done => ∃ grown after, inserted = .ok (query.withTree after) ∧
      Regrown query.tree holder grown after ∧ grown.label = holder.label ∧
      shapes grown.children = done

theorem Follows.ok {query final : Query} {holder : Branch QueryNode}
    {woven : Result (List (Shape QueryNode))} (follows : Follows query holder woven (.ok final)) :
    ∃ grown after, final = query.withTree after ∧ Regrown query.tree holder grown after ∧
      grown.label = holder.label ∧ woven = .ok (shapes grown.children) := by
  cases woven with
  | error error => cases follows
  | ok done =>
      obtain ⟨grown, after, same, grew, label, rfl⟩ := follows
      exact ⟨grown, after, Except.ok.inj same, grew, label, rfl⟩

section Following

variable {query : Query} {holder : Branch QueryNode} {around : Option String}
  {clause : CompoundClause} {place : Slot}

theorem Follows.bind (sound : query.Sound) (member : holder ∈ query.tree.live)
    (weaveNext : List (Shape QueryNode) → Result (List (Shape QueryNode)))
    {woven : Result (List (Shape QueryNode))} {inserted : Result Query}
    {insertNext : Query → Result Query} (first : Follows query holder woven inserted)
    (formed : ∀ done, woven = .ok done → FormedSlots holder.content done)
    (next : ∀ grown after, (query.withTree after).Sound → Regrown query.tree holder grown after →
      grown.label = holder.label → Follows (query.withTree after) grown
        (weaveNext (shapes grown.children)) (insertNext (query.withTree after))) :
    Follows query holder (woven >>= weaveNext) (inserted >>= insertNext) := by
  cases wove : woven with
  | error error =>
      rw [wove] at first
      have failed : inserted = .error error := first
      rw [failed]
      rfl
  | ok done =>
      rw [wove] at first
      obtain ⟨grown, after, rfl, grew, label, rfl⟩ := first
      have content : grown.content = holder.content := congrArg (·.content) label
      have second := next grown after
        (sound.regrown grew member label (content ▸ formed _ wove)) grew label
      simp only [Result.ok_bind]
      cases wovenNext : weaveNext (shapes grown.children) with
      | error error =>
          rw [wovenNext] at second
          exact second
      | ok final =>
          rw [wovenNext] at second
          obtain ⟨last, final, result, grewNext, labelNext, below⟩ := second
          exact ⟨last, final, result, grew.trans grewNext sound.numbered member,
            labelNext.trans label, below⟩

theorem ensureSlot_of_missing (numbered : query.tree.Numbered) (member : holder ∈ query.tree.live)
    {name : String} (missing : query.findSlot? holder.id name = none) :
    query.ensureSlot holder.id name = declared holder.content name >>= fun place =>
      query.tree.insert (.slot place) holder.id (some place.name) >>= fun (slot, tree) =>
        pure (slot, query.withTree tree) := by
  have got : query.tree.get holder.id = .ok holder.content := by
    simp [Tree.get, find_of_find? (find?_of_live numbered member), Functor.map, Except.map]
  simp only [ensureSlot, missing, got, Result.ok_bind]
  cases holder.content with
  | compound clause =>
      simp only [declared]
      cases clause.kind.slot? name <;> rfl
  | leaf clause => rfl
  | slot place => rfl

theorem FirstSlot.declared {slot : Branch QueryNode} {name : String}
    {front back : List (Branch QueryNode)} (first : FirstSlot holder name front slot back)
    (formed : FormedSlots holder.content (shapes holder.children)) :
    ∃ place, Weaving.declared holder.content name = .ok place := by
  obtain ⟨own, ownContent, sameName⟩ := isNamed_iff.mp first.named
  rw [content_shape] at ownContent
  have below : slot.content ∈ contents (shapes holder.children) := by
    simp [first.parts, shapes_append, shapes_cons_eq, content_shape]
  have holds := formed.2
  cases content : holder.content with
  | leaf clause =>
      rw [content] at holds
      simp only [QueryNode.Holds] at holds
      rw [holds] at below
      cases below
  | slot place =>
      rw [content] at holds
      have bare := holds.1 _ below
      rw [ownContent] at bare
      cases bare
  | compound clause =>
      rw [content] at holds
      obtain ⟨found, foundContent, foundDeclared⟩ := holds.2.1 _ below
      rw [ownContent] at foundContent
      cases foundContent
      exact ⟨own, declared_ok.mpr ⟨clause, rfl, sameName ▸ foundDeclared⟩⟩

theorem ensureSlot_follows (sound : query.Sound) (member : holder ∈ query.tree.live)
    (name : String) :
    Follows query holder
      (declared holder.content name >>= fun place =>
        pure (changeSlot place (fun old => old) (shapes holder.children)))
      ((·.2) <$> query.ensureSlot holder.id name) := by
  have formed := formed_of_live sound member
  cases asked : declared holder.content name with
  | ok place =>
      obtain ⟨clause, content, declares⟩ := declared_ok.mp asked
      have named : place.name = name := CompoundKind.slot?_name declares
      subst named
      rcases findSlot?_cases sound.numbered member place.name with
        ⟨missing, absent⟩ | ⟨front, slot, back, first, found⟩
      · obtain ⟨after, ensured, grew, _⟩ :=
          ensureSlot_missing sound.numbered member content declares missing
        refine ⟨_, after, by rw [ensured]; rfl, grew, rfl, ?_⟩
        rw [changeSlot_missing absent, extended, children_node, shapes_append]
        rfl
      · refine ⟨holder, query.tree, by rw [ensureSlot, found]; rfl,
          Regrown.refl sound.numbered member, rfl, ?_⟩
        rw [first.change_eq rfl, first.parts, shapes_append, shapes_cons_eq, ← shape_node, node_eta]
  | error error =>
      rcases findSlot?_cases sound.numbered member name with
        ⟨missing, absent⟩ | ⟨front, slot, back, first, found⟩
      · have failed : query.ensureSlot holder.id name = .error error := by
          rw [ensureSlot_of_missing sound.numbered member missing, asked]
          rfl
        rw [failed]
        rfl
      · obtain ⟨place, known⟩ := first.declared formed
        rw [known] at asked
        cases asked

theorem positionScope_slot (numbered : query.tree.Numbered)
    (site : (holder, around) ∈ sites none query.tree.branches) (name : String) :
    query.positionScope (.slot holder.id name) = within around holder.content :=
  currentScope_of_site numbered site

theorem sound_of_lands (sound : query.Sound) (member : holder ∈ query.tree.live)
    (content : holder.content = .compound clause)
    (declares : clause.kind.slot? place.name = some place) {entry : Keyed QueryNode}
    (known : QueryNode.Known entry.content) (bare : entry.content.slot? = none) {id : Nat}
    {after : Tree QueryNode} {route : List String}
    (lands : Lands query.tree holder (bud entry.key entry.content id) after route fun shape =>
      changeSlot place (weave route place.multiple shape) (shapes holder.children)) :
    (query.withTree after).Sound := by
  obtain ⟨grown, grew, label, below⟩ :=
    lands.completes _ after (Regrown.refl lands.numbered (lands.live member)) rfl
  have same : grown.content = holder.content := congrArg (·.content) label
  have formed := formed_of_live sound member
  refine sound.regrown grew member label ?_
  rw [same, below]
  rw [content] at formed ⊢
  exact formed_woven declares route (formed_bud entry.key known) bare formed

/-- What is filled in below a clause that has landed completes what it landed for. -/
theorem Follows.completes {entry : Keyed QueryNode} {slots : List (Shape QueryNode)} {id : Nat}
    {after : Tree QueryNode} {route : List String}
    {effect : Shape QueryNode → List (Shape QueryNode)} {scope : Option String}
    {inserted : Result Query}
    (filled : Follows (query.withTree after) (bud entry.key entry.content id)
      (correctSlots query.mapping query.autocorrect (within scope entry.content) entry.content slots
        []) inserted)
    (lands : Lands query.tree holder (bud entry.key entry.content id) after route effect) :
    Follows query holder
      (correct query.mapping query.autocorrect scope (.node entry slots) >>= fun incoming =>
        pure (effect incoming)) inserted := by
  simp only [correct, Result.bind_pure_map]
  cases corrected : correctSlots query.mapping query.autocorrect (within scope entry.content)
      entry.content slots [] with
  | error error =>
      rw [corrected] at filled
      exact filled
  | ok done =>
      rw [corrected] at filled
      obtain ⟨grown, final, result, grew, label, below⟩ := filled
      obtain ⟨holder', grewHolder, labelHolder, woven⟩ := lands.completes grown final grew label
      refine ⟨holder', final, result, grewHolder, labelHolder, ?_⟩
      rw [woven, ← node_eta grown, shape_node, below, label]
      rfl

theorem insertClause_placed {crossed placed : Query} {position spot : Position}
    {entry : Keyed QueryNode} {number : Nat} (slots : List (Shape QueryNode))
    (settled : query.settle position entry.content = .ok (spot, crossed))
    (made : crossed.place spot entry.content entry.key = .ok (number, placed)) :
    (·.2) <$> query.insertClause position (.node entry slots) = placed.insertSlots number slots := by
  simp only [insertClause, settled, Result.ok_bind, made]
  cases placed.insertSlots number slots <;> rfl

theorem insertClause_refused {position : Position} {entry : Keyed QueryNode}
    {error : Error} (slots : List (Shape QueryNode))
    (refused : (query.settle position entry.content >>= fun (spot, crossed) =>
      crossed.place spot entry.content entry.key) = .error error) :
    (·.2) <$> query.insertClause position (.node entry slots) = .error error := by
  simp only [insertClause]
  cases settled : query.settle position entry.content with
  | error other =>
      rw [settled] at refused
      cases refused
      rfl
  | ok found =>
      rw [settled] at refused
      simp only [Result.ok_bind] at refused ⊢
      rw [refused]
      rfl

/-! What a successful insertion did, one function at a time. -/

theorem insertClause_ok {final : Query} {position : Position} {entry : Keyed QueryNode}
    {slots : List (Shape QueryNode)} {id : Nat}
    (inserted : query.insertClause position (.node entry slots) = .ok (id, final)) :
    ∃ spot crossed placed, query.settle position entry.content = .ok (spot, crossed) ∧
      crossed.place spot entry.content entry.key = .ok (id, placed) ∧
      placed.insertSlots id slots = .ok final := by
  simp only [insertClause, Result.bind_ok, Result.pure_ok] at inserted
  obtain ⟨⟨spot, crossed⟩, settled, ⟨number, placed⟩, placing, filled, filling, same⟩ := inserted
  cases same
  exact ⟨spot, crossed, placed, settled, placing, filling⟩

theorem insertSlots_ok {final : Query} {compound : Nat} {entry : Keyed QueryNode}
    {clauses rest : List (Shape QueryNode)}
    (inserted : query.insertSlots compound (.node entry clauses :: rest) = .ok final) :
    (∃ place slot made filled, entry.content = .slot place ∧
        query.ensureSlot compound place.name = .ok (slot, made) ∧
        made.insertClauses (.slot compound place.name) clauses = .ok filled ∧
        filled.insertSlots compound rest = .ok final) ∨
      (entry.content.slot? = none ∧ query.insertSlots compound rest = .ok final) := by
  rw [insertSlots] at inserted
  split at inserted
  · rename_i place slotted
    simp only [Result.bind_ok] at inserted
    obtain ⟨⟨slot, made⟩, ensured, filled, filling, others⟩ := inserted
    exact Or.inl ⟨place, slot, made, filled, QueryNode.slot?_eq_some.mp slotted, ensured, filling,
      others⟩
  · rename_i bare
    exact Or.inr ⟨bare, inserted⟩

theorem insertClauses_ok {final : Query} {position : Position} {clause : Shape QueryNode}
    {rest : List (Shape QueryNode)}
    (inserted : query.insertClauses position (clause :: rest) = .ok final) :
    ∃ id middle, query.insertClause position clause = .ok (id, middle) ∧
      middle.insertClauses position rest = .ok final := by
  simp only [insertClauses, Result.bind_ok] at inserted
  obtain ⟨⟨id, middle⟩, first, others⟩ := inserted
  exact ⟨id, middle, first, others⟩

theorem ensureBoolRoot_cases {final : Query} {id : Nat}
    (ensured : query.ensureBoolRoot = .ok (id, final)) :
    (query.tree.root = none ∧ query.place .top QueryNode.emptyBool none = .ok (id, final)) ∨
      ∃ root, query.tree.root = some root ∧
        (final = query ∨ ∃ must, query.wrapInBool root.id = .ok (id, must, final)) := by
  cases rooted : query.tree.root with
  | none =>
      have noRoot : query.tree.rootId? = none := by rw [rootId?, rooted]; rfl
      refine Or.inl ⟨rfl, ?_⟩
      rw [← ensured, place, effective, ensureBoolRoot, noRoot]
  | some root =>
      have top : query.tree.rootId? = some root.id := by rw [rootId?, rooted]; rfl
      refine Or.inr ⟨root, rfl, ?_⟩
      simp only [ensureBoolRoot, top] at ensured
      split at ensured
      · cases Result.pure_ok.mp ensured
        exact Or.inl rfl
      · obtain ⟨⟨outer, must, grown⟩, wrapped, same⟩ := Result.bind_ok.mp ensured
        cases Result.pure_ok.mp same
        exact Or.inr ⟨must, wrapped⟩

theorem insertClauses_cons (position : Position) (shape : Shape QueryNode)
    (rest : List (Shape QueryNode)) :
    query.insertClauses position (shape :: rest) =
      ((·.2) <$> query.insertClause position shape) >>= fun query =>
        query.insertClauses position rest := by
  rw [insertClauses]
  cases query.insertClause position shape <;> rfl

theorem insertSlot_eq (compound : Nat) (name : String) (clauses rest : List (Shape QueryNode)) :
    (query.ensureSlot compound name >>= fun (_, query) =>
        query.insertClauses (.slot compound name) clauses >>= fun query =>
          query.insertSlots compound rest) =
      ((·.2) <$> query.ensureSlot compound name) >>= fun query =>
        query.insertClauses (.slot compound name) clauses >>= fun query =>
          query.insertSlots compound rest := by
  cases query.ensureSlot compound name <;> rfl

mutual

/-- Inserting a clause weaves it in. -/
theorem insertClause_follows {query : Query} {holder : Branch QueryNode} {around : Option String}
    {clause : CompoundClause} {place : Slot} (sound : query.Sound)
    (site : (holder, around) ∈ sites none query.tree.branches)
    (content : holder.content = .compound clause)
    (declares : clause.kind.slot? place.name = some place) : ∀ shape, AllKnown [shape] →
      Follows query holder
        (weaveClause query.mapping query.autocorrect (within around holder.content) place shape
          (shapes holder.children))
        ((·.2) <$> query.insertClause (.slot holder.id place.name) shape)
  | .node entry slots, known => by
      have member := mem_of_site site
      have formed := formed_of_live sound member
      have scope := positionScope_slot sound.numbered site place.name
      rw [allKnown_cons] at known
      rcases settle_cases query (.slot holder.id place.name) entry.content with
        ⟨error, unrouted, failed⟩ | ⟨route, refusal, routed, settled⟩
      · rw [scope] at unrouted
        rw [insertClause_refused slots (by rw [failed]; rfl)]
        simp only [weaveClause, label_node, unrouted]
        rfl
      · rw [scope] at routed
        simp only [weaveClause, label_node, routed, Result.ok_bind]
        cases slotted : entry.content.slot? with
        | some inner =>
            have isSlot := QueryNode.slot?_eq_some.mp slotted
            rw [isSlot] at routed
            obtain rfl := route_of_slot routed
            rw [insertClause_refused slots (by
              rw [settled, isSlot]
              exact place_slot_refuses sound.toWhole member content declares formed inner entry.key)]
            rw [isSlot, refuseSlot_slot]
            rfl
        | none =>
            have allowed : refuseSlot entry.content = .ok () := refuseSlot_ok.mpr slotted
            obtain ⟨position, crossed, id, after, crossing, placing, lands⟩ :=
              cross_place refusal slotted entry.key route sound.toWhole member content declares formed
            have soundAfter := sound_of_lands sound member content declares known.1 slotted lands
            have filled := insertSlots_follows soundAfter (lands.site around site) slots known.2.1
            rw [insertClause_placed slots (settled.trans crossing) placing, allowed]
            exact filled.completes lands
  termination_by structural shape => shape

theorem insertSlots_follows {query : Query} {holder : Branch QueryNode} {around : Option String}
    (sound : query.Sound) (site : (holder, around) ∈ sites none query.tree.branches) :
    ∀ slots, AllKnown slots →
      Follows query holder
        (correctSlots query.mapping query.autocorrect (within around holder.content) holder.content
          slots (shapes holder.children))
        (query.insertSlots holder.id slots)
  | [], _ => ⟨holder, query.tree, rfl, Regrown.refl sound.numbered (mem_of_site site), rfl, rfl⟩
  | .node entry clauses :: rest, known => by
      have member := mem_of_site site
      have formed := formed_of_live sound member
      rw [allKnown_cons] at known
      rw [correctSlots, insertSlots]
      cases slotted : entry.content.slot? with
      | none => exact insertSlots_follows sound site rest known.2.2
      | some named =>
          simp only
          have made := ensureSlot_follows sound member named.name
          cases asked : declared holder.content named.name with
          | error error =>
              rw [asked] at made
              have failed : (·.2) <$> query.ensureSlot holder.id named.name = .error error := made
              rw [insertSlot_eq, failed]
              rfl
          | ok place =>
              rw [asked] at made
              obtain ⟨clause, content, declares⟩ := declared_ok.mp asked
              have name : place.name = named.name := CompoundKind.slot?_name declares
              rw [← name] at declares
              rw [insertSlot_eq, ← name]
              rw [← name] at made
              refine made.bind sound member (fun done => correctClauses query.mapping
                query.autocorrect (within around holder.content) place clauses done >>= fun done =>
                  correctSlots query.mapping query.autocorrect (within around holder.content)
                    holder.content rest done) (fun done woven => ?_)
                fun grown after soundAfter grew label => ?_
              · rw [content] at formed ⊢
                cases Result.pure_ok.mp woven
                exact (formed_changeSlot declares (fun old => old) (fun _ kept => kept) formed).1
              · have same : grown.content = holder.content := congrArg (·.content) label
                have number : grown.id = holder.id := congrArg (·.id) label
                have siteGrown := grew.site_new sound.numbered site
                have formedGrown := formed_of_live soundAfter (mem_of_site siteGrown)
                have first := insertClauses_follows soundAfter siteGrown (same.trans content)
                  declares clauses known.2.1
                rw [number, same] at first
                refine first.bind soundAfter (mem_of_site siteGrown) _ (fun done woven => ?_)
                  fun last final soundFinal grewFinal labelFinal => ?_
                · rw [same, content] at formedGrown ⊢
                  exact formed_correctClauses clauses known.2.1 declares formedGrown woven
                · have again := insertSlots_follows soundFinal
                    (grewFinal.site_new soundAfter.numbered siteGrown) rest known.2.2
                  have sameFinal : last.content = holder.content :=
                    (congrArg (·.content) labelFinal).trans same
                  have numberFinal : last.id = holder.id := (congrArg (·.id) labelFinal).trans number
                  rw [sameFinal, numberFinal] at again
                  exact again
  termination_by structural slots => slots

theorem insertClauses_follows {query : Query} {holder : Branch QueryNode}
    {around : Option String} {clause : CompoundClause} {place : Slot} (sound : query.Sound)
    (site : (holder, around) ∈ sites none query.tree.branches)
    (content : holder.content = .compound clause)
    (declares : clause.kind.slot? place.name = some place) : ∀ clauses, AllKnown clauses →
      Follows query holder
        (correctClauses query.mapping query.autocorrect (within around holder.content) place clauses
          (shapes holder.children))
        (query.insertClauses (.slot holder.id place.name) clauses)
  | [], _ => ⟨holder, query.tree, rfl, Regrown.refl sound.numbered (mem_of_site site), rfl, rfl⟩
  | shape :: rest, known => by
      have member := mem_of_site site
      have formed := formed_of_live sound member
      rw [allKnown_cons_iff] at known
      rw [correctClauses_cons, insertClauses_cons]
      refine (insertClause_follows sound site content declares shape known.1).bind sound member _
        (fun done woven => ?_) fun grown after soundAfter grew label => ?_
      · rw [content] at formed ⊢
        exact formed_weaveClause known.1 declares formed woven
      · have same : grown.content = holder.content := congrArg (·.content) label
        have again := insertClauses_follows soundAfter
          (grew.site_new sound.numbered site) (same.trans content) declares rest known.2
        rw [same] at again
        have number : grown.id = holder.id := congrArg (·.id) label
        rw [number] at again
        exact again
  termination_by structural clauses => clauses

end

end Following

end Query

end ScopedClauses
