import ScopedClauses.Proofs.Query.Intact
import ScopedClauses.Proofs.Tree.Moving
import ScopedClauses.Proofs.Tree.Running

/-!
Merging a clause onto one that is there. Whatever the mode, the target stays of its kind, and its
slots are those it had, emptied or not, with the new clauses woven in.
-/

namespace ScopedClauses

namespace Tree

open Rose

variable {N : Type} {tree after : Tree N}

theorem regrown_removed (numbered : tree.Numbered) (settled : tree.detached = [])
    {label : Entry N} {child : Branch N} {rest : List (Branch N)}
    (member : .node label (child :: rest) ∈ tree.live) {removed : Tree N}
    (done : tree.remove child.id = .ok (removed, after)) :
    Regrown tree (.node label (child :: rest)) (.node label rest) after ∧ after.detached = [] := by
  obtain ⟨_, _, _, branches, settledAfter, next, root⟩ := remove_ok numbered settled done
  have pruned : pruneAt child.id tree.branches =
      updateAt label.id (fun _ => .node label rest) tree.branches :=
    pruneAt_child tree.branches numbered.distinct (List.nil_append (child :: rest) ▸ member)
  rw [pruned] at branches
  have part : (numbers [.node label rest]).Sublist (numbers [.node label (child :: rest)]) := by
    rw [numbers_cons, numbers_cons, numbers_nil, List.append_nil, List.append_nil,
      numbers_cons_eq child rest]
    exact (List.sublist_append_right _ _).cons_cons _
  refine ⟨⟨branches, ?_, by omega, ?_, fun number inside => Or.inl (part.subset inside)⟩,
    settledAfter⟩
  · rcases root with empty | same
    · rw [branches] at empty
      have none : tree.branches = [] := by
        cases forest : tree.branches with
        | nil => rfl
        | cons first others =>
            obtain ⟨entry, kids⟩ := first
            rw [forest, updateAt_cons] at empty
            cases empty
      rw [live, none] at member
      cases member
    · have both := congrArg Option.isSome same
      simpa only [rootId?, Option.isSome_map] using both
  · exact (numbered.distinct.sublist (sublist_numbers _ member)).sublist part

theorem regrown_emptied {label : Entry N} (kids : List (Branch N)) (numbered : tree.Numbered)
    (settled : tree.detached = []) (member : .node label kids ∈ tree.live)
    (done : (kids.map Rose.id).foldlM (fun tree number => (·.2) <$> tree.remove number) tree =
      .ok after) : Regrown tree (.node label kids) (.node label []) after := by
  induction kids generalizing tree with
  | nil =>
      cases Result.pure_ok.mp done
      exact Regrown.refl numbered member
  | cons child rest ih =>
      rw [List.map_cons, List.foldlM_cons] at done
      obtain ⟨middle, first, others⟩ := Result.bind_ok.mp done
      obtain ⟨⟨removed, _⟩, removedChild, rfl⟩ := Result.map_ok.mp first
      obtain ⟨grew, settledMiddle⟩ := regrown_removed numbered settled member removedChild
      have again := ih (grew.numbered numbered member) settledMiddle
        (grew.live_new numbered member) others
      exact grew.trans again numbered member

theorem regrown_assigned (numbered : tree.Numbered) {branch : Branch N} (member : branch ∈ tree.live)
    {content : N} {key : Option String}
    (done : (tree.assign branch.id content >>= fun tree => tree.setKey branch.id key) = .ok after) :
    Regrown tree branch (.node ⟨⟨key, content⟩, branch.id⟩ branch.children) after := by
  simp only [assign, find_of_find? (find?_of_live numbered member), Result.ok_bind,
    Result.pure_bind] at done
  have kept : ∀ entry : Entry N, { entry with content := content }.id = entry.id := fun _ => rfl
  have first := regrown_updateEntry numbered member kept
  have live := first.live_new numbered member
  have still : ∀ entry : Entry N, { entry with key := key }.id = entry.id := fun _ => rfl
  have second := regrown_updateEntry (first.numbered numbered member) live still
  simp only [setKey, Result.bind_ok, Result.pure_ok] at done
  obtain ⟨_, _, rfl⟩ := done
  exact first.trans second numbered member

end Tree

namespace Query

open Rose Tree Weaving QueryNode

section Merging

variable {mapping : Option Mapping} {query final : Query}

theorem removeAll_ok (whole : query.Whole) {branch : Branch QueryNode}
    (member : branch ∈ query.tree.live)
    (removed : query.removeAll (query.tree.children branch.id) = .ok final) :
    ∃ after, final = query.withTree after ∧
      Regrown query.tree branch (.node branch.label []) after := by
  obtain ⟨after, done, made⟩ := Result.bind_ok.mp removed
  cases Result.pure_ok.mp made
  rw [children_of_live whole.numbered member] at done
  obtain ⟨label, kids⟩ := branch
  exact ⟨after, rfl, regrown_emptied kids whole.numbered whole.settled member done⟩

theorem kind_of_tag {first second : CompoundKind} (known : .compound first ∈ QueryKind.all)
    (other : .compound second ∈ QueryKind.all) (same : first.tag = second.tag) : first = second := by
  have found := QueryKind.ofTag_tag known
  have again := QueryKind.ofTag_tag other
  have tags : QueryKind.tag (.compound first) = QueryKind.tag (.compound second) := same
  rw [tags, again] at found
  cases found
  rfl

theorem readable_merged {current added : CompoundClause} (same : current.kind = added.kind)
    (distinct : added.body.keys.Nodup) (old : Readable (.compound current))
    (new : Readable (.compound added)) (mode : MergeMode) :
    Readable (.compound (blend mode current added)) := by
  obtain ⟨_, freeOld⟩ := old
  obtain ⟨madeNew, freeNew⟩ := new
  rw [← same] at madeNew freeNew
  have merged : Readable
      (.compound { current with body := Members.merge current.body added.body }) := by
    refine ⟨?_, fun key inside => ?_⟩
    · unfold CompoundClause.ofBody at madeNew ⊢
      split at madeNew
      · cases madeNew
      · rename_i pathed
        rw [if_neg]
        · rfl
        · intro missing
          refine pathed ?_
          rw [Bool.and_eq_true] at missing ⊢
          refine ⟨missing.1, ?_⟩
          have lacks := missing.2
          rw [Members.lookup_merge distinct] at lacks
          cases found : added.body.lookup "path" with
          | none => rfl
          | some path => simpa [found] using lacks
    · rcases Members.mem_keys_merge.mp inside with there | here
      · exact freeNew key there
      · exact freeOld key here
  have replaced : Readable (.compound { current with body := added.body }) := by
    exact ⟨madeNew.trans (congrArg Except.ok (ofBody_ok madeNew)), freeNew⟩
  cases mode with
  | add => exact merged
  | replace => exact merged
  | replaceAll => exact replaced

theorem mergeBody_intact (intact : query.Intact mapping) {target : Branch QueryNode}
    (member : target ∈ query.tree.live) {current added : CompoundClause}
    (content : target.content = .compound current) (same : current.kind = added.kind)
    (distinct : added.body.keys.Nodup) (new : Readable (.compound added)) {mode : MergeMode}
    (merged : query.mergeBody target.id current added mode = .ok final) :
    final.Intact mapping ∧ ∃ grown ∈ final.tree.live, grown.id = target.id ∧
      ∃ clause, grown.content = .compound clause ∧ clause.kind = current.kind := by
  obtain ⟨first, assigned, rest⟩ := Result.bind_ok.mp merged
  obtain ⟨after, keyed, made⟩ := Result.bind_ok.mp rest
  cases Result.pure_ok.mp made
  have grew := regrown_assigned intact.numbered member
    (Result.bind_ok.mpr ⟨first, assigned, keyed⟩)
  have here := allLegible_of_live intact member
  rw [← node_eta target, shape_node, allLegible_singleton] at here
  have formed := formed_of_live intact.toSound member
  have old : Readable (.compound current) := content ▸ here.1.readable
  have readable := readable_merged same distinct old new mode
  refine ⟨intact.exchanged grew member ?_ ⟨formed.1, ?_⟩ ?_, _,
    grew.live_new intact.numbered member, rfl, _, rfl, rfl⟩
  · rw [content]
    exact standsFor_compound _ _
  · have holds := formed.2
    rw [content] at holds
    exact holds
  · rw [shapes_cons, shapes_nil, allLegible_singleton]
    refine ⟨⟨rfl, readable, trivial, fun place slotted => ?_⟩, here.2⟩
    cases slotted

def kept : MergeMode → List (Shape QueryNode) → List (Shape QueryNode)
  | .replace, _ => []
  | _, clauses => clauses

theorem allLegible_kept (mode : MergeMode) {clauses : List (Shape QueryNode)}
    (legible : AllLegible mapping clauses) : AllLegible mapping (kept mode clauses) := by
  cases mode with
  | replace => exact allLegible_nil
  | add => exact legible
  | replaceAll => exact legible

def clear (query : Query) (target : Nat) (mode : MergeMode) (name : String) : Result Query :=
  match mode, query.findSlot? target name with
  | .replace, some found => query.removeAll (query.tree.children found)
  | _, _ => pure query

theorem insertSlots_single (target : Nat) (key : Option String) (place : Slot)
    (clauses : List (Shape QueryNode)) :
    query.insertSlots target [.node ⟨key, .slot place⟩ clauses] =
      query.ensureSlot target place.name >>= fun made =>
        made.2.insertClauses (.slot target place.name) clauses := by
  simp only [insertSlots, QueryNode.slot?]
  cases query.ensureSlot target place.name with
  | error error => rfl
  | ok made =>
      simp only [Result.ok_bind]
      cases made.2.insertClauses (.slot target place.name) clauses <;> rfl

theorem mergeSlots_cons (target : Nat) (mode : MergeMode) (key : Option String) (place : Slot)
    (clauses rest : List (Shape QueryNode)) :
    query.mergeSlots target mode (.node ⟨key, .slot place⟩ clauses :: rest) =
      query.clear target mode place.name >>= fun query =>
        query.insertSlots target [.node ⟨key, .slot place⟩ clauses] >>= fun query =>
          query.mergeSlots target mode rest := by
  simp only [mergeSlots, label_node, QueryNode.slot?, children_node, insertSlots_single, bind_assoc,
    clear]
  cases mode <;> cases query.findSlot? target place.name <;> rfl

theorem clear_ok (sound : query.Sound) {holder : Branch QueryNode}
    (member : holder ∈ query.tree.live) {clause : CompoundClause}
    (content : holder.content = .compound clause) {place : Slot}
    (declares : clause.kind.slot? place.name = some place) {mode : MergeMode}
    (cleared : query.clear holder.id mode place.name = .ok final) :
    ∃ grown after, final = query.withTree after ∧ Regrown query.tree holder grown after ∧
      grown.label = holder.label ∧ FormedSlots (.compound clause) (shapes grown.children) ∧
      changeSlot place (fun old => old) (shapes grown.children) =
        changeSlot place (kept mode) (shapes holder.children) := by
  have formed := formed_of_live sound member
  rw [content] at formed
  have stays : query = final → changeSlot place (fun old => old) (shapes holder.children) =
      changeSlot place (kept mode) (shapes holder.children) →
      ∃ grown after, final = query.withTree after ∧ Regrown query.tree holder grown after ∧
        grown.label = holder.label ∧ FormedSlots (.compound clause) (shapes grown.children) ∧
        changeSlot place (fun old => old) (shapes grown.children) =
          changeSlot place (kept mode) (shapes holder.children) := by
    rintro rfl same
    exact ⟨holder, query.tree, rfl, Regrown.refl sound.numbered member, rfl, formed, same⟩
  cases mode with
  | add => exact stays (Result.pure_ok.mp cleared) rfl
  | replaceAll => exact stays (Result.pure_ok.mp cleared) rfl
  | replace =>
      rcases findSlot?_cases sound.numbered member place.name with
        ⟨missing, absent⟩ | ⟨front, found, back, first, looked⟩
      · simp only [clear, missing] at cleared
        refine stays (Result.pure_ok.mp cleared) ?_
        rw [changeSlot_missing absent, changeSlot_missing absent]
        rfl
      · simp only [clear, looked] at cleared
        obtain ⟨after, rfl, grew⟩ := removeAll_ok sound.toWhole (first.live member) cleared
        have parts : .node holder.label (front ++ found :: back) ∈ query.tree.live :=
          first.holder_eq ▸ member
        have grewHolder := grew.child front back sound.numbered parts
        rw [← first.holder_eq] at grewHolder
        have emptied : shapes (front ++ .node found.label [] :: back) =
            changeSlot place (fun _ => []) (shapes holder.children) := by
          rw [first.change_eq rfl, shapes_append, shapes_cons]
          rfl
        refine ⟨_, after, rfl, grewHolder, rfl, ?_, ?_⟩
        · rw [children_node, emptied]
          exact (formed_changeSlot declares _ (fun _ _ => formedSlot_nil place) formed).1
        · rw [children_node, emptied, changeSlot_changeSlot]
          rfl

/-- Merging a slot clears what the mode clears, and brings the new clauses in after what is kept. -/
theorem mergeSlot_ok (sound : query.Sound) {holder : Branch QueryNode} {around : Option String}
    (site : (holder, around) ∈ sites none query.tree.branches) {clause : CompoundClause}
    (content : holder.content = .compound clause) {key : Option String} {place : Slot}
    (declares : clause.kind.slot? place.name = some place) {clauses : List (Shape QueryNode)}
    (known : AllKnown clauses) {mode : MergeMode}
    (merged : (query.clear holder.id mode place.name >>= fun query =>
      query.insertSlots holder.id [.node ⟨key, .slot place⟩ clauses]) = .ok final) :
    ∃ grown after, final = query.withTree after ∧ (query.withTree after).Sound ∧
      Regrown query.tree holder grown after ∧ grown.label = holder.label ∧
      correctClauses query.mapping query.autocorrect
        (within around (QueryNode.compound clause)) place clauses
        (changeSlot place (kept mode) (shapes holder.children)) = .ok (shapes grown.children) := by
  obtain ⟨cleared, clearing, inserted⟩ := Result.bind_ok.mp merged
  have member := mem_of_site site
  obtain ⟨mid, tree, rfl, grewMid, labelMid, formedMid, same⟩ :=
    clear_ok sound member content declares clearing
  have contentMid : mid.content = .compound clause := (congrArg (·.content) labelMid).trans content
  have number : mid.id = holder.id := congrArg (·.id) labelMid
  have soundMid := sound.regrown grewMid member labelMid (contentMid ▸ formedMid)
  have knownSlot : AllKnown [.node ⟨key, .slot place⟩ clauses] :=
    (allKnown_cons _ _ _).mpr ⟨trivial, known, fun _ absent => absurd absent List.not_mem_nil⟩
  have follows := insertSlots_follows soundMid (grewMid.site_new sound.numbered site) _ knownSlot
  have asked : declared (.compound clause) place.name = .ok place :=
    declared_ok.mpr ⟨clause, rfl, declares⟩
  rw [number, inserted, contentMid] at follows
  simp only [correctSlots, QueryNode.slot?, asked, Result.ok_bind, same, bind_pure] at follows
  change Follows (query.withTree tree) mid (correctClauses query.mapping query.autocorrect
    (within around (QueryNode.compound clause)) place clauses
    (changeSlot place (kept mode) (shapes holder.children))) _ at follows
  obtain ⟨grown, after, rfl, grew, label, corrected⟩ := follows.ok
  have labels : grown.label = holder.label := label.trans labelMid
  have contentGrown : grown.content = .compound clause :=
    (congrArg (·.content) labels).trans content
  have formedStart := (formed_changeSlot declares (fun old => old) (fun _ => id) formedMid).1
  rw [same] at formedStart
  have formed := formed_correctClauses clauses known declares formedStart corrected
  have whole := grewMid.trans grew sound.numbered member
  exact ⟨grown, after, rfl, sound.regrown whole member labels (contentGrown ▸ formed), whole, labels,
    corrected⟩

theorem mergeSlot_intact (intact : query.Intact mapping) {holder : Branch QueryNode}
    (member : holder ∈ query.tree.live) {clause : CompoundClause}
    (content : holder.content = .compound clause) {key : Option String} {place : Slot}
    (declares : clause.kind.slot? place.name = some place) {clauses : List (Shape QueryNode)}
    (sheer : Sheer [.node ⟨key, .slot place⟩ clauses]) {mode : MergeMode}
    (merged : (query.clear holder.id mode place.name >>= fun query =>
      query.insertSlots holder.id [.node ⟨key, .slot place⟩ clauses]) = .ok final) :
    final.Intact mapping ∧ ∃ grown ∈ final.tree.live, grown.label = holder.label := by
  obtain ⟨around, site⟩ := exists_site_of_live member
  obtain ⟨formedSlot, legibleSlot⟩ := sheer
  rw [formed_cons] at formedSlot
  rw [allLegible_singleton] at legibleSlot
  obtain ⟨grown, after, rfl, soundAfter, grew, labels, corrected⟩ := mergeSlot_ok intact.toSound site
    content declares (allKnown_of_formed formedSlot.2.1) merged
  have live := grew.live_new intact.numbered member
  rw [show query.mapping = mapping from intact.bound] at corrected
  have formedHolder := formed_of_live intact.toSound member
  rw [content] at formedHolder
  have here := allLegible_of_live intact member
  rw [← node_eta holder, shape_node, allLegible_singleton] at here
  have legible := allLegible_correctClauses clauses ⟨formedSlot.2.1, legibleSlot.2⟩
    (fun _ => allLegible_kept mode) (fun empty => ?_) here.2 corrected
  · have formed := formed_of_live soundAfter live
    exact ⟨intact.regrown grew member labels (by rw [content]; rfl) formed legible, grown, live,
      labels⟩
  · subst empty
    have many : place.multiple = true := by
      cases single : place.multiple with
      | true => rfl
      | false => exact absurd rfl (legibleSlot.1.filled place rfl single)
    exact ⟨fun _ => many, Or.inr ⟨many, fun _ => named_of_formed declares formedHolder⟩⟩

theorem mergeSlots_intact (intact : query.Intact mapping) {holder : Branch QueryNode}
    (member : holder ∈ query.tree.live) {clause : CompoundClause}
    (content : holder.content = .compound clause) {slots : List (Shape QueryNode)}
    (formed : FormedSlots (.compound clause) slots) (legible : AllLegible none slots)
    {mode : MergeMode} (merged : query.mergeSlots holder.id mode slots = .ok final) :
    final.Intact mapping := by
  induction slots generalizing query holder with
  | nil =>
      cases Result.pure_ok.mp merged
      exact intact
  | cons slot rest ih =>
      obtain ⟨formedSlot, ⟨place, slotted, declares⟩, _, formedRest⟩ := formedSlots_cons.mp formed
      rw [allLegible_cons_iff] at legible
      obtain ⟨⟨key, node⟩, clauses⟩ := slot
      cases slotted
      rw [mergeSlots_cons, ← bind_assoc] at merged
      obtain ⟨middle, first, others⟩ := Result.bind_ok.mp merged
      obtain ⟨intactMiddle, grown, live, label⟩ :=
        mergeSlot_intact intact member content declares ⟨formedSlot, legible.1⟩ first
      have number : grown.id = holder.id := congrArg (·.id) label
      have same : grown.content = holder.content := congrArg (·.content) label
      exact ih intactMiddle live (same.trans content) formedRest legible.2 (number ▸ others)

structure Plain (shape : Shape QueryNode) : Prop where
  sheer : Sheer [shape]
  bare : shape.label.content.slot? = none
  distinct : ∀ clause, shape.label.content = .compound clause → clause.body.keys.Nodup

def strip (query : Query) (target : Nat) : MergeMode → Result Query
  | .replaceAll => query.removeAll (query.tree.children target)
  | _ => pure query

/-- A compound clause is merged onto one of the same type. -/
theorem mergeOnto_ok (numbered : query.tree.Numbered) {onto : Address} {shape : Shape QueryNode}
    {mode : MergeMode} : query.mergeOnto onto (some shape) mode = .ok final ↔
      ∃ target ∈ query.tree.live, query.find onto = .ok target.id ∧ ∃ current added,
        target.content = .compound current ∧ shape.label.content = .compound added ∧
        current.kind.tag = added.kind.tag ∧
        (query.strip target.id mode >>= fun query =>
          query.mergeBody target.id current added mode >>= fun query =>
            query.mergeSlots target.id mode shape.children) = .ok final := by
  simp only [mergeOnto, Result.bind_ok]
  constructor
  · rintro ⟨target, found, existing, got, merged⟩
    obtain ⟨branch, member, rfl, rfl⟩ := live_of_get got
    split at merged
    · rename_i current added content adding
      split at merged
      · cases merged
      · rename_i tags
        refine ⟨branch, member, found, current, added, content, adding, not_not.mp tags, ?_⟩
        cases mode <;> simpa only [strip, Result.bind_ok] using merged
    · cases merged
  · rintro ⟨branch, member, found, current, added, content, adding, tags, merged⟩
    have got : query.tree.get branch.id = .ok (.compound current) := by
      rw [Tree.get, find_of_find? (find?_of_live numbered member), ← content]
      rfl
    refine ⟨branch.id, found, _, got, ?_⟩
    rw [adding]
    simp only [tags, ne_eq, not_true_eq_false, if_false]
    cases mode <;> simpa only [strip, Result.bind_ok] using merged

/-- Merging onto a clause keeps a query intact, whatever the mode. -/
theorem mergeOnto_intact (intact : query.Intact mapping) {onto : Address} {shape : Shape QueryNode}
    (plain : Plain shape) {mode : MergeMode}
    (merged : query.mergeOnto onto (some shape) mode = .ok final) : final.Intact mapping := by
  obtain ⟨branch, member, _, current, added, content, adding, tags, merged⟩ :=
    (mergeOnto_ok intact.numbered).mp merged
  obtain ⟨⟨key, node⟩, slots⟩ := shape
  cases adding
  have sheer := plain.sheer
  rw [Sheer, formed_cons, allLegible_singleton] at sheer
  have known := (formed_of_live intact.toSound member).2
  rw [content] at known
  have same : current.kind = added.kind := kind_of_tag known.1 sheer.1.1.1 tags
  simp only [Result.bind_ok] at merged
  obtain ⟨cleared, emptied, grown, body, merged⟩ := merged
  -- under `replaceAll` the slots go first
  have start : cleared.Intact mapping ∧ ∃ held ∈ cleared.tree.live, held.id = branch.id ∧
      held.content = .compound current := by
    have stays : query = cleared → cleared.Intact mapping ∧
        ∃ held ∈ cleared.tree.live, held.id = branch.id ∧ held.content = .compound current := by
      rintro rfl
      exact ⟨intact, branch, member, rfl, content⟩
    cases mode with
    | add => exact stays (Result.pure_ok.mp emptied)
    | replace => exact stays (Result.pure_ok.mp emptied)
    | replaceAll =>
        obtain ⟨after, rfl, grew⟩ := removeAll_ok intact.toWhole member emptied
        refine ⟨intact.regrown grew member rfl (by rw [content]; rfl) ?_ allLegible_nil,
          _, grew.live_new intact.numbered member, rfl, content⟩
        exact formedSlots_nil (known_of_holds (formed_of_live intact.toSound member).2)
  obtain ⟨intactCleared, held, liveHeld, number, heldContent⟩ := start
  rw [← number] at body
  obtain ⟨intactGrown, target, liveTarget, numberTarget, clause, targetContent, kind⟩ :=
    mergeBody_intact intactCleared liveHeld heldContent same (plain.distinct added rfl)
      sheer.2.1.readable body
  rw [← number, ← numberTarget] at merged
  have formed : FormedSlots (.compound clause) slots := by
    refine ⟨sheer.1.2.1, ?_⟩
    have holds := sheer.1.1
    have kinds : clause.kind = added.kind := kind.trans same
    simpa only [Holds, kinds] using holds
  exact mergeSlots_intact intactGrown liveTarget targetContent formed sheer.2.2 merged

end Merging

end Query

end ScopedClauses
