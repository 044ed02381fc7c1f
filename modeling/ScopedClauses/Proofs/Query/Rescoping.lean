import ScopedClauses.Proofs.Query.Structured
import ScopedClauses.Proofs.Scope.Cutting

/-!
Merges and scopes. The attributes that a merge gives its target may name another nested scope,
and what stays below the target is not placed again; so the leaves there stay in the scope of
their field only when the scope stays, or when they go.
-/

namespace ScopedClauses

namespace Query

open Rose Tree Weaving QueryNode

section Leaves

variable {mapping : Mapping} {query : Query}

theorem fits_compound {clause : CompoundClause} {scope : Option String}
    (known : Known (.compound clause)) : Fits mapping (.compound clause) scope := by
  refine ⟨fun _ absent => (by cases absent), fun bool => ?_⟩
  have kind : clause.kind = QueryKind.boolean :=
    QueryKind.eq_boolean known (by simpa [QueryNode.isBool] using bool)
  simp [nestedPath?, CompoundClause.path?, kind, QueryKind.boolean]

theorem inScope_of_leaves (sound : query.Sound) (bound : query.mapping = some mapping)
    (leaves : ∀ node ∈ query.tree.nodes, ∀ clause field, node.content = .leaf clause →
      clause.field = some field → mapping.nestedAt field = .ok (query.tree.currentScope node.id)) :
    query.InScope mapping := by
  refine { sound with
    bound := bound
    fits := (everywhere_iff sound.numbered sound.settled).mpr fun node member => ?_ }
  have holds := (formed_of_live sound (nodes_eq_live sound.settled ▸ member)).2
  cases content : node.content with
  | leaf clause =>
      exact ⟨fun field named => leaves node member clause field content named,
        fun impossible => by cases impossible⟩
  | slot place => exact fits_slot place
  | compound clause =>
      rw [content] at holds
      exact fits_compound (known_of_holds holds)

theorem InScope.leaves (inScope : query.InScope mapping) :
    ∀ node ∈ query.tree.nodes, ∀ clause field, node.content = .leaf clause →
      clause.field = some field →
      mapping.nestedAt field = .ok (query.tree.currentScope node.id) := by
  intro node member clause field content named
  have fits := (everywhere_iff inScope.numbered inScope.settled).mp inScope.fits node member
  exact fits.inScope field (by rw [content]; exact named)

theorem everywhere_fieldless {scope : Option String} (forest : List (Branch QueryNode))
    (fieldless : ∀ node ∈ preorderAll forest, node.content.field? = none) {old : Option String}
    (holds : Everywhere (Fits mapping) old (shapes forest)) :
    Everywhere (Fits mapping) scope (shapes forest) := by
  induction forest using forestInduction generalizing scope old with
  | nil => trivial
  | cons entry children rest ihBelow ihBeside =>
      simp only [preorderAll_cons, List.forall_mem_cons, List.forall_mem_append] at fieldless
      rw [shapes_cons, everywhere_cons] at holds ⊢
      refine ⟨⟨fun field named => ?_, holds.1.plain⟩, ihBelow fieldless.2.1 holds.2.1,
        ihBeside fieldless.2.2 holds.2.2⟩
      have none := fieldless.1
      rw [content_node, show entry.content.field? = some field from named] at none
      cases none

end Leaves

section Merging

variable {mapping : Mapping} {query final : Query}

theorem InScope.everywhere_below (inScope : query.InScope mapping) {holder : Branch QueryNode}
    {around : Option String} (site : (holder, around) ∈ sites none query.tree.branches) :
    Everywhere (Fits mapping) (within around holder.content) (shapes holder.children) := by
  have here := everywhere_of_site none query.tree.branches inScope.fits site
  rw [← node_eta holder, shape_node, everywhere_cons] at here
  exact here.2.1

theorem everywhere_kept {scope : Option String} (mode : MergeMode) {clauses : List (Shape QueryNode)}
    (holds : Everywhere (Fits mapping) scope clauses) :
    Everywhere (Fits mapping) scope (kept mode clauses) := by
  cases mode with
  | replace => trivial
  | add => exact holds
  | replaceAll => exact holds

/-- What a merged clause holds, attribute by attribute. Where the new clause names an attribute more
than once, the last of them counts. -/
theorem lookup_blend (mode : MergeMode) (current added : CompoundClause) (name : String) :
    (blend mode current added).body.lookup name =
      if mode = .replaceAll then added.body.lookup name
      else (added.body.reverse.lookup name).or (current.body.lookup name) := by
  cases mode with
  | replaceAll => rfl
  | add | replace => exact Members.lookup_merge_last current.body added.body name

theorem mergeBody_ok (sound : query.Sound) {target : Branch QueryNode}
    (member : target ∈ query.tree.live) {current added : CompoundClause}
    (content : target.content = .compound current) {mode : MergeMode}
    (merged : query.mergeBody target.id current added mode = .ok final) :
    ∃ grown after, final = query.withTree after ∧ (query.withTree after).Sound ∧
      Regrown query.tree target grown after ∧ grown.id = target.id ∧
      grown.content = .compound (blend mode current added) ∧ grown.children = target.children := by
  obtain ⟨first, assigned, rest⟩ := Result.bind_ok.mp merged
  obtain ⟨after, keyed, made⟩ := Result.bind_ok.mp rest
  cases Result.pure_ok.mp made
  have grew := regrown_assigned sound.numbered member (Result.bind_ok.mpr ⟨first, assigned, keyed⟩)
  have formed := formed_of_live sound member
  refine ⟨_, after, rfl, ?_, grew, rfl, rfl, rfl⟩
  refine (sound.exchanged grew member ?_ ⟨formed.1, ?_⟩).1
  · rw [content]
    exact standsFor_compound _ _
  · have holds := formed.2
    rw [content] at holds
    exact holds

/-- Merging a slot into a clause that was just given other attributes puts every leaf in its
scope, if the clause fits with what the slot starts from. -/
theorem inScope_mergeSlot (inScope : query.InScope mapping) {target holder : Branch QueryNode}
    (member : target ∈ query.tree.live) {middle : Tree QueryNode}
    (grew : Regrown query.tree target holder middle) (sound : (query.withTree middle).Sound)
    {clause : CompoundClause} (content : holder.content = .compound clause)
    {key : Option String} {place : Slot} (declares : clause.kind.slot? place.name = some place)
    {clauses : List (Shape QueryNode)} (known : AllKnown clauses) {mode : MergeMode}
    (start : ∀ around, (target, around) ∈ sites none query.tree.branches →
      Everywhere (Fits mapping) (within around holder.content)
        (changeSlot place (kept mode) (shapes holder.children)))
    (merged : ((query.withTree middle).clear holder.id mode place.name >>= fun query =>
      query.insertSlots holder.id [.node ⟨key, .slot place⟩ clauses]) = .ok final) :
    final.InScope mapping ∧ ∃ grown ∈ final.tree.live, grown.label = holder.label := by
  have numberedMiddle := grew.numbered inScope.numbered member
  have live := grew.live_new inScope.numbered member
  obtain ⟨around, site⟩ := exists_site_of_live member
  have siteHolder := grew.site_new inScope.numbered site
  obtain ⟨grown, after, rfl, soundAfter, whole, labels, corrected⟩ :=
    mergeSlot_ok sound siteHolder content declares known merged
  rw [show (query.withTree middle).mapping = some mapping from inScope.bound] at corrected
  have liveGrown := whole.live_new numberedMiddle live
  have contentGrown : grown.label.toKeyed.content = .compound clause :=
    (congrArg (·.content) labels).trans content
  have total := grew.trans whole inScope.numbered member
  refine ⟨{ soundAfter with bound := inScope.bound, fits := ?_ }, grown, liveGrown, labels⟩
  refine total.everywhere inScope.numbered member inScope.fits fun other there _ => ?_
  have scope := site_unique inScope.numbered.distinct there site
  subst scope
  have fits := start other there
  rw [content] at fits
  have knownGrown := known_of_holds (formed_of_live soundAfter liveGrown).2
  rw [show grown.content = .compound clause from contentGrown] at knownGrown
  rw [← node_eta grown, shape_node, everywhere_cons, contentGrown]
  exact ⟨fits_compound knownGrown, everywhere_correctClauses clauses known fits corrected, trivial⟩

theorem inScope_mergeSlots (inScope : query.InScope mapping) {holder : Branch QueryNode}
    (member : holder ∈ query.tree.live) {clause : CompoundClause}
    (content : holder.content = .compound clause) {slots : List (Shape QueryNode)}
    (declared : ∀ slot ∈ slots, ∃ place, slot.label.content = .slot place ∧
      clause.kind.slot? place.name = some place)
    (known : AllKnown slots) {mode : MergeMode}
    (merged : query.mergeSlots holder.id mode slots = .ok final) : final.InScope mapping := by
  induction slots generalizing query holder with
  | nil =>
      cases Result.pure_ok.mp merged
      exact inScope
  | cons slot rest ih =>
      rw [List.forall_mem_cons] at declared
      obtain ⟨⟨place, slotted, declares⟩, declaredRest⟩ := declared
      obtain ⟨⟨key, node⟩, clauses⟩ := slot
      cases slotted
      rw [allKnown_cons] at known
      rw [mergeSlots_cons, ← bind_assoc] at merged
      obtain ⟨middle, first, others⟩ := Result.bind_ok.mp merged
      obtain ⟨inScopeMiddle, grown, live, label⟩ := inScope_mergeSlot inScope member
        (Regrown.refl inScope.numbered member) inScope.toSound content declares known.2.1
        (fun around site => by
          have here := inScope.everywhere_below site
          exact everywhere_changeSlot (fun _ => everywhere_kept mode) here) first
      have number : grown.id = holder.id := congrArg (·.id) label
      have same : grown.content = holder.content := congrArg (·.content) label
      exact ih inScopeMiddle live (same.trans content) declaredRest known.2.2 (number ▸ others)

/-- Whether a merge leaves no leaf out of its scope: the target enters no scope, or no other one than
before, or what stands below it goes, or no leaf there is on a field. -/
def Steady (query : Query) (onto : Address) (shape : Shape QueryNode) (mode : MergeMode) : Prop :=
  ∀ target ∈ query.tree.live, query.find onto = .ok target.id →
    ∀ current added, target.content = .compound current → shape.label.content = .compound added →
      current.kind.entersScope = false ∨
        (∀ value, added.body.reverse.lookup "path" = some value → value.string? = current.path?) ∨
        mode = .replaceAll ∨
        (mode = .replace ∧ shape.children ≠ []) ∨
        ∀ node ∈ preorderAll target.children, node.content.field? = none

theorem inScope_mergeBody (inScope : query.InScope mapping) {target : Branch QueryNode}
    (member : target ∈ query.tree.live) {current added : CompoundClause}
    (content : target.content = .compound current) {mode : MergeMode}
    (stays : ∀ around, (target, around) ∈ sites none query.tree.branches →
      Everywhere (Fits mapping) (within around (QueryNode.compound (blend mode current added)))
        (shapes target.children))
    (merged : query.mergeBody target.id current added mode = .ok final) :
    final.InScope mapping ∧ ∃ grown ∈ final.tree.live, grown.id = target.id ∧
      grown.content = .compound (blend mode current added) := by
  obtain ⟨grown, after, rfl, sound, grew, number, body, children⟩ :=
    mergeBody_ok inScope.toSound member content merged
  have live := grew.live_new inScope.numbered member
  refine ⟨{ sound with bound := inScope.bound, fits := ?_ }, grown, live, number, body⟩
  refine grew.everywhere inScope.numbered member inScope.fits fun around site _ => ?_
  have known := known_of_holds (formed_of_live sound live).2
  have keyed : grown.label.toKeyed.content = .compound (blend mode current added) := body
  rw [body] at known
  rw [← node_eta grown, shape_node, everywhere_cons, keyed, children]
  exact ⟨fits_compound known, stays around site, trivial⟩

theorem everywhere_emptied {scope : Option String} {clause : CompoundClause}
    (known : Known (.compound clause)) (enters : clause.kind.entersScope = true) {place : Slot}
    (declares : clause.kind.slot? place.name = some place) {slots : List (Shape QueryNode)}
    (formed : FormedSlots (.compound clause) slots) :
    Everywhere (Fits mapping) scope (changeSlot place (fun _ => []) slots) := by
  have only : ∀ {own : Slot}, clause.kind.slot? own.name = some own → own = queryPlace := by
    intro own found
    rw [QueryKind.eq_nested known enters] at found
    have member := List.mem_of_find?_eq_some found
    simpa [QueryKind.nested, queryPlace] using member
  obtain rfl := only declares
  cases slots with
  | nil => exact (everywhere_slotShape _ _).mpr trivial
  | cons slot rest =>
      obtain ⟨_, ⟨own, content, ownDeclared⟩, apart, formedRest⟩ := formedSlots_cons.mp formed
      obtain rfl := only ownDeclared
      have alone : rest = [] := by
        cases rest with
        | nil => rfl
        | cons second others =>
            obtain ⟨_, ⟨other, otherContent, otherDeclared⟩, _⟩ := formedSlots_cons.mp formedRest
            obtain rfl := only otherDeclared
            simp [content, otherContent] at apart
      subst alone
      have named : isNamed queryPlace.name slot = true := isNamed_iff.mpr ⟨queryPlace, content, rfl⟩
      rw [changeSlot, if_pos named, everywhere_cons, content]
      exact ⟨fits_slot _, trivial, trivial⟩

/-- A clause stays in its scope where the attributes that it gains name no other one. -/
theorem path_blend {mode : MergeMode} (joined : mode ≠ .replaceAll) {current added : CompoundClause}
    (keeps : current.kind.entersScope = false ∨
      ∀ value, added.body.reverse.lookup "path" = some value → value.string? = current.path?) :
    (blend mode current added).path? = current.path? := by
  have kind : (blend mode current added).kind = current.kind := rfl
  rw [CompoundClause.path?, kind, lookup_blend, if_neg joined]
  cases enters : current.kind.entersScope with
  | false => simp [CompoundClause.path?, enters]
  | true =>
      cases named : added.body.reverse.lookup "path" with
      | none => simp [CompoundClause.path?, enters]
      | some value =>
          have same := (keeps.resolve_left (by simp [enters])) value named
          simpa using same

theorem within_blend {mode : MergeMode} {current added : CompoundClause}
    (same : (blend mode current added).path? = current.path?) (around : Option String) :
    within around (QueryNode.compound (blend mode current added)) =
      within around (QueryNode.compound current) := by
  simp only [within, Scoped.boundary?, nestedPath?, same]

section Stages

variable {target : Branch QueryNode} {current added : CompoundClause} {mode : MergeMode}
  {middle : Query} {slots : List (Shape QueryNode)}
  (inScope : query.InScope mapping) (member : target ∈ query.tree.live)
  (content : target.content = .compound current)
  (body : query.mergeBody target.id current added mode = .ok middle)
  (declared : ∀ slot ∈ slots, ∃ place, slot.label.content = .slot place ∧
    current.kind.slot? place.name = some place)
  (known : AllKnown slots) (merged : middle.mergeSlots target.id mode slots = .ok final)

include inScope member content body declared known merged

theorem inScope_of_stays
    (stays : ∀ around, (target, around) ∈ sites none query.tree.branches →
      Everywhere (Fits mapping) (within around (QueryNode.compound (blend mode current added)))
        (shapes target.children)) : final.InScope mapping := by
  obtain ⟨inScopeMiddle, grown, live, number, contentGrown⟩ :=
    inScope_mergeBody inScope member content stays body
  exact inScope_mergeSlots inScopeMiddle live contentGrown declared known (number ▸ merged)

theorem inScope_of_same (same : (blend mode current added).path? = current.path?) :
    final.InScope mapping := by
  refine inScope_of_stays inScope member content body declared known merged fun around site => ?_
  rw [within_blend same, ← content]
  exact inScope.everywhere_below site

theorem inScope_of_replaced (replaces : mode = .replace) (filled : slots ≠ []) :
    final.InScope mapping := by
  by_cases enters : current.kind.entersScope = true
  · obtain ⟨grown, after, rfl, sound, grew, number, contentGrown, children⟩ :=
      mergeBody_ok inScope.toSound member content body
    cases slots with
    | nil => exact absurd rfl filled
    | cons slot rest =>
        rw [List.forall_mem_cons] at declared
        obtain ⟨⟨place, slotted, declares⟩, declaredRest⟩ := declared
        obtain ⟨⟨key, node⟩, clauses⟩ := slot
        cases slotted
        rw [allKnown_cons] at known
        rw [← number, mergeSlots_cons, ← bind_assoc] at merged
        obtain ⟨after', first, others⟩ := Result.bind_ok.mp merged
        have formed := formed_of_live sound (grew.live_new inScope.numbered member)
        rw [contentGrown] at formed
        obtain ⟨inScopeAfter, last, live, label⟩ := inScope_mergeSlot inScope member grew sound
          contentGrown declares known.2.1 (fun around site => by
            subst replaces
            exact everywhere_emptied (known_of_holds formed.2) enters declares formed) first
        have numberLast : last.id = grown.id := congrArg (·.id) label
        have contentLast : last.content = grown.content := congrArg (·.content) label
        exact inScope_mergeSlots inScopeAfter live (contentLast.trans contentGrown) declaredRest
          known.2.2 (numberLast ▸ others)
  · refine inScope_of_same inScope member content body declared known merged ?_
    simp [CompoundClause.path?, blend, enters]

end Stages

theorem inScope_strip (inScope : query.InScope mapping) {target : Branch QueryNode}
    (member : target ∈ query.tree.live) {current : CompoundClause}
    (content : target.content = .compound current)
    (stripped : query.strip target.id .replaceAll = .ok final) :
    final.InScope mapping ∧ .node target.label [] ∈ final.tree.live := by
  obtain ⟨after, rfl, grew⟩ := removeAll_ok inScope.toWhole member stripped
  have known := known_of_holds (formed_of_live inScope.toSound member).2
  rw [content] at known
  have empty : FormedSlots target.content [] := by
    rw [content]
    exact formedSlots_nil known
  refine ⟨{ inScope.toSound.regrown grew member rfl empty with
    bound := inScope.bound, fits := ?_ }, grew.live_new inScope.numbered member⟩
  refine grew.everywhere inScope.numbered member inScope.fits fun around site holds => ?_
  rw [← node_eta target, shape_node, everywhere_cons] at holds
  rw [shape_node, everywhere_cons]
  exact ⟨holds.1, trivial, trivial⟩

/-- A steady merge keeps every leaf in the scope of its field. -/
theorem inScope_mergeOnto (inScope : query.InScope mapping) {onto : Address}
    {shape : Shape QueryNode} (known : AllKnown [shape])
    (declared : ∀ clause, shape.label.content = .compound clause → ∀ slot ∈ shape.children,
      ∃ place, slot.label.content = .slot place ∧ clause.kind.slot? place.name = some place)
    {mode : MergeMode} (steady : query.Steady onto shape mode)
    (merged : query.mergeOnto onto (some shape) mode = .ok final) : final.InScope mapping := by
  obtain ⟨branch, member, found, current, added, content, adding, tags, merged⟩ :=
    (mergeOnto_ok inScope.numbered).mp merged
  obtain ⟨⟨key, node⟩, slots⟩ := shape
  cases adding
  simp only [Result.bind_ok] at merged
  obtain ⟨cleared, emptied, middle, body, merged⟩ := merged
  rw [allKnown_cons] at known
  have holds := known_of_holds (formed_of_live inScope.toSound member).2
  rw [content] at holds
  have same : current.kind = added.kind := kind_of_tag holds known.1 tags
  have declares := same ▸ declared added rfl
  cases mode with
  | replaceAll =>
      obtain ⟨inScopeCleared, live⟩ := inScope_strip inScope member content emptied
      exact inScope_of_stays inScopeCleared live content body declares known.2.1 merged
        fun _ _ => trivial
  | add | replace =>
      cases Result.pure_ok.mp emptied
      rcases steady branch member found current added content rfl with
        plain | same | impossible | ⟨replaces, filled⟩ | fieldless
      · exact inScope_of_same inScope member content body declares known.2.1 merged
          (path_blend (by simp) (.inl plain))
      · exact inScope_of_same inScope member content body declares known.2.1 merged
          (path_blend (by simp) (.inr same))
      · cases impossible
      · exact inScope_of_replaced inScope member content body declares known.2.1 merged replaces
          filled
      · refine inScope_of_stays inScope member content body declares known.2.1 merged
          fun around site => ?_
        exact everywhere_fieldless branch.children fieldless (inScope.everywhere_below site)

end Merging

/-! ### Merges of documents -/

/-- Merging a document onto a clause keeps every leaf, old or new, in the scope of its field, if
the merge is steady. -/
theorem merge_keeps_scopes (steps : List Step)
    (admitted : ∀ edit, Step.edit edit ∈ steps → edit.input.Accepted ∧ edit.input.Registered)
    {query : Query} (ran : steps.foldlM Step.apply {} = .ok query) {mapping : Mapping}
    (bound : query.mapping = some mapping)
    (leaves : ∀ node ∈ query.tree.nodes, ∀ clause field, node.content = .leaf clause →
      clause.field = some field → mapping.nestedAt field = .ok (query.tree.currentScope node.id))
    {json : Json} {options : Options} {onto : Address} (target : options.onto = some onto)
    (steady : ∀ shape, QueryNode.ofJson json = .ok shape →
      query.Steady onto shape (options.mode.getD query.mergeMode))
    {final : Query} (merged : query.insert (.document json) options = .ok final) :
    ∀ node ∈ final.tree.nodes, ∀ clause field, node.content = .leaf clause →
      clause.field = some field →
      mapping.nestedAt field = .ok (final.tree.currentScope node.id) := by
  have inScope := inScope_of_leaves (sound_run steps admitted ran).1 bound leaves
  obtain ⟨incoming, read, merged⟩ := Result.bind_ok.mp merged
  obtain ⟨shape, parsed, rfl⟩ := Result.map_ok.mp read
  cases below : options.below with
  | some address =>
      rw [target, below] at merged
      cases merged
  | none =>
      rw [target, below] at merged
      exact (inScope_mergeOnto inScope (QueryNode.allKnown_ofJson parsed)
        (fun clause => QueryNode.slots_ofJson parsed) (steady shape parsed) merged).leaves

def offersMapping : Mapping :=
  ⟨Tree.ofShape (.node ⟨none, .root []⟩
    [.node ⟨some "roles", .field ⟨"roles", "roles", .nested, [], []⟩⟩
      [.node ⟨some "roles.gender", .field ⟨"gender", "roles.gender", .keyword, [], []⟩⟩ []],
    .node ⟨some "offers", .field ⟨"offers", "offers", .nested, [], []⟩⟩
      [.node ⟨some "offers.price", .field ⟨"price", "offers.price", .float, [], []⟩⟩ []]])⟩

def nestedTerm (path field value : String) : Json :=
  .object [("nested", .object [("path", .string path),
    ("query", .object [("term", .object [(field, .string value)])])])]

def genderSteps : List Step :=
  [.configure (some offersMapping) true .add,
    .edit (.insert (.document (nestedTerm "roles" "roles.gender" "F")) {})]

def leafInScope (mapping : Mapping) (tree : Tree QueryNode) (node : Branch QueryNode) : Bool :=
  match node.content with
  | .leaf clause =>
      match clause.field with
      | some field => (mapping.nestedAt field).toOption = some (tree.currentScope node.id)
      | none => true
  | _ => true

theorem leafInScope_iff {mapping : Mapping} {tree : Tree QueryNode} {node : Branch QueryNode} :
    leafInScope mapping tree node = true ↔ ∀ clause field, node.content = .leaf clause →
      clause.field = some field → mapping.nestedAt field = .ok (tree.currentScope node.id) := by
  cases content : node.content with
  | compound clause => simp [leafInScope, content]
  | slot place => simp [leafInScope, content]
  | leaf clause =>
      cases named : clause.field with
      | none =>
          refine iff_of_true (by simp [leafInScope, content, named]) fun other field same other => ?_
          cases same
          cases named.symm.trans other
      | some field =>
          simp only [leafInScope, content, named, decide_eq_true_eq, Result.toOption_eq_some]
          refine ⟨fun holds other own same ownNamed => ?_, fun holds => holds clause field rfl named⟩
          cases same
          cases named.symm.trans ownNamed
          exact holds

theorem bound_genderSteps {query : Query} (ran : genderSteps.foldlM Step.apply {} = .ok query) :
    query.mapping = some offersMapping := by
  have edits : [Edit.insert (.document (nestedTerm "roles" "roles.gender" "F")) {}].foldlM Edit.apply
      { mapping := some offersMapping } = .ok query := ran
  exact (intact_run (intact_empty (some offersMapping) true .add) _ (by decide +kernel) edits).bound

theorem merge_keeps_scopes_replaced :
    ∃ query final, genderSteps.foldlM Step.apply {} = .ok query ∧
      query.insert (.document (nestedTerm "offers" "offers.price" "1"))
        { onto := some (.id 0), mode := some .replace } = .ok final ∧
      ∀ node ∈ final.tree.nodes, ∀ clause field, node.content = .leaf clause →
        clause.field = some field →
        offersMapping.nestedAt field = .ok (final.tree.currentScope node.id) := by
  have made : (genderSteps.foldlM Step.apply {}).toOption.any (fun query =>
      query.tree.nodes.all (leafInScope offersMapping query.tree) &&
      (query.insert (.document (nestedTerm "offers" "offers.price" "1"))
        { onto := some (.id 0), mode := some .replace }).toOption.any fun _ => true) = true := by
    decide +kernel
  obtain ⟨query, ran, facts⟩ := Result.ok_of_any made
  obtain ⟨before, facts⟩ := Bool.and_eq_true_iff.mp facts
  obtain ⟨final, merged, _⟩ := Result.ok_of_any facts
  have filled : (QueryNode.ofJson (nestedTerm "offers" "offers.price" "1")).toOption.all
      (fun shape => !shape.children.isEmpty) = true := by decide +kernel
  refine ⟨query, final, ran, merged, merge_keeps_scopes genderSteps (by simp [genderSteps, Edit.input,
    Input.Accepted, Input.Registered]) ran (bound_genderSteps ran) (fun node member =>
      leafInScope_iff.mp (List.all_eq_true.mp before node member)) rfl (fun shape parsed => ?_) merged⟩
  rw [parsed] at filled
  refine fun _ _ _ _ _ _ _ => Or.inr (Or.inr (Or.inr (Or.inl ⟨rfl, fun empty => ?_⟩)))
  simp [Except.toOption, empty] at filled

/-- A leaf on a field of one scope is left in the other scope. -/
theorem merge_loses_scope :
    ∃ query final, genderSteps.foldlM Step.apply {} = .ok query ∧
      query.mapping = some offersMapping ∧
      (∀ node ∈ query.tree.nodes, ∀ clause field, node.content = .leaf clause →
        clause.field = some field →
        offersMapping.nestedAt field = .ok (query.tree.currentScope node.id)) ∧
      query.insert (.document (.object [("nested", .object [("path", .string "offers")])]))
        { onto := some (.id 0), mode := some .add } = .ok final ∧
      ¬ ∀ node ∈ final.tree.nodes, ∀ clause field, node.content = .leaf clause →
        clause.field = some field →
        offersMapping.nestedAt field = .ok (final.tree.currentScope node.id) := by
  have made : (genderSteps.foldlM Step.apply {}).toOption.any (fun query =>
      query.tree.nodes.all (leafInScope offersMapping query.tree) &&
      (query.insert (.document (.object [("nested", .object [("path", .string "offers")])]))
        { onto := some (.id 0), mode := some .add }).toOption.any fun final =>
          !final.tree.nodes.all (leafInScope offersMapping final.tree)) = true := by
    decide +kernel
  obtain ⟨query, ran, facts⟩ := Result.ok_of_any made
  obtain ⟨before, facts⟩ := Bool.and_eq_true_iff.mp facts
  obtain ⟨final, merged, lost⟩ := Result.ok_of_any facts
  refine ⟨query, final, ran, bound_genderSteps ran, fun node member => ?_, merged, fun kept => ?_⟩
  · exact leafInScope_iff.mp (List.all_eq_true.mp before node member)
  · simp only [Bool.not_eq_true', List.all_eq_false] at lost
    obtain ⟨node, member, out⟩ := lost
    exact out (leafInScope_iff.mpr (kept node member))

end Query

end ScopedClauses
