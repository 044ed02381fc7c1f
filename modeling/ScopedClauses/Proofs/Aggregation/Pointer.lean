import ScopedClauses.Proofs.Aggregation.Overtaking

/-!
The grouping pointer. It designates a live node after any run. That node is the request or a
bucket, unless a declaration without clauses was grouped at an aggregation that is no bucket.
-/

namespace ScopedClauses

namespace Aggregations

open Rose Tree

def Hosting (tree : Tree AggNode) (id : Nat) : Prop :=
  ∃ node ∈ tree.nodes, node.id = id ∧
    (tree.rootId? = some id ∨ node.content.isBucket = true)

def Usable (aggs : Aggregations) : Prop :=
  ∀ id, aggs.grouping = some id → Hosting aggs.tree id

structure Founded (tree : Tree AggNode) : Prop extends Sound tree where
  request : ∃ entry ∈ entries tree.branches, entry.key = none ∧ entry.content = .root
  clauses : ∀ entry ∈ entries tree.branches, entry.content = .root → entry.key = none

section Founded

variable {aggs final : Aggregations} {parent last : Nat}

theorem founded_empty (mapping : Option Mapping) (autocorrect : Bool) :
    Founded ({ mapping := mapping, autocorrect := autocorrect } : Aggregations).tree := by
  refine ⟨(sound_empty mapping autocorrect).1, ⟨⟨⟨none, .root⟩, 0⟩, ?_, rfl, rfl⟩, ?_⟩
  · rw [branches_empty]
    simp
  · rw [branches_empty]
    simp

theorem Founded.rootId? {tree : Tree AggNode} (founded : Founded tree) :
    ∃ entry ∈ entries tree.branches, entry.key = none ∧ entry.content = .root ∧
      tree.rootId? = some entry.id := by
  obtain ⟨entry, listed, unnamed, holds⟩ := founded.request
  exact ⟨entry, listed, unnamed, holds, founded.named entry listed unnamed⟩

theorem Founded.insertShapes (founded : Founded aggs.tree)
    (live : parent ∈ numbers aggs.tree.branches) {shapes : List (Shape AggNode)}
    (made : aggs.insertShapes parent shapes = .ok final) :
    Founded final.tree ∧ ∃ new, Filled aggs parent shapes final new := by
  obtain ⟨new, filled⟩ := filled_insertShapes shapes founded.toWhole live made
  refine ⟨⟨(names_insertShapes shapes founded.toSound made).1, ?_, fun entry listed holds => ?_⟩,
    new, filled⟩
  · obtain ⟨entry, listed, request⟩ := founded.request
    exact ⟨entry, filled.added.entries.mem_iff.mpr (List.mem_append_left _ listed), request⟩
  · rcases List.mem_append.mp (filled.added.entries.subset listed) with old | fresh
    · exact founded.clauses entry old holds
    · have clause := filled.copies.clause? (clauses_insertShapes shapes made) entry fresh
      rw [holds] at clause
      cases clause

theorem Founded.insertChain (founded : Founded aggs.tree)
    (live : parent ∈ numbers aggs.tree.branches) {chain : List (Shape AggNode)}
    (made : aggs.insertChain parent chain = .ok (last, final)) : Founded final.tree := by
  obtain ⟨line, _, taken⟩ := overtaken_insertChain founded.toWhole live made
  refine ⟨(names_insertChain founded.toSound made).1, ?_, fun entry listed holds => ?_⟩
  · obtain ⟨entry, listed, unnamed, holds⟩ := founded.request
    obtain ⟨branch, member, rfl⟩ := List.mem_map.mp listed
    obtain ⟨outward, way, _⟩ := lineage_of_mem founded.numbered.distinct member
    rcases taken.fate branch.id branch.label outward way with ⟨further, kept⟩ | ⟨_, path, marks, _⟩
    · obtain ⟨found, there, same⟩ := exists_of_mem_lineage (kept ▸ List.mem_cons_self)
      exact ⟨branch.label, List.mem_map.mpr ⟨found, there, same⟩, unnamed, holds⟩
    · rw [holds] at marks
      cases marks
  · rcases taken.kinds entry listed with old | clause
    · exact founded.clauses entry old holds
    · rw [holds] at clause
      cases clause

end Founded

/-! ### Targets -/

mutual

theorem host_chainEnd : ∀ branch : Branch AggNode, ∃ inner ∈ preorderAll [branch],
    inner.id = (chainEnd branch).id ∧ (inner = branch ∨ inner.content.isBucket = true)
  | .node label below => by
      rw [chainEnd]
      split
      · rename_i only alone
        obtain ⟨inner, within, same, bucket⟩ :=
          host_bucketEnds below only (alone ▸ List.mem_singleton_self only)
        exact ⟨inner, by simp [within], same, Or.inr bucket⟩
      · exact ⟨.node label below, self_mem _, rfl, Or.inl rfl⟩

theorem host_bucketEnds : ∀ branches : List (Branch AggNode), ∀ last ∈ bucketEnds branches,
    ∃ inner ∈ preorderAll branches, inner.id = last.id ∧ inner.content.isBucket = true
  | [], _, listed => by cases listed
  | branch :: rest, last, listed => by
      rw [← List.singleton_append, preorderAll_append]
      rw [bucketEnds] at listed
      split at listed
      · rename_i bucket
        rcases List.mem_cons.mp listed with rfl | later
        · obtain ⟨inner, within, same, either⟩ := host_chainEnd branch
          exact ⟨inner, List.mem_append_left _ within, same,
            either.elim (fun here => here ▸ bucket) fun inside => inside⟩
        · obtain ⟨inner, within, found⟩ := host_bucketEnds rest last later
          exact ⟨inner, List.mem_append_right _ within, found⟩
      · obtain ⟨inner, within, found⟩ := host_bucketEnds rest last listed
        exact ⟨inner, List.mem_append_right _ within, found⟩

end

section Targets

variable {aggs final : Aggregations} {name : String} {id target : Nat}

theorem deepestBucket_hosting (made : aggs.deepestBucket = .ok target) :
    Hosting aggs.tree target := by
  unfold deepestBucket at made
  split at made
  · cases made
  · rename_i root rooted
    dsimp only at made
    split at made
    · cases Result.pure_ok.mp made
      obtain ⟨inner, within, same, either⟩ := host_chainEnd root
      refine ⟨inner, ?_, same, either.imp (fun here => ?_) fun bucket => bucket⟩
      · rw [nodes, rooted]
        exact within
      · rw [rootId?, rooted, ← same, here]
        rfl
    · cases made

theorem named_of_idOf (found : aggs.idOf name = .ok id) :
    ∃ node ∈ aggs.tree.nodes, node.id = id ∧ node.key = some name := by
  unfold idOf at found
  split at found
  · rename_i number known
    cases Result.pure_ok.mp found
    rw [findByKey?, Option.map_eq_some_iff] at known
    obtain ⟨node, here, same⟩ := known
    exact ⟨node, List.mem_of_find?_eq_some here, same, by simpa using List.find?_some here⟩
  · cases found

theorem hosting_named (founded : Founded aggs.tree) {node : Branch AggNode}
    (member : node ∈ aggs.tree.nodes) (named : node.key = some name) :
    Hosting aggs.tree node.id ↔ node.content.isBucket = true := by
  have distinct := founded.numbered.distinct
  refine ⟨fun ⟨other, present, same, either⟩ => ?_, fun bucket => ⟨node, member, rfl, Or.inr bucket⟩⟩
  rw [nodes_eq_live founded.settled] at member present
  obtain rfl := eq_of_id distinct present member same
  refine either.resolve_left fun rooted => ?_
  obtain ⟨entry, listed, unnamed, _, top⟩ := founded.rootId?
  obtain ⟨branch, live, rfl⟩ := List.mem_map.mp listed
  rw [rooted] at top
  obtain rfl := eq_of_id distinct present live (Option.some.inj top)
  cases named.symm.trans unnamed

theorem clause_named (founded : Founded aggs.tree) {node : Branch AggNode}
    (member : node ∈ aggs.tree.nodes) (named : node.key = some name)
    (found : aggs.idOf name = .ok node.id) :
    ∃ content, aggs.clause name = .ok content ∧ node.content = .clause content := by
  rw [nodes_eq_live founded.settled] at member
  cases holds : node.content with
  | root =>
      have unnamed := founded.clauses node.label (List.mem_map_of_mem member) holds
      cases named.symm.trans unnamed
  | clause content =>
      refine ⟨content, ?_, rfl⟩
      have held : aggs.tree.get node.id = .ok (.clause content) := by
        rw [Tree.get, Tree.find, find?_of_live founded.numbered member, ← holds]
        rfl
      rw [clause, found, Result.bind_ok]
      exact ⟨node.id, rfl, by rw [held]; rfl⟩

end Targets

/-! ### Operations -/

structure Anchored (aggs : Aggregations) : Prop extends Founded aggs.tree where
  pointer : ∀ id, aggs.grouping = some id → id ∈ numbers aggs.tree.branches

section Operations

variable {aggs final : Aggregations} {parent last target : Nat} {below : Option String}

theorem Hosting.live {tree : Tree AggNode} {id : Nat} (hosting : Hosting tree id)
    (settled : tree.detached = []) : id ∈ numbers tree.branches := by
  obtain ⟨node, member, rfl, _⟩ := hosting
  rw [nodes_eq_live settled] at member
  exact id_mem_numbers member

theorem Anchored.target_live (anchored : Anchored aggs) (aimed : aggs.target below = .ok target) :
    target ∈ numbers aggs.tree.branches := by
  unfold Aggregations.target at aimed
  split at aimed
  · obtain ⟨node, member, rfl, _⟩ := named_of_idOf aimed
    rw [nodes_eq_live anchored.settled] at member
    exact id_mem_numbers member
  · rename_i pointer set
    cases Result.pure_ok.mp aimed
    exact anchored.pointer _ set
  · exact (deepestBucket_hosting aimed).live anchored.settled

theorem target_hosting (usable : Usable aggs) (aimed : aggs.target none = .ok target) :
    Hosting aggs.tree target := by
  unfold Aggregations.target at aimed
  split at aimed
  · rename_i absent
    cases absent
  · rename_i pointer set
    cases Result.pure_ok.mp aimed
    exact usable _ set
  · exact deepestBucket_hosting aimed

theorem Hosting.filled {id : Nat} (hosting : Hosting aggs.tree id) (founded : Founded aggs.tree)
    (after : Founded final.tree) {shapes : List (Shape AggNode)} {new : List (Entry AggNode)}
    (filled : Filled aggs parent shapes final new) : Hosting final.tree id := by
  obtain ⟨node, member, rfl, either⟩ := hosting
  have listed := filled.added.nodes_perm founded.settled after.settled
  obtain ⟨kept, there, same⟩ := List.mem_map.mp
    (listed.mem_iff.mpr (List.mem_append_left _ (List.mem_map_of_mem member)))
  refine ⟨kept, there, congrArg Entry.id same, either.imp (fun rooted => ?_) fun bucket => ?_⟩
  · obtain ⟨entry, present, unnamed, _, top⟩ := founded.rootId?
    rw [← Option.some.inj (top.symm.trans rooted)]
    exact after.named entry
      (filled.added.entries.mem_iff.mpr (List.mem_append_left _ present)) unnamed
  · rw [content, same]
    exact bucket

theorem buckets_insertChain {chain : List (Shape AggNode)}
    (made : aggs.insertChain parent chain = .ok (last, final)) :
    ∀ shape ∈ chain, shape.label.content.isBucket = true := by
  induction chain generalizing aggs parent with
  | nil => exact fun _ none => by cases none
  | cons shape rest ih =>
      obtain ⟨inserted, middle, _, later⟩ := insertChain_ok made
      refine List.forall_mem_cons.mpr ⟨?_, ih later⟩
      rw [insertChain] at made
      split at made
      · cases made
      · rename_i bucket
        simpa using bucket

theorem hosting_insertChain (founded : Founded aggs.tree) {chain : List (Shape AggNode)}
    (more : chain ≠ []) (made : aggs.insertChain parent chain = .ok (last, final)) :
    Hosting final.tree last := by
  obtain ⟨line, labels, taken⟩ :=
    overtaken_insertChain founded.toWhole (live_of_insertChain more made) made
  obtain ⟨entry, ends, same⟩ := taken.getLast? more labels
  have listed := List.mem_of_getLast? ends
  obtain ⟨node, member, rfl⟩ := exists_of_mem_lineage (taken.inserted entry listed).1
  have known : node.label.toKeyed ∈ chain.map Rose.label := labels ▸ List.mem_map_of_mem listed
  obtain ⟨shape, present, alike⟩ := List.mem_map.mp known
  refine ⟨node, ?_, same, Or.inr ?_⟩
  · rw [nodes_eq_live taken.whole.settled]
    exact member
  · have bucket := buckets_insertChain made shape present
    rw [alike] at bucket
    exact bucket

theorem founded_ofJson {json : Json} {mapping : Option Mapping}
    (made : Aggregations.ofJson json mapping = .ok final) :
    Founded final.tree ∧ final.grouping = none := by
  obtain ⟨request, _, inserted⟩ := ofJson_ok made
  obtain ⟨founded, new, filled⟩ := (founded_empty mapping true).insertShapes
    (by rw [branches_empty]; simp) inserted
  exact ⟨founded, by rw [filled.same]; rfl⟩

theorem founded_add (founded : Founded aggs.tree) {input : Input}
    (made : aggs.add input below = .ok final) :
    Founded final.tree ∧ final.grouping = aggs.grouping ∧
      ∃ parent shapes new, Filled aggs parent shapes final new := by
  obtain ⟨request, _, holder, member, _, inserted⟩ := add_live made
  obtain ⟨after, new, filled⟩ := founded.insertShapes (id_mem_numbers member) inserted
  exact ⟨after, by rw [filled.same]; rfl, holder.id, clausesOf request, new, filled⟩

theorem anchored_apply (anchored : Anchored aggs) {operation : Operation}
    (applied : operation.apply aggs = .ok final) : Anchored final := by
  cases operation with
  | ofJson json =>
      obtain ⟨founded, unset⟩ := founded_ofJson applied
      refine ⟨founded, fun id set => ?_⟩
      rw [unset] at set
      cases set
  | add input below =>
      obtain ⟨founded, same, _, _, _, filled⟩ := founded_add anchored.toFounded applied
      refine ⟨founded, fun id set => ?_⟩
      rw [same] at set
      exact filled.added.mem_numbers_iff.mpr (Or.inl (anchored.pointer id set))
  | groupBy input below =>
      obtain ⟨request, target, _, aimed, made⟩ := groupBy_ok applied
      have live := anchored.target_live aimed
      rcases made with ⟨_, rfl⟩ | ⟨last, moved, made, rfl⟩
      · exact anchored
      · obtain ⟨line, _, taken⟩ := overtaken_insertChain anchored.toWhole live made
        have founded := anchored.toFounded.insertChain live made
        refine ⟨founded, fun id set => ?_⟩
        cases set
        exact taken.below.inner_mem
  | groupedBy name =>
      obtain ⟨id, found, rfl⟩ := groupedBy_ok applied
      obtain ⟨node, member, rfl, _⟩ := named_of_idOf found
      rw [nodes_eq_live anchored.settled] at member
      refine ⟨anchored.toFounded, fun id set => ?_⟩
      cases set
      exact id_mem_numbers member

/-- Whether an operation leaves the pointer where aggregations can go: it does, but for the
grouping of a declaration without clauses at an aggregation that is no bucket. -/
def Operation.eligible (aggs : Aggregations) : Operation → Bool
  | .groupBy input (some name) =>
      match input.read, aggs.clause name with
      | .ok (some request), .ok clause => !request.children.isEmpty || clause.kind.isBucket
      | _, _ => true
  | _ => true

def eligibleRun (aggs : Aggregations) : List Operation → Bool
  | [] => true
  | operation :: rest =>
      operation.eligible aggs &&
        match operation.apply aggs with
        | .error _ => true
        | .ok next => eligibleRun next rest

theorem groupedBy_hosting (founded : Founded aggs.tree) {name : String}
    (made : aggs.groupedBy name = .ok final) :
    ∃ id, final = { aggs with grouping := some id } ∧ Hosting aggs.tree id := by
  simp only [groupedBy, Result.bind_ok, Result.pure_ok] at made
  obtain ⟨id, found, _, ensured, rfl⟩ := made
  obtain ⟨node, member, rfl, named⟩ := named_of_idOf found
  obtain ⟨content, clause, holds⟩ := clause_named founded member named found
  refine ⟨node.id, rfl, (hosting_named founded member named).mpr ?_⟩
  obtain ⟨held, got, hosts⟩ := Result.bind_ok.mp ensured
  obtain ⟨branch, live, same, rfl⟩ := live_of_get got
  rw [nodes_eq_live founded.settled] at member
  obtain rfl := eq_of_id founded.numbered.distinct member live same.symm
  rw [holds] at hosts ⊢
  rw [AggNode.ensureHolds] at hosts
  split at hosts
  · assumption
  · cases hosts

theorem groupBy_none {input : Input} (read : input.read = .ok none)
    (made : aggs.groupBy input below = .ok final) : final = aggs := by
  simp only [groupBy, read, Result.bind_ok] at made
  obtain ⟨_, same, _, _, made⟩ := made
  cases same
  exact (Result.pure_ok.mp made).symm

theorem groupBy_some {input : Input} {shape : Shape AggNode} (read : input.read = .ok (some shape))
    (made : aggs.groupBy input below = .ok final) :
    ∃ target last moved, aggs.target below = .ok target ∧
      aggs.insertChain target shape.children = .ok (last, moved) ∧
        final = { moved with grouping := some last } := by
  simp only [groupBy, read, Result.bind_ok] at made
  obtain ⟨_, same, target, aimed, made⟩ := made
  cases same
  obtain ⟨⟨last, moved⟩, inserted, made⟩ := Result.bind_ok.mp made
  exact ⟨target, last, moved, aimed, inserted, (Result.pure_ok.mp made).symm⟩

/-- Grouping leaves the pointer at the request or a bucket just if it is eligible. -/
theorem usable_groupBy (anchored : Anchored aggs) (usable : Usable aggs) {input : Input}
    (made : aggs.groupBy input below = .ok final) :
    Usable final ↔ (Operation.groupBy input below).eligible aggs = true := by
  obtain ⟨request, _, read, _⟩ := groupBy_ok made
  cases request with
  | none =>
      rw [groupBy_none read made]
      refine iff_of_true usable ?_
      cases below <;> simp [Operation.eligible, read]
  | some shape =>
      obtain ⟨target, last, moved, aimed, inserted, rfl⟩ := groupBy_some read made
      cases clauses : shape.children with
      | cons first rest =>
          have hosting : Hosting moved.tree last :=
            hosting_insertChain anchored.toFounded (by simp [clauses]) inserted
          refine iff_of_true (fun id set => ?_) ?_
          · cases set
            exact hosting
          · cases below with
            | none => rfl
            | some name =>
                cases held : aggs.clause name <;> simp [Operation.eligible, read, held, clauses]
      | nil =>
          -- nothing was inserted, so the pointer is at the target, whatever it is
          rw [clauses] at inserted
          cases Result.pure_ok.mp inserted
          have pointed : Usable { aggs with grouping := some target } ↔ Hosting aggs.tree target :=
            ⟨fun holds => holds target rfl, fun hosting id set => by
              cases set
              exact hosting⟩
          cases below with
          | none => exact iff_of_true (pointed.mpr (target_hosting usable aimed)) rfl
          | some name =>
              obtain ⟨node, member, rfl, named⟩ := named_of_idOf aimed
              obtain ⟨content, held, holds⟩ := clause_named anchored.toFounded member named aimed
              rw [pointed, hosting_named anchored.toFounded member named, holds]
              simp [Operation.eligible, read, held, clauses, AggNode.isBucket, AggNode.clause?]

theorem usable_apply (anchored : Anchored aggs) (usable : Usable aggs) {operation : Operation}
    (applied : operation.apply aggs = .ok final) :
    Usable final ↔ operation.eligible aggs = true := by
  cases operation with
  | ofJson json =>
      refine iff_of_true (fun id set => ?_) rfl
      rw [(founded_ofJson applied).2] at set
      cases set
  | add input below =>
      refine iff_of_true (fun id set => ?_) rfl
      obtain ⟨after, same, _, _, _, filled⟩ := founded_add anchored.toFounded applied
      rw [same] at set
      exact (usable id set).filled anchored.toFounded after filled
  | groupBy input below => exact usable_groupBy anchored usable applied
  | groupedBy name =>
      obtain ⟨id, rfl, hosting⟩ := groupedBy_hosting anchored.toFounded applied
      refine iff_of_true (fun other set => ?_) rfl
      cases set
      exact hosting

theorem pointer_run (anchored : Anchored aggs) (operations : List Operation)
    (ran : operations.foldlM Operation.apply aggs = .ok final) :
    Anchored final ∧ (Usable aggs → eligibleRun aggs operations = true → Usable final) := by
  induction operations generalizing aggs with
  | nil =>
      cases Result.pure_ok.mp ran
      exact ⟨anchored, fun usable _ => usable⟩
  | cons operation rest ih =>
      rw [List.foldlM_cons] at ran
      obtain ⟨middle, applied, later⟩ := Result.bind_ok.mp ran
      obtain ⟨ends, keeps⟩ := ih (anchored_apply anchored applied) later
      refine ⟨ends, fun usable eligible => ?_⟩
      rw [eligibleRun, applied, Bool.and_eq_true] at eligible
      exact keeps ((usable_apply anchored usable applied).mpr eligible.1) eligible.2

/-- After any run the grouping pointer, if it is set, designates a node in the tree. It is the
request or a bucket if every operation was eligible, and a further operation keeps it so only
then. -/
theorem pointer_usable (mapping : Option Mapping) (autocorrect : Bool)
    (operations : List Operation) (ran : operations.foldlM Operation.apply
      { mapping := mapping, autocorrect := autocorrect } = .ok final) :
    (∀ id, final.grouping = some id → ∃ node ∈ final.tree.nodes, node.id = id) ∧
    (eligibleRun { mapping := mapping, autocorrect := autocorrect } operations = true →
      Usable final) ∧
    ∀ (operation : Operation) (next : Aggregations), operation.apply final = .ok next →
      Usable final → (Usable next ↔ operation.eligible final = true) := by
  have start : Anchored { mapping := mapping, autocorrect := autocorrect } :=
    ⟨founded_empty mapping autocorrect, fun id set => by cases set⟩
  obtain ⟨anchored, keeps⟩ := pointer_run start operations ran
  refine ⟨fun id set => ?_, keeps (fun id set => by cases set),
    fun operation next applied usable => usable_apply anchored usable applied⟩
  obtain ⟨node, member, same⟩ := exists_of_mem_numbers (anchored.pointer id set)
  rw [nodes_eq_live anchored.settled]
  exact ⟨node, member, same⟩

end Operations

def groupedPrices : List Operation :=
  [.add (.named "prices" "histogram" (.object [("field", .string "price")])) none,
    .groupBy (genderTerms "by_gender") none, .groupedBy "prices",
    .groupBy (.declaration (.object [])) (some "by_gender")]

theorem pointer_usable_gender :
    ∃ final, groupedPrices.foldlM Operation.apply { mapping := some castMapping } = .ok final ∧
      final.groupingName? = some "by_gender" ∧ Usable final := by
  have outcome : (groupedPrices.foldlM Operation.apply { mapping := some castMapping }
      ).toOption.any (fun final => decide (final.groupingName? = some "by_gender")) = true := by
    decide +kernel
  have eligible : eligibleRun { mapping := some castMapping } groupedPrices = true := by
    decide +kernel
  obtain ⟨final, ran, named⟩ := Result.ok_of_any outcome
  obtain ⟨_, usable, _⟩ := pointer_usable (some castMapping) true groupedPrices ran
  exact ⟨final, ran, of_decide_eq_true named, usable eligible⟩

def groupedNothing : List Operation :=
  [.add (.declaration (.object [("m", .object [("avg", .object [("field", .string "x")])])])) none,
    .groupBy (.declaration (.object [])) (some "m")]

/-- Grouping nothing at a metric leaves the pointer there. -/
theorem pointer_strays :
    ∃ final, groupedNothing.foldlM Operation.apply {} = .ok final ∧
      final.groupingName? = some "m" ∧ ¬Usable final := by
  have outcome : (groupedNothing.foldlM Operation.apply {}).toOption.any (fun final =>
      decide (final.groupingName? = some "m") && decide (final.grouping = some 1) &&
        decide (final.tree.rootId? = some 0) &&
        decide (∀ node ∈ final.tree.nodes, node.id = 1 → node.content.isBucket = false)) = true := by
    decide +kernel
  obtain ⟨final, ran, outcome⟩ := Result.ok_of_any outcome
  simp only [Bool.and_eq_true, decide_eq_true_eq] at outcome
  obtain ⟨⟨⟨named, pointer⟩, rooted⟩, plain⟩ := outcome
  refine ⟨final, ran, named, fun usable => ?_⟩
  obtain ⟨node, member, same, either⟩ := usable 1 pointer
  rw [rooted, plain node member same] at either
  simp at either

end Aggregations

end ScopedClauses
