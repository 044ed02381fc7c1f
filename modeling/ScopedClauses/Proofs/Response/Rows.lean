import ScopedClauses.Proofs.Response.Parsing
import ScopedClauses.Response.Table

/-!
The rows of a table. The nodes from a node of a response outwards answer, one by one, those of the
request outwards from the aggregation that made it. So the names that are taken from the request and
the keys that are taken from the response for the index of a row come in the same places.
-/

namespace ScopedClauses

open Rose Tree

theorem eq_of_nodup_filterMap {view : α → Option β} {items : List α}
    (distinct : (items.filterMap view).Nodup) {first second : α} (here : first ∈ items)
    (there : second ∈ items) {shown : β} (seen : view first = some shown)
    (again : view second = some shown) : first = second := by
  induction items with
  | nil => cases here
  | cons item rest ih =>
      -- what is shown at the head is not shown again
      have apart : view item = some shown → ∀ later ∈ rest, view later ≠ some shown := by
        intro head later listed seen
        rw [List.filterMap_cons_some head, List.nodup_cons] at distinct
        exact distinct.1 (List.mem_filterMap.mpr ⟨later, listed, seen⟩)
      have inside := distinct.sublist ((List.sublist_cons_self item rest).filterMap view)
      rcases List.mem_cons.mp here with rfl | early <;> rcases List.mem_cons.mp there with rfl | late
      · rfl
      · exact absurd again (apart seen second late)
      · exact absurd seen (apart again first early)
      · exact ih inside early late

namespace Response

open ResponseNode Aggregations

variable {aggs : Aggregations} {raw object : Json} {response : Response}
  {node : Branch ResponseNode} {branch : Branch AggNode}

/-! ### Nodes and what they answer -/

theorem isAt_iff {node : ResponseNode} {name : String} :
    node.isAt name = true ↔ node.bucket?.map Bucket.level = some name := by
  cases node <;> simp [isAt, bucket?]

/-- A node of a response beside the one of the request that it answers: the root beside the root, and
else a bucket or value at the level of an aggregation, with a key if this one lists buckets. -/
inductive Counterpart : Branch ResponseNode → Branch AggNode → Prop where
  | root {node : Branch ResponseNode} {branch : Branch AggNode} :
      node.content = .root → branch.key = none → Counterpart node branch
  | bucket {node : Branch ResponseNode} {branch : Branch AggNode} {bucket : Bucket}
      {clause : AggClause} :
      node.content = .bucket bucket → branch.key = some bucket.level →
      branch.content = .clause clause → bucket.key.isSome = clause.kind.isMultiBucket →
      Counterpart node branch

theorem Counterpart.isAt_iff_key (beside : Counterpart node branch) (name : String) :
    node.content.isAt name = true ↔ branch.key = some name := by
  cases beside with
  | root content unnamed => simp [isAt_iff, content, unnamed, bucket?]
  | bucket content named => simp [isAt_iff, content, named, bucket?]

theorem counterpart_of_made (posed : Posed aggs) (parsed : Response.ofJson aggs raw = .ok response)
    (made : Made aggs raw response node branch object) : Counterpart node branch := by
  cases made with
  | root rooted requested =>
      obtain ⟨_, nodes, tree⟩ := tree_of_parsed parsed
      rw [tree] at rooted
      cases rooted
      exact .root rfl (posed.root_key requested)
  | child above listed named content holds paired =>
      obtain ⟨⟨bucket, held, level, _, key, _⟩, _⟩ :=
        (read_made posed parsed above).shows_part posed listed named content holds paired
      refine .bucket held (level ▸ named) content ?_
      rw [key]
      exact holds.isSome_key (List.of_mem_zip paired).1

structure Answered (aggs : Aggregations) (raw : Json) (response : Response) : Prop
    extends Posed aggs where
  request : response.aggs = aggs
  numberedNodes : response.tree.Numbered
  topped : ∃ top, response.tree.root = some top
  every : ∀ node ∈ response.tree.nodes, ∃ branch object, Made aggs raw response node branch object
  read : ∀ {node branch object}, Made aggs raw response node branch object →
    Read aggs response node branch object
  beside : ∀ {node branch object}, Made aggs raw response node branch object →
    Counterpart node branch

theorem answered_run (mapping : Option Mapping) (autocorrect : Bool) (operations : List Operation)
    (ran : operations.foldlM Operation.apply { mapping := mapping, autocorrect := autocorrect } =
      .ok aggs)
    (distinct : (aggs.tree.nodes.filterMap Rose.key).Nodup)
    (parsed : Response.ofJson aggs raw = .ok response) : Answered aggs raw response := by
  have posed := posed_run mapping autocorrect operations ran distinct
  obtain ⟨same, nodes, tree⟩ := tree_of_parsed parsed
  have topped : ∃ top, response.tree.root = some top := by
    rw [tree]
    exact ⟨_, rfl⟩
  exact ⟨posed, same, tree ▸ numbered_ofShape _, topped, made_nodes posed parsed,
    read_made posed parsed, counterpart_of_made posed parsed⟩

namespace Answered

variable (answered : Answered aggs raw response)

include answered

theorem outward (made : Made aggs raw response node branch object) :
    List.Forall₂ Counterpart (response.tree.ancestry node.id) (aggs.tree.ancestry branch.id) := by
  induction made with
  | root rooted requested =>
      rw [ancestry_of_root answered.numberedNodes rooted,
        ancestry_of_root answered.numbered requested]
      exact .cons (answered.beside (.root rooted requested)) .nil
  | child above listed named content holds paired ih =>
      have inside := List.mem_of_mem_filter (List.of_mem_zip paired).2
      have read := answered.read above
      obtain ⟨outward, way, ways⟩ := ancestry_of_live answered.numberedNodes read.nodeLive
      obtain ⟨around, path, paths⟩ := ancestry_of_live answered.numbered read.branchLive
      rw [way, path] at ih
      rw [ways _ inside, paths _ listed]
      exact .cons (answered.beside (.child above listed named content holds paired)) ih

theorem eq_of_key {first second : Branch AggNode} (here : first ∈ aggs.tree.nodes)
    (there : second ∈ aggs.tree.nodes) {name : String} (named : first.key = some name)
    (again : second.key = some name) : first = second :=
  eq_of_nodup_filterMap (names_eq answered.settled ▸ answered.distinct) here there named again

theorem branch_mem_nodes (made : Made aggs raw response node branch object) :
    branch ∈ aggs.tree.nodes :=
  nodes_eq_live answered.settled ▸ (answered.read made).branchLive

theorem levels_nodup (made : Made aggs raw response node branch object) :
    (response.levels node.id).Nodup := by
  have member := answered.branch_mem_nodes made
  have once := lineage_nodup answered.numbered.distinct branch.id
  rw [lineage, List.map_map, List.Nodup, List.pairwise_map] at once
  rw [(answered.read made).levels]
  refine List.pairwise_filterMap.mpr (once.imp_of_mem ?_)
  rintro first second here there differ name named other again rfl
  have same := answered.eq_of_key (mem_nodes_of_ancestry member here)
    (mem_nodes_of_ancestry member there) named again
  exact differ (congrArg (Entry.id ∘ Rose.label) same)

end Answered

/-! ### Indices -/

/-- Whether an entry of an index stands for a level. Among a node and those around it one is at
the level; the entry is its key, which is null where the aggregation makes a single bucket. -/
def KeyAt (response : Response) (id : Nat) (level : String) (entry : Json) : Prop :=
  ∃ around ∈ response.tree.ancestry id, ∃ bucket clause, around.content = .bucket bucket ∧
    bucket.level = level ∧
    (∀ other ∈ response.tree.ancestry id, other.content.isAt level = true → other = around) ∧
    (∃ above ∈ response.aggs.tree.nodes, above.key = some level ∧ above.content = .clause clause) ∧
    bucket.key.isSome = clause.kind.isMultiBucket ∧ entry = Json.ofOption bucket.key

def indexName? (options : TableOptions) (branch : Branch AggNode) : Option String := do
  let content ← branch.content.clause?
  if content.kind.isMultiBucket ||
      content.kind.isSingleBucket && options.config.includeSingleBucket then branch.key
  else none

def indexKey? (names : List String) (node : Branch ResponseNode) : Option Json := do
  let bucket ← node.content.bucket?
  if names.contains bucket.level then some (Json.ofOption bucket.key) else none

theorem indexNames_eq (response : Response) (options : TableOptions) (grouping : Nat) :
    response.indexNames options grouping =
      (response.aggs.tree.ancestry grouping).reverse.filterMap (indexName? options) := rfl

theorem rowIndex_eq (response : Response) (names : List String) (id : Nat) :
    response.rowIndex names id =
      (response.tree.ancestry id).reverse.filterMap (indexKey? names) := rfl

theorem key_of_indexName? {options : TableOptions} {name : String}
    (listed : indexName? options branch = some name) : branch.key = some name := by
  rw [indexName?] at listed
  obtain ⟨content, _, shown⟩ := Option.bind_eq_some_iff.mp listed
  split at shown
  · exact shown
  · cases shown

theorem indexName?_unnamed {options : TableOptions} (unnamed : branch.key = none) :
    indexName? options branch = none := by
  rw [← Option.not_isSome_iff_eq_none, Option.isSome_iff_exists]
  rintro ⟨name, listed⟩
  rw [key_of_indexName? listed] at unnamed
  cases unnamed

theorem indexKey?_root {names : List String} (content : node.content = .root) :
    indexKey? names node = none := by
  rw [indexKey?, content]
  rfl

theorem indexKey?_bucket {names : List String} {bucket : Bucket}
    (content : node.content = .bucket bucket) : indexKey? names node =
      if names.contains bucket.level then some (Json.ofOption bucket.key) else none := by
  rw [indexKey?, content]
  rfl

namespace Answered

variable (answered : Answered aggs raw response)

include answered

/-- A name is in the index where the aggregation of that name on the way outwards adds it. -/
theorem mem_indexNames (made : Made aggs raw response node branch object) (options : TableOptions)
    {above : Branch AggNode} (onWay : above ∈ aggs.tree.ancestry branch.id) {name : String}
    (named : above.key = some name) :
    name ∈ response.indexNames options branch.id ↔ indexName? options above = some name := by
  rw [indexNames_eq, answered.request, List.mem_filterMap]
  constructor
  · rintro ⟨other, passed, listed⟩
    have member := answered.branch_mem_nodes made
    rwa [← answered.eq_of_key (mem_nodes_of_ancestry member (List.mem_reverse.mp passed))
      (mem_nodes_of_ancestry member onWay) (key_of_indexName? listed) named]
  · exact fun listed => ⟨above, List.mem_reverse.mpr onWay, listed⟩

theorem keyAt_of_passed (made : Made aggs raw response node branch object)
    {around : Branch ResponseNode} {above : Branch AggNode} {bucket : Bucket} {clause : AggClause}
    (passed : around ∈ response.tree.ancestry node.id)
    (onWay : above ∈ aggs.tree.ancestry branch.id) (content : around.content = .bucket bucket)
    (named : above.key = some bucket.level) (kind : above.content = .clause clause)
    (keyed : bucket.key.isSome = clause.kind.isMultiBucket) :
    KeyAt response node.id bucket.level (Json.ofOption bucket.key) := by
  refine ⟨around, passed, bucket, clause, content, rfl, fun other inside level => ?_,
    ⟨above, ?_, named, kind⟩, keyed, rfl⟩
  · have here : around.content.bucket?.map Bucket.level = some bucket.level := by
      rw [content]
      rfl
    exact eq_of_nodup_filterMap (answered.levels_nodup made) inside passed (isAt_iff.mp level) here
  · rw [answered.request]
    exact mem_nodes_of_ancestry (answered.branch_mem_nodes made) onWay

theorem index_aligned (made : Made aggs raw response node branch object) (options : TableOptions) :
    List.Forall₂ (KeyAt response node.id) (response.indexNames options branch.id)
      (response.rowIndex (response.indexNames options branch.id) node.id) := by
  obtain ⟨lengths, beside⟩ := List.forall₂_iff_zip.mp (answered.outward made)
  have pairs : List.Forall₂ (fun around above => Counterpart around above ∧
      around ∈ response.tree.ancestry node.id ∧ above ∈ aggs.tree.ancestry branch.id)
      (response.tree.ancestry node.id) (aggs.tree.ancestry branch.id) :=
    List.forall₂_iff_zip.mpr ⟨lengths, fun listed => ⟨beside listed, List.of_mem_zip listed⟩⟩
  have names := indexNames_eq response options branch.id
  rw [answered.request] at names
  rw [rowIndex_eq]
  nth_rewrite 1 [names]
  refine (List.rel_filterMap (fun around above here => ?_)
    (List.forall₂_reverse_iff.mpr pairs)).flip
  obtain ⟨counterpart, passed, onWay⟩ := here
  cases counterpart with
  | root content unnamed =>
      rw [indexKey?_root content, indexName?_unnamed unnamed]
      exact .none
  | @bucket bucket clause content named kind keyed =>
      have listed := answered.mem_indexNames made options onWay named
      cases shown : indexName? options above with
      | none =>
          rw [shown] at listed
          rw [indexKey?_bucket content, if_neg (by simpa using listed)]
          exact .none
      | some name =>
          obtain rfl := Option.some.inj ((key_of_indexName? shown).symm.trans named)
          rw [shown] at listed
          rw [indexKey?_bucket content, if_pos (by simpa using listed)]
          exact .some (answered.keyAt_of_passed made passed onWay content named kind keyed)

/-! ### Rows -/

/-- There are rows for the nodes that the grouping aggregation made, in the order of the response,
or for the root alone. -/
theorem shown_rowsAt {grouping : Branch AggNode} (member : grouping ∈ aggs.tree.nodes) {ids : List Nat}
    (listed : response.rowsAt grouping.id = .ok ids) :
    ∃ shown : List (Branch ResponseNode), ids = shown.map Rose.id ∧
      shown.Sublist response.tree.nodes ∧
      (∀ node ∈ response.tree.nodes, node ∈ shown ↔
        ∃ object, Made aggs raw response node grouping object) ∧
      (aggs.tree.root = some grouping → ∃ root, response.tree.root = some root ∧ shown = [root]) := by
  have key : response.aggs.tree.key? grouping.id = grouping.key := by
    rw [nodes_eq_live answered.settled] at member
    rw [answered.request, key?, find?_of_live answered.numbered member]
    rfl
  rw [rowsAt, key] at listed
  cases named : grouping.key with
  | some name =>
      rw [named] at listed
      cases Result.pure_ok.mp listed
      refine ⟨_, rfl, List.filter_sublist, fun node live => ?_, fun rooted => ?_⟩
      · rw [List.mem_filter, and_iff_right live]
        constructor
        · intro level
          obtain ⟨branch, object, made⟩ := answered.every node live
          have own := ((answered.beside made).isAt_iff_key name).mp level
          rw [answered.eq_of_key (answered.branch_mem_nodes made) member own named] at made
          exact ⟨object, made⟩
        · rintro ⟨object, made⟩
          exact ((answered.beside made).isAt_iff_key name).mpr named
      · rw [(answered.unnamed grouping member).mpr rooted] at named
        cases named
  | none =>
      rw [named] at listed
      have requested := (answered.unnamed grouping member).mp named
      obtain ⟨root, rooted⟩ := answered.topped
      have top : response.root = .ok root.id := by
        rw [Response.root, rootId?, rooted]
        rfl
      simp only [top, Result.ok_bind] at listed
      cases Result.pure_ok.mp listed
      have present : root ∈ response.tree.nodes := mem_preorderAll_of_mem (by simp [rooted])
      refine ⟨[root], rfl, List.singleton_sublist.mpr present, fun node _ => ?_,
        fun _ => ⟨root, rooted, rfl⟩⟩
      rw [List.mem_singleton]
      constructor
      · rintro rfl
        exact ⟨_, .root rooted requested⟩
      · rintro ⟨object, made⟩
        cases made with
        | root top _ => exact Option.some.inj (top.symm.trans rooted)
        | child _ _ again => cases named.symm.trans again

end Answered

theorem live_of_groupingOf {options : TableOptions} {id : Nat}
    (grouped : response.groupingOf options = .ok id) :
    ∃ grouping ∈ response.aggs.tree.live, grouping.id = id := by
  have live : ∀ {chosen : Result Nat}, (do
      let number ← chosen
      response.aggs.ensureHolds number .tabularRows
      pure number) = .ok id → ∃ grouping ∈ response.aggs.tree.live, grouping.id = id := by
    intro chosen made
    simp only [Result.bind_ok, Result.pure_ok] at made
    obtain ⟨_, _, _, ensured, rfl⟩ := made
    exact live_of_ensureHolds ensured
  unfold groupingOf at grouped
  split at grouped
  · exact live grouped
  · exact live grouped
  · split at grouped
    · exact live grouped
    · exact live grouped

/-- A table has a row for each node that the grouping aggregation made, in the order of the
response; at the level of the request there is one row. The index of a row has an entry for each
name, and in the place of a name stands the key of the only bucket of this level among the node and
those around it. -/
theorem toTable_aligned (mapping : Option Mapping) (autocorrect : Bool)
    (operations : List Operation) {aggs : Aggregations}
    (ran : operations.foldlM Operation.apply { mapping := mapping, autocorrect := autocorrect } =
      .ok aggs)
    (distinct : (aggs.tree.nodes.filterMap Rose.key).Nodup) {raw : Json} {response : Response}
    (parsed : Response.ofJson aggs raw = .ok response) {options : TableOptions} {table : Table}
    (tabled : response.toTable options = .ok table) :
    ∃ grouping ∈ aggs.tree.nodes, ∃ shown : List (Branch ResponseNode),
      response.groupingOf options = .ok grouping.id ∧
      shown.Sublist response.tree.nodes ∧
      (∀ node ∈ response.tree.nodes, node ∈ shown ↔
        ∃ object, Made aggs raw response node grouping object) ∧
      (aggs.tree.root = some grouping → ∃ root, response.tree.root = some root ∧ shown = [root]) ∧
      table.indexNames = response.indexNames options grouping.id ∧
      List.Forall₂ (fun node row => List.Forall₂ (KeyAt response node.id) table.indexNames row.index)
        shown table.rows := by
  have answered := answered_run mapping autocorrect operations ran distinct parsed
  simp only [toTable, Result.bind_ok, Result.pure_ok] at tabled
  obtain ⟨id, grouped, ids, listed, rfl⟩ := tabled
  obtain ⟨grouping, live, rfl⟩ := live_of_groupingOf grouped
  rw [answered.request] at live
  have member : grouping ∈ aggs.tree.nodes := nodes_eq_live answered.settled ▸ live
  obtain ⟨shown, rfl, part, known, single⟩ := answered.shown_rowsAt member listed
  refine ⟨grouping, member, shown, grouped, part, known, single, rfl, ?_⟩
  rw [List.map_map, List.forall₂_map_right_iff]
  refine List.forall₂_same.mpr fun node among => ?_
  obtain ⟨object, made⟩ := (known node (part.subset among)).mp among
  exact answered.index_aligned made options

def recentTypes : Json :=
  .object [("recent", .object [
    ("filter", .object [("range", .object [("created", .object [("gte", .string "now-1d")])])]),
    ("aggs", .object [("types", .object [("terms", .object [("field", .string "type")])])])])]

def recentResponse : Json :=
  .object [("recent", .object [("doc_count", .ofNat 5), ("types", .object [("buckets", .array [
    .object [("key", .string "binary"), ("doc_count", .ofNat 3)],
    .object [("key", .string "multilabel"), ("doc_count", .ofNat 2)]])])])]

theorem toTable_aligned_recent :
    ∃ aggs response table, [Operation.ofJson recentTypes].foldlM Operation.apply {} = .ok aggs ∧
      Response.ofJson aggs recentResponse = .ok response ∧
      response.toTable { config := { includeSingleBucket := true } } = .ok table ∧
      table.indexNames = ["recent", "types"] ∧
      (table.rows.map fun row => row.index.map Json.compact) =
        [["null", "\"binary\""], ["null", "\"multilabel\""]] ∧
      ∃ shown : List (Branch ResponseNode), shown.Sublist response.tree.nodes ∧
        List.Forall₂ (fun node row =>
          List.Forall₂ (KeyAt response node.id) ["recent", "types"] row.index) shown table.rows := by
  have made : ([Operation.ofJson recentTypes].foldlM Operation.apply {}).toOption.any
      (fun aggs => decide (aggs.tree.nodes.filterMap Rose.key).Nodup &&
        (Response.ofJson aggs recentResponse).toOption.any fun response =>
          (response.toTable { config := { includeSingleBucket := true } }).toOption.any fun table =>
            decide (table.indexNames = ["recent", "types"] ∧
              (table.rows.map fun row => row.index.map Json.compact) =
                [["null", "\"binary\""], ["null", "\"multilabel\""]])) = true := by
    decide +kernel
  obtain ⟨aggs, ran, facts⟩ := Result.ok_of_any made
  rw [Bool.and_eq_true] at facts
  obtain ⟨response, parsed, rest⟩ := Result.ok_of_any facts.2
  obtain ⟨table, tabled, shown⟩ := Result.ok_of_any rest
  obtain ⟨names, indices⟩ := of_decide_eq_true shown
  obtain ⟨_, _, shown, _, part, _, _, _, aligned⟩ := toTable_aligned none true
    [.ofJson recentTypes] ran (of_decide_eq_true facts.1) parsed tabled
  exact ⟨aggs, response, table, ran, parsed, tabled, names, indices, shown, part, names ▸ aligned⟩

end Response

end ScopedClauses
