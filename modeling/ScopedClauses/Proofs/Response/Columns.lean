import ScopedClauses.Proofs.Response.Below
import ScopedClauses.Proofs.Response.Collecting

/-!
The columns of a table. The search through scope markers finds all nodes that the aggregation of a
column made below the node of a row, so that each column holds all that the response says. The value
of the node itself stands in its column, unless an aggregation has the name of that column.
-/

namespace ScopedClauses

open Rose Tree

theorem nil_or_singleton {items : List α} (distinct : items.Nodup)
    (same : ∀ first ∈ items, ∀ second ∈ items, first = second) :
    items = [] ∨ ∃ only, items = [only] := by
  match items with
  | [] => exact Or.inl rfl
  | [only] => exact Or.inr ⟨only, rfl⟩
  | first :: second :: rest =>
      have equal : first = second := same first (by simp) second (by simp)
      simp [equal] at distinct

namespace Response

open ResponseNode Aggregations

variable {aggs : Aggregations} {raw object part : Json} {response : Response}
  {node : Branch ResponseNode} {branch inner : Branch AggNode} {name : String}

inductive Seen : Branch AggNode → Branch AggNode → Prop where
  | child {outer inner : Branch AggNode} : inner ∈ outer.children → Seen outer inner
  | through {outer marker inner : Branch AggNode} : marker ∈ outer.children →
      marker.content.boundary?.isSome = true → Seen marker inner → Seen outer inner

def nodesAt (name : String) (node : Branch ResponseNode) : List (Branch ResponseNode) :=
  (preorderAll node.children).filter fun lower => lower.content.isAt name

def Tells (node : Branch ResponseNode) (name : String) (multiple : Bool) (cell : Json) : Prop :=
  if multiple then cell = .array ((nodesAt name node).map normalize)
  else (nodesAt name node = [] ∧ cell = .null) ∨ ∃ only bucket, nodesAt name node = [only] ∧
    only.content = .bucket bucket ∧ cell = bucket.value

/-! ### The search through scope markers -/

def passes (aggs : Aggregations) (node : Branch ResponseNode) : Bool :=
  node.content.bucket?.any fun bucket => Table.isMarker aggs bucket.level

theorem levelOf_eq (node : Branch ResponseNode) : Table.levelOf aggs name node =
    if node.content.isAt name then [node]
    else if passes aggs node then Table.levelBelow aggs name node.children else [] := by
  obtain ⟨label, children⟩ := node
  rw [Table.levelOf, passes, content_node, children_node]
  cases label.content with
  | root => rfl
  | bucket bucket =>
      by_cases level : bucket.level = name <;>
        by_cases marker : Table.isMarker aggs bucket.level = true <;>
          simp [isAt, bucket?, level, marker]

/-- The search finds all nodes of a level, if none is below another one or below a node where the
search ends. -/
theorem levelBelow_eq_filter {forest : List (Branch ResponseNode)}
    (open? : ∀ node ∈ preorderAll forest, node.content.isAt name = true ∨ passes aggs node = false →
      ∀ lower ∈ preorderAll node.children, lower.content.isAt name = false) :
    Table.levelBelow aggs name forest =
      (preorderAll forest).filter fun node => node.content.isAt name := by
  induction forest using forestInduction with
  | nil => rfl
  | cons label children rest ihBelow ihBeside =>
      rw [preorderAll_cons, List.forall_mem_cons, List.forall_mem_append, children_node] at open?
      obtain ⟨here, below, beside⟩ := open?
      have absent : (∀ lower ∈ preorderAll children, lower.content.isAt name = false) →
          (preorderAll children).filter (fun node => node.content.isAt name) = [] := by
        intro closed
        exact List.filter_eq_nil_iff.mpr fun lower inside => by simp [closed lower inside]
      rw [Table.levelBelow, levelOf_eq, preorderAll_cons, List.filter_cons, List.filter_append,
        ihBeside beside, children_node]
      by_cases level : (node label children).content.isAt name = true
      · rw [if_pos level, if_pos level, absent (here (Or.inl level))]
        rfl
      · rw [if_neg level, if_neg level]
        by_cases opens : passes aggs (node label children) = true
        · rw [if_pos opens, ihBelow below]
        · rw [if_neg opens, absent (here (Or.inr (by simpa using opens)))]

/-! ### Aggregations seen through markers -/

def Registered (aggs : Aggregations) : Prop :=
  ∀ branch ∈ aggs.tree.live, ∀ clause, branch.content = .clause clause → clause.kind ∈ AggKind.all

theorem Seen.inside (seen : Seen branch inner) : inner ∈ preorderAll branch.children := by
  induction seen with
  | child listed => exact mem_preorderAll_of_mem listed
  | through listed _ _ ih => exact mem_preorderAll_trans _ (mem_preorderAll_of_mem listed) ih

theorem single_of_boundary {clause : AggClause} (registered : clause.kind ∈ AggKind.all)
    (marker : clause.boundary?.isSome = true) : clause.kind.isMultiBucket = false := by
  have markers : ∀ kind ∈ AggKind.all, kind.tag = "nested" ∨ kind.tag = "reverse_nested" →
      kind.isMultiBucket = false := by
    decide +kernel
  refine markers clause.kind registered ?_
  rw [AggClause.boundary?] at marker
  split at marker
  · exact Or.inl ‹_›
  · split at marker
    · exact Or.inr ‹_›
    · cases marker

theorem Seen.alone (registered : Registered aggs) (seen : Seen branch inner)
    (live : branch ∈ aggs.tree.live) : Alone branch inner := by
  induction seen with
  | child listed => exact .child listed
  | @through outer marker inner listed marks _ ih =>
      have member := mem_preorderAll_trans _ live (mem_preorderAll_of_mem listed)
      cases content : marker.content with
      | root =>
          rw [content] at marks
          cases marks
      | clause clause =>
          rw [content] at marks
          exact .through listed content
            (single_of_boundary (registered marker member clause content) marks) (ih member)

namespace Answered

variable (answered : Answered aggs raw response)

include answered

theorem clause_below (made : Made aggs raw response node branch object)
    {lower : Branch ResponseNode} (below : lower ∈ preorderAll node.children)
    (own : Made aggs raw response lower inner part) :
    ∃ name clause, inner.key = some name ∧ inner.content = .clause clause ∧
      lower.content.isAt name = true ∧ aggs.clause name = .ok clause := by
  have direct : ∀ {parent : Branch ResponseNode} {around : Branch AggNode} {whole : Json},
      Made aggs raw response parent around whole → lower ∈ parent.children →
        ∃ name clause, inner.key = some name ∧ inner.content = .clause clause := by
    intro parent around whole made inside
    obtain ⟨_, name, clause, _, _, _, named, content, _⟩ := answered.part_of_child made inside own
    exact ⟨name, clause, named, content⟩
  obtain ⟨name, clause, named, content⟩ : ∃ name clause, inner.key = some name ∧
      inner.content = .clause clause := by
    rcases top_or_child _ below with top | ⟨parent, above, inside⟩
    · exact direct made top
    · obtain ⟨_, _, _, madeParent⟩ := answered.made_below made parent above
      exact direct madeParent inside
  have level := ((answered.beside own).isAt_iff_key name).mpr named
  exact ⟨name, clause, named, content, level,
    (idOf_of_distinct ⟨answered.numbered, answered.settled⟩ answered.distinct
      (answered.read own).branchLive named content).2⟩

theorem passes_of_marker (made : Made aggs raw response node branch object)
    {lower : Branch ResponseNode} (below : lower ∈ preorderAll node.children)
    (own : Made aggs raw response lower inner part)
    (marker : inner.content.boundary?.isSome = true) : passes aggs lower = true := by
  obtain ⟨name, clause, _, content, level, known⟩ := answered.clause_below made below own
  obtain ⟨bucket, held, same⟩ := Option.map_eq_some_iff.mp (isAt_iff.mp level)
  rw [passes, held, Option.any_some, same, Table.isMarker, known]
  rw [content] at marker
  exact marker

theorem marker_between (seen : Seen branch inner) (live : branch ∈ aggs.tree.live)
    {middle : Branch AggNode} (below : middle ∈ preorderAll branch.children)
    (above : inner ∈ preorderAll middle.children) : middle.content.boundary?.isSome = true := by
  have markers : ∀ {outer inner : Branch AggNode}, Seen outer inner → outer ∈ aggs.tree.live →
      ∃ between, aggs.tree.ancestry inner.id = inner :: (between ++ aggs.tree.ancestry outer.id) ∧
        ∀ passed ∈ between, passed.content.boundary?.isSome = true := by
    intro outer inner seen
    induction seen with
    | child listed =>
        intro live
        exact ⟨[], ancestry_of_child answered.numbered live listed, fun _ absent => by cases absent⟩
    | @through outer marker inner listed marks _ ih =>
        intro live
        obtain ⟨between, way, all⟩ :=
          ih (mem_preorderAll_trans _ live (mem_preorderAll_of_mem listed))
        refine ⟨between ++ [marker], ?_, ?_⟩
        · rw [way, ancestry_of_child answered.numbered live listed]
          simp
        · rw [List.forall_mem_append, List.forall_mem_singleton]
          exact ⟨all, marks⟩
  obtain ⟨between, way, all⟩ := markers seen live
  have middleLive := mem_preorderAll_trans _ live below
  obtain ⟨front, around⟩ := ancestry_of_below answered.numbered live below
  obtain ⟨back, passed⟩ := ancestry_of_below answered.numbered middleLive above
  have same : between = back ++ middle :: front := by
    rw [passed, around, List.cons.injEq] at way
    have whole : between ++ aggs.tree.ancestry branch.id =
        back ++ middle :: front ++ aggs.tree.ancestry branch.id := by
      rw [← way.2]
      simp
    exact List.append_cancel_right whole
  exact all middle (by simp [same])

/-- The search finds all nodes below a node that were made by an aggregation seen through markers. -/
theorem levelBelow_seen (whole : Made aggs raw response node branch object)
    (seen : Seen branch inner) (named : inner.key = some name) :
    Table.levelBelow aggs name node.children = nodesAt name node := by
  have live := answered.live_inner whole seen.inside
  refine levelBelow_eq_filter fun middle inside ends lower below => ?_
  rw [Bool.eq_false_iff]
  intro level
  obtain ⟨around, within, _, madeMiddle⟩ := answered.made_below whole middle inside
  obtain ⟨other, above, _, madeLower⟩ := answered.made_below madeMiddle lower below
  obtain rfl := answered.made_at madeLower level live named
  rcases ends with atLevel | closed
  · obtain rfl := answered.made_at madeMiddle atLevel live named
    exact not_mem_children answered.numbered.distinct (answered.live_inner whole within)
      (id_mem_numbers above)
  · have marker := answered.marker_between seen (answered.read whole).branchLive within above
    rw [answered.passes_of_marker whole inside madeMiddle marker] at closed
    cases closed

theorem nodesAt_single (registered : Registered aggs)
    (whole : Made aggs raw response node branch object) (seen : Seen branch inner)
    (named : inner.key = some name) {clause : AggClause} (content : inner.content = .clause clause)
    (single : clause.kind.isMultiBucket = false) :
    nodesAt name node = [] ∨ ∃ only, nodesAt name node = [only] := by
  have once : (nodesAt name node).Nodup := by
    have distinct := answered.numberedNodes.distinct.sublist
      (sublist_numbers _ (answered.read whole).nodeLive)
    have below := distinct.sublist (numbers_children_sublist node)
    exact (List.Nodup.of_map _ below).filter _
  refine nil_or_singleton once fun first inFirst second inSecond => ?_
  have made : ∀ lower ∈ nodesAt name node, lower ∈ preorderAll node.children ∧
      ∃ part, Made aggs raw response lower inner part := by
    intro lower listed
    obtain ⟨below, level⟩ := List.mem_filter.mp listed
    obtain ⟨other, _, part, own⟩ := answered.made_below whole lower below
    rw [answered.made_at own level (answered.live_inner whole seen.inside) named] at own
    exact ⟨below, part, own⟩
  obtain ⟨belowFirst, _, madeFirst⟩ := made first inFirst
  obtain ⟨belowSecond, _, madeSecond⟩ := made second inSecond
  have alone := seen.alone registered (answered.read whole).branchLive
  obtain ⟨holder, _, _, madeHolder, underFirst, underSecond⟩ :=
    answered.alone_below alone whole belowFirst belowSecond madeFirst madeSecond
  exact answered.single_child madeHolder underFirst underSecond content single madeFirst madeSecond

/-- A column holds all that the response says of its aggregation below the node of a row. -/
theorem tells_columnValue (registered : Registered aggs)
    (whole : Made aggs raw response node branch object) (seen : Seen branch inner)
    (named : inner.key = some name) {clause : AggClause} (content : inner.content = .clause clause) :
    Tells node name clause.kind.isMultiBucket
      (Table.columnValue (Table.levelBelow aggs name node.children) clause.kind.isMultiBucket) := by
  rw [answered.levelBelow_seen whole seen named, Tells, Table.columnValue]
  cases multiple : clause.kind.isMultiBucket with
  | true => rfl
  | false =>
      simp only [Bool.false_eq_true, if_false]
      rcases answered.nodesAt_single registered whole seen named content multiple with
        none | ⟨only, one⟩
      · rw [none]
        exact Or.inl ⟨rfl, rfl⟩
      · have listed : only ∈ nodesAt name node := by simp [one]
        have level : only.content.isAt name = true := (List.mem_filter.mp listed).2
        obtain ⟨bucket, held, _⟩ := Option.map_eq_some_iff.mp (isAt_iff.mp level)
        have known : only.content = .bucket bucket := by
          cases here : only.content with
          | root => simp [here, bucket?] at held
          | bucket own => simpa [here, bucket?] using held
        refine Or.inr ⟨only, bucket, one, known, ?_⟩
        rw [one, List.head?_cons, Option.bind_some, held]

end Answered

/-! ### Names of columns -/

theorem seen_iff : Seen branch inner ↔ ∃ top ∈ branch.children,
    inner = top ∨ top.content.boundary?.isSome = true ∧ Seen top inner := by
  constructor
  · intro seen
    cases seen with
    | child listed => exact ⟨inner, listed, Or.inl rfl⟩
    | through listed marks further => exact ⟨_, listed, Or.inr ⟨marks, further⟩⟩
  · rintro ⟨top, listed, rfl | ⟨marks, further⟩⟩
    · exact .child listed
    · exact .through listed marks further

def Columned (grouping : Branch AggNode) (name : String) (clause : AggClause) : Prop :=
  ∃ inner, Seen grouping inner ∧ inner.content = .clause clause ∧ clause.boundary? = none ∧
    inner.key = some name

theorem mem_columns {name : String} {multiple : Bool} :
    (name, multiple) ∈ Table.columns branch.children ↔
      ∃ clause, Columned branch name clause ∧ multiple = clause.kind.isMultiBucket := by
  have forest : ∀ forest : List (Branch AggNode), (name, multiple) ∈ Table.columns forest ↔
      ∃ top ∈ forest, ∃ inner clause,
        (inner = top ∨ top.content.boundary?.isSome = true ∧ Seen top inner) ∧
        inner.content = .clause clause ∧ clause.boundary? = none ∧ inner.key = some name ∧
          multiple = clause.kind.isMultiBucket := by
    intro forest
    induction forest using forestInduction with
    | nil => simp [Table.columns]
    | cons label children rest ihBelow ihBeside =>
        rw [Table.columns, List.mem_append, ihBeside, List.exists_mem_cons_iff]
        refine or_congr ?_ Iff.rfl
        rw [Table.columnsOf]
        by_cases marks : label.content.boundary?.isSome = true
        · rw [if_pos marks, ihBelow]
          constructor
          · rintro ⟨top, listed, inner, clause, way, rest⟩
            exact ⟨inner, clause, Or.inr ⟨marks, seen_iff.mpr ⟨top, listed, way⟩⟩, rest⟩
          · rintro ⟨inner, clause, rfl | ⟨_, seen⟩, content, plain, rest⟩
            · have none : label.content.boundary? = none := by
                rw [show label.content = .clause clause from content]
                exact plain
              rw [none] at marks
              cases marks
            · obtain ⟨top, listed, way⟩ := seen_iff.mp seen
              exact ⟨top, listed, inner, clause, way, content, plain, rest⟩
        · rw [if_neg marks]
          constructor
          · intro listed
            split at listed
            · rename_i clause named content
              cases List.mem_singleton.mp listed
              have plain : clause.boundary? = none := by
                rw [content] at marks
                simpa [AggNode.boundary?, AggNode.clause?] using marks
              exact ⟨_, clause, Or.inl rfl, content, plain, named, rfl⟩
            · cases listed
          · rintro ⟨inner, clause, rfl | ⟨also, _⟩, content, _, named, same⟩
            · rw [show label.key = some name from named,
                show label.content = .clause clause from content]
              exact List.mem_singleton.mpr (Prod.ext rfl same)
            · exact absurd also marks
  rw [forest]
  constructor
  · rintro ⟨top, listed, inner, clause, way, content, plain, named, same⟩
    exact ⟨clause, ⟨inner, seen_iff.mpr ⟨top, listed, way⟩, content, plain, named⟩, same⟩
  · rintro ⟨clause, ⟨inner, seen, content, plain, named⟩, same⟩
    obtain ⟨top, listed, way⟩ := seen_iff.mp seen
    exact ⟨top, listed, inner, clause, way, content, plain, named, same⟩

theorem columns_sublist (forest : List (Branch AggNode)) :
    ((Table.columns forest).map Prod.fst).Sublist ((entries forest).filterMap (·.key)) := by
  induction forest using forestInduction with
  | nil => exact .slnil
  | cons label children rest ihBelow ihBeside =>
      rw [Table.columns, List.map_append, entries_cons, Table.columnsOf]
      by_cases marks : label.content.boundary?.isSome = true
      · rw [if_pos marks]
        refine (ihBelow.append ihBeside).trans ?_
        rw [← List.filterMap_append]
        exact (List.sublist_cons_self _ _).filterMap _
      · rw [if_neg marks, List.filterMap_cons, List.filterMap_append]
        have beside := ihBeside.trans
          (List.sublist_append_right ((entries children).filterMap (·.key)) _)
        cases named : label.key with
        | none => simpa using beside
        | some name =>
            cases label.content with
            | root => simpa using beside.cons name
            | clause content => simpa using beside.cons_cons name

/-! ### The values of a row -/

/-- Whether the values of a row show what the response says of a node: each column holds all of its
aggregation, and the value of the node stands in its own column, if no aggregation has that name. -/
structure Filled (options : TableOptions) (grouping : Branch AggNode) (node : Branch ResponseNode)
    (values : Members) : Prop where
  columns : ∀ name clause, Columned grouping name clause → ∃ cell,
    values.lookup name = some cell ∧ Tells node name clause.kind.isMultiBucket cell
  own : ∀ bucket, node.content = .bucket bucket →
    (∀ clause, ¬ Columned grouping options.config.valueColumn clause) →
      values.lookup options.config.valueColumn = some bucket.value

def ownColumn (options : TableOptions) : ResponseNode → Members
  | .root => []
  | .bucket bucket => [(options.config.valueColumn, bucket.value)]

def cellsOf (aggs : Aggregations) (columns : List (String × Bool)) (node : Branch ResponseNode) :
    Members :=
  columns.map fun (name, multiple) =>
    (name, Table.columnValue (Table.levelBelow aggs name node.children) multiple)

theorem keys_cellsOf (columns : List (String × Bool)) (node : Branch ResponseNode) :
    (cellsOf aggs columns node).keys = columns.map Prod.fst := by
  simp [cellsOf, Members.keys, Function.comp_def]

namespace Answered

variable (answered : Answered aggs raw response)

include answered

theorem rowValues_eq (whole : Made aggs raw response node branch object) (options : TableOptions)
    (columns : List (String × Bool)) : response.rowValues options columns node.id =
      Members.merge (ownColumn options node.content) (cellsOf aggs columns node) := by
  have live := (answered.read whole).nodeLive
  have content : response.tree.get? node.id = some node.content := by
    rw [Tree.get?, find?_of_live answered.numberedNodes live]
    rfl
  rw [rowValues, content, childBranches_of_live answered.numberedNodes live, answered.request]
  cases node.content <;> rfl

theorem filled_rowValues (registered : Registered aggs)
    (whole : Made aggs raw response node branch object) (options : TableOptions) :
    Filled options branch node
      (response.rowValues options (Table.columns branch.children) node.id) := by
  have distinct : (cellsOf aggs (Table.columns branch.children) node).keys.Nodup := by
    rw [keys_cellsOf]
    exact ((columns_sublist branch.children).trans ((sublist_entries _
      (answered.read whole).branchLive).filterMap _)).nodup answered.distinct
  rw [answered.rowValues_eq whole]
  constructor
  · rintro name clause ⟨inner, seen, content, plain, named⟩
    refine ⟨_, ?_, answered.tells_columnValue registered whole seen named content⟩
    have column : (name, clause.kind.isMultiBucket) ∈ Table.columns branch.children :=
      mem_columns.mpr ⟨clause, ⟨inner, seen, content, plain, named⟩, rfl⟩
    rw [Members.lookup_merge distinct,
      Members.lookup_of_mem distinct (List.mem_map.mpr ⟨_, column, rfl⟩)]
    rfl
  · intro bucket content free
    have absent : options.config.valueColumn ∉
        (cellsOf aggs (Table.columns branch.children) node).keys := by
      rw [keys_cellsOf]
      intro listed
      obtain ⟨⟨name, multiple⟩, column, same⟩ := List.mem_map.mp listed
      obtain ⟨clause, columned, _⟩ := mem_columns.mp column
      exact free clause (same ▸ columned)
    rw [Members.lookup_merge distinct, Members.lookup_of_not_mem_keys absent, content, ownColumn,
      Option.none_or, Members.lookup_member, if_pos rfl]

end Answered

/-- No value is lost from a table but for one name. There is a row for each node that the grouping
aggregation made. In each row, the column of an aggregation that is seen through markers holds all
that the response says of it below the node, and the value of the node stands in the column for
values, unless an aggregation has the name of this column. -/
theorem toTable_filled (mapping : Option Mapping) (autocorrect : Bool)
    (operations : List Operation) {aggs : Aggregations}
    (ran : operations.foldlM Operation.apply { mapping := mapping, autocorrect := autocorrect } =
      .ok aggs)
    (distinct : (aggs.tree.nodes.filterMap Rose.key).Nodup) (registered : Registered aggs)
    {raw : Json} {response : Response} (parsed : Response.ofJson aggs raw = .ok response)
    {options : TableOptions} {table : Table} (tabled : response.toTable options = .ok table) :
    ∃ grouping ∈ aggs.tree.nodes, ∃ shown : List (Branch ResponseNode),
      response.groupingOf options = .ok grouping.id ∧
      (∀ node ∈ response.tree.nodes, node ∈ shown ↔
        ∃ object, Made aggs raw response node grouping object) ∧
      List.Forall₂ (fun node row => Filled options grouping node row.values) shown table.rows := by
  have answered := answered_run mapping autocorrect operations ran distinct parsed
  simp only [toTable, Result.bind_ok, Result.pure_ok] at tabled
  obtain ⟨id, grouped, ids, listed, rfl⟩ := tabled
  obtain ⟨grouping, live, rfl⟩ := live_of_groupingOf grouped
  rw [answered.request] at live
  have member : grouping ∈ aggs.tree.nodes := nodes_eq_live answered.settled ▸ live
  obtain ⟨shown, rfl, part, known, _⟩ := answered.shown_rowsAt member listed
  refine ⟨grouping, member, shown, grouped, known, ?_⟩
  rw [List.map_map, List.forall₂_map_right_iff]
  refine List.forall₂_same.mpr fun node among => ?_
  obtain ⟨object, made⟩ := (known node (part.subset among)).mp among
  rw [answered.request, childBranches_of_live answered.numbered live]
  exact answered.filled_rowValues registered made options

def typesWithRoles : Json :=
  .object [("types", .object [("terms", .object [("field", .string "type")]),
    ("aggs", .object [
      ("roles", .object [("nested", .object [("path", .string "roles")]),
        ("aggs", .object [("genders", .object [
          ("terms", .object [("field", .string "roles.gender")])])])]),
      ("mean", .object [("avg", .object [("field", .string "size")])])])])]

def typesWithRolesResponse : Json :=
  .object [("types", .object [("buckets", .array [.object [("key", .string "binary"),
    ("doc_count", .ofNat 3),
    ("roles", .object [("doc_count", .ofNat 4), ("genders", .object [("buckets", .array [
      .object [("key", .string "F"), ("doc_count", .ofNat 1)]])])]),
    ("mean", .object [("value", .ofNat 7)])]])])]

def tableOf (grouping valueColumn : String) : TableOptions :=
  { groupedBy := some grouping, config := { valueColumn := valueColumn } }

theorem toTable_filled_roles :
    ∃ aggs response table, [Operation.ofJson typesWithRoles].foldlM Operation.apply {} = .ok aggs ∧
      Registered aggs ∧ Response.ofJson aggs typesWithRolesResponse = .ok response ∧
      response.toTable (tableOf "types" "count") = .ok table ∧
      (table.rows.map fun row => row.values.map fun (name, cell) => (name, cell.compact)) =
        [[("count", "3"), ("genders",
          "[\x7b\"level\":\"genders\",\"key\":\"F\",\"value\":1,\"children\":[]\x7d]"),
          ("mean", "7")]] ∧
      ∃ grouping, ∃ shown : List (Branch ResponseNode), List.Forall₂ (fun node row =>
        Filled (tableOf "types" "count") grouping node row.values) shown table.rows := by
  have made : ([Operation.ofJson typesWithRoles].foldlM Operation.apply {}).toOption.any
      (fun aggs => decide ((aggs.tree.nodes.filterMap Rose.key).Nodup ∧
          ∀ branch ∈ aggs.tree.live, ∀ clause ∈ branch.content.clause?, clause.kind ∈ AggKind.all) &&
        (Response.ofJson aggs typesWithRolesResponse).toOption.any fun response =>
          (response.toTable (tableOf "types" "count")).toOption.any fun table =>
            decide ((table.rows.map fun row => row.values.map fun (name, cell) =>
              (name, cell.compact)) = [[("count", "3"), ("genders",
          "[\x7b\"level\":\"genders\",\"key\":\"F\",\"value\":1,\"children\":[]\x7d]"),
          ("mean", "7")]])) = true := by
    decide +kernel
  obtain ⟨aggs, ran, facts⟩ := Result.ok_of_any made
  rw [Bool.and_eq_true] at facts
  obtain ⟨distinct, known⟩ := of_decide_eq_true facts.1
  obtain ⟨response, parsed, rest⟩ := Result.ok_of_any facts.2
  obtain ⟨table, tabled, shown⟩ := Result.ok_of_any rest
  have registered : Registered aggs := by
    intro branch live clause content
    exact known branch live clause (by rw [content]; rfl)
  obtain ⟨grouping, _, shownNodes, _, _, filled⟩ := toTable_filled none true
    [.ofJson typesWithRoles] ran distinct registered parsed tabled
  exact ⟨aggs, response, table, ran, registered, parsed, tabled, of_decide_eq_true shown, grouping,
    shownNodes, filled⟩

/-- The value of a bucket is lost where an aggregation has the name of the column for values. -/
theorem toTable_overwrites :
    ∃ aggs response table, [Operation.ofJson typesWithRoles].foldlM Operation.apply {} = .ok aggs ∧
      (aggs.tree.nodes.filterMap Rose.key).Nodup ∧
      Response.ofJson aggs typesWithRolesResponse = .ok response ∧
      response.toTable (tableOf "types" "mean") = .ok table ∧
      ((response.bucketsAt "types").map fun id =>
        (response.bucket id).toOption.map fun bucket => bucket.value.compact) = [some "3"] ∧
      (table.rows.map fun row => (row.values.lookup "mean").map Json.compact) = [some "7"] := by
  have made : ([Operation.ofJson typesWithRoles].foldlM Operation.apply {}).toOption.any
      (fun aggs => decide (aggs.tree.nodes.filterMap Rose.key).Nodup &&
        (Response.ofJson aggs typesWithRolesResponse).toOption.any fun response =>
          (response.toTable (tableOf "types" "mean")).toOption.any fun table =>
            decide (((response.bucketsAt "types").map fun id =>
              (response.bucket id).toOption.map fun bucket => bucket.value.compact) = [some "3"] ∧
              (table.rows.map fun row => (row.values.lookup "mean").map Json.compact) =
                [some "7"])) = true := by
    decide +kernel
  obtain ⟨aggs, ran, facts⟩ := Result.ok_of_any made
  rw [Bool.and_eq_true] at facts
  obtain ⟨response, parsed, rest⟩ := Result.ok_of_any facts.2
  obtain ⟨table, tabled, shown⟩ := Result.ok_of_any rest
  exact ⟨aggs, response, table, ran, of_decide_eq_true facts.1, parsed, tabled,
    of_decide_eq_true shown⟩

end Response

end ScopedClauses
