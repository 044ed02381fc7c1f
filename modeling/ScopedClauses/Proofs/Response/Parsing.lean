import ScopedClauses.Proofs.Aggregation.Hosted
import ScopedClauses.Proofs.Response.Following
import ScopedClauses.Proofs.Response.Parts

/-!
A response and the request that it answers are read side by side: each node of the response is
made from a raw object, and the nodes below it, level by level, are those that the raw object
lists for the aggregations below.
-/

namespace ScopedClauses

open Rose Tree

theorem Result.mapM_forall₂ {change : α → Result β} {items : List α} {made : List β}
    (done : items.mapM change = .ok made) :
    List.Forall₂ (fun item result => change item = .ok result) items made := by
  induction items generalizing made with
  | nil =>
      cases Result.pure_ok.mp done
      exact .nil
  | cons item rest ih =>
      simp only [List.mapM_cons, Result.bind_ok, Result.pure_ok] at done
      obtain ⟨first, here, others, later, rfl⟩ := done
      exact .cons here (ih later)

namespace ResponseNode

def isAt (name : String) (node : ResponseNode) : Bool := node.bucket?.any (·.level = name)

def Shows (name : String) (clause : AggClause) (part : Option Json × Json) (node : ResponseNode) :
    Prop :=
  ∃ bucket, node = .bucket bucket ∧ bucket.level = name ∧ bucket.kind = clause.kind ∧
    bucket.key = part.1 ∧ bucket.value = clause.kind.valueOf part.2

def Answers (name : String) (clause : AggClause) (children : List (Branch AggNode))
    (part : Option Json × Json) (shape : Shape ResponseNode) : Prop :=
  Shows name clause part shape.label.content ∧
    ofAggregations part.2 children = .ok shape.children

section Levels

variable {raw inner : Json} {name : String} {clause : AggClause}
  {nodes : List (Shape ResponseNode)} {children : List (Branch AggNode)}

theorem answers_single {below : List (Shape ResponseNode)}
    (read : ofAggregations inner children = .ok below) :
    List.Forall₂ (Answers name clause children) [(none, inner)]
      [leaf (unkeyed name clause.kind inner) below] :=
  .cons ⟨⟨_, rfl, rfl, rfl, rfl, rfl⟩, read⟩ .nil

theorem answers_value (found : raw.get? name = some inner) (plain : clause.kind.isBucket = false)
    (made : (if clause.kind.valueMembers.isEmpty then pure []
      else pure [leaf (unkeyed name clause.kind inner) []] : Result _) = .ok nodes) :
    ∃ parts, clause.PartsIn name raw parts ∧
      List.Forall₂ (Answers name clause []) parts nodes := by
  split at made
  · rename_i valueless
    cases Result.pure_ok.mp made
    exact ⟨[], .valueless plain (List.isEmpty_iff.mp valueless), .nil⟩
  · rename_i valued
    cases Result.pure_ok.mp made
    exact ⟨_, .value found plain (mt List.isEmpty_iff.mpr valued), answers_single rfl⟩

theorem children_of_plain {label : Entry AggNode}
    (hosted : Aggregations.Hosted [.node label children]) (content : label.content = .clause clause)
    (plain : clause.kind.isBucket = false) : children = [] := by
  by_contra more
  have hosts := (Aggregations.hosted_cons.mp hosted).1 more
  rw [content, AggNode.hosts, plain] at hosts
  cases hosts

/-- The nodes of one aggregation, part by part, each with what is below it read from its part. -/
theorem answers_ofAggregation {branch : Branch AggNode} (hosted : Aggregations.Hosted [branch])
    (named : branch.key = some name) (content : branch.content = .clause clause)
    (made : ofAggregation raw branch = .ok nodes) :
    ∃ parts, clause.PartsIn name raw parts ∧
      List.Forall₂ (Answers name clause branch.children) parts nodes := by
  obtain ⟨label, children⟩ := branch
  have own : label.content = .clause clause := content
  rw [ofAggregation, show label.key = some name from named, own] at made
  rw [children_node]
  cases found : raw.get? name with
  | none =>
      simp only [found] at made
      cases Result.pure_ok.mp made
      exact ⟨[], .absent found, .nil⟩
  | some inner =>
      simp only [found] at made
      cases family : clause.kind.family with
      | bucket multiple =>
          cases multiple with
          | true =>
              simp only [family] at made
              obtain ⟨listed, read, made⟩ := Result.bind_ok.mp made
              refine ⟨_, .buckets found family ((AggClause.extracted_iff read).mpr rfl), ?_⟩
              rw [List.forall₂_map_left_iff]
              refine (Result.mapM_forall₂ made).imp fun item shape here => ?_
              obtain ⟨below, inside, here⟩ := Result.bind_ok.mp here
              cases Result.pure_ok.mp here
              exact ⟨⟨_, rfl, rfl, rfl, rfl, rfl⟩, inside⟩
          | false =>
              simp only [family] at made
              obtain ⟨below, inside, made⟩ := Result.bind_ok.mp made
              cases Result.pure_ok.mp made
              exact ⟨_, .single found family, answers_single inside⟩
      | metric | pipeline =>
          simp only [family] at made
          have plain : clause.kind.isBucket = false := by simp [AggKind.isBucket, family]
          rw [children_of_plain hosted own plain]
          exact answers_value found plain made

theorem level_of_follows (name : String) {request : List (Branch AggNode)}
    {shape : Shape ResponseNode} (follows : Follows request shape) :
    ∃ branch ∈ request, isAt name shape.label.content = true ↔ branch.key = some name := by
  obtain ⟨label, below⟩ := shape
  rw [Follows] at follows
  obtain ⟨branch, listed, bucket, _, content, level, _⟩ := follows
  exact ⟨branch, listed, by simp [content, level, isAt, bucket?]⟩

/-- The nodes at the level of a name are those of the aggregation of that name. -/
theorem filter_ofAggregations {request : List (Branch AggNode)}
    (distinct : (request.filterMap Rose.key).Nodup)
    (made : ofAggregations raw request = .ok nodes) {branch : Branch AggNode}
    (listed : branch ∈ request) (named : branch.key = some name) :
    ofAggregation raw branch =
      .ok (nodes.filter fun shape => isAt name shape.label.content) := by
  induction request generalizing nodes with
  | nil => cases listed
  | cons first rest ih =>
      simp only [ofAggregations, Result.bind_ok, Result.pure_ok] at made
      obtain ⟨own, here, others, later, rfl⟩ := made
      have level : ∀ shape ∈ own, isAt name shape.label.content = true ↔ first.key = some name := by
        intro shape inside
        obtain ⟨_, same, level⟩ := level_of_follows name
          (followAll_iff.mp (follows_ofAggregation first here) shape inside)
        cases List.mem_singleton.mp same
        exact level
      rw [List.filter_append]
      by_cases same : first.key = some name
      · rw [List.filterMap_cons_some same, List.nodup_cons] at distinct
        have apart : ∀ other ∈ rest, other.key ≠ some name := fun other inside again =>
          distinct.1 (List.mem_filterMap.mpr ⟨other, inside, again⟩)
        have only : branch = first :=
          (List.mem_cons.mp listed).resolve_right fun inside => apart branch inside named
        have kept := List.filter_eq_self.mpr fun shape inside => (level shape inside).mpr same
        have gone : others.filter (fun shape => isAt name shape.label.content) = [] := by
          refine List.filter_eq_nil_iff.mpr fun shape inside there => ?_
          obtain ⟨other, among, level⟩ := level_of_follows name
            (followAll_iff.mp (follows_ofAggregations rest later) shape inside)
          exact apart other among (level.mp there)
        rw [only, here, kept, gone, List.append_nil]
      · have inside := (List.mem_cons.mp listed).resolve_left fun here => same (here ▸ named)
        have gone := List.filter_eq_nil_iff.mpr fun shape inside there =>
          same ((level shape inside).mp there)
        rw [gone, List.nil_append]
        exact ih (distinct.sublist ((List.sublist_cons_self first rest).filterMap Rose.key)) later
          inside

end Levels

end ResponseNode

namespace Aggregations

theorem names_top (forest : List (Branch AggNode)) :
    (forest.filterMap Rose.key).Sublist ((entries forest).filterMap (·.key)) := by
  induction forest with
  | nil => exact .slnil
  | cons branch rest ih =>
      obtain ⟨label, below⟩ := branch
      rw [entries_cons, List.filterMap_cons, List.filterMap_cons, List.filterMap_append]
      have later := ih.trans (List.sublist_append_right ((entries below).filterMap (·.key)) _)
      cases named : label.key with
      | none => simpa [named] using later
      | some name => simpa [named] using later

theorem names_children {tree : Tree AggNode} (distinct : (names tree).Nodup)
    {branch : Branch AggNode} (member : branch ∈ tree.live) :
    (branch.children.filterMap Rose.key).Nodup := by
  exact distinct.sublist ((names_top branch.children).trans
    ((sublist_entries tree.branches member).filterMap _))

end Aggregations

namespace Response

open ResponseNode Aggregations

def childrenAt (name : String) (node : Branch ResponseNode) : List (Branch ResponseNode) :=
  node.children.filter fun child => child.content.isAt name

def levels (response : Response) (id : Nat) : List String :=
  (response.tree.ancestry id).filterMap fun node => node.content.bucket?.map Bucket.level

/-- A node of a response with the node of the request that it answers and the raw object that it
was made from. The root is made from the whole body. For each aggregation below, the children at
its level are made from its parts of the raw object, in their order. -/
inductive Made (aggs : Aggregations) (raw : Json) (response : Response) :
    Branch ResponseNode → Branch AggNode → Json → Prop where
  | root {node : Branch ResponseNode} {request : Branch AggNode} :
      response.tree.root = some node → aggs.tree.root = some request →
      Made aggs raw response node request (body aggs raw)
  | child {node inside : Branch ResponseNode} {branch inner : Branch AggNode} {object : Json}
      {name : String} {clause : AggClause} {parts : List (Option Json × Json)}
      {part : Option Json × Json} :
      Made aggs raw response node branch object → inner ∈ branch.children →
      inner.key = some name → inner.content = .clause clause → clause.PartsIn name object parts →
      (part, inside) ∈ parts.zip (childrenAt name node) →
      Made aggs raw response inside inner part.2

structure Posed (aggs : Aggregations) : Prop where
  numbered : aggs.tree.Numbered
  settled : aggs.tree.detached = []
  hosted : Hosted aggs.tree.branches
  distinct : (names aggs.tree).Nodup
  rooted : ∃ root, aggs.tree.root = some root
  unnamed : ∀ branch ∈ aggs.tree.nodes, branch.key = none ↔ aggs.tree.root = some branch

theorem root_of_unnamed {tree : Tree AggNode} (sound : Sound tree) {branch : Branch AggNode}
    (live : branch ∈ tree.live) (unnamed : branch.key = none) : tree.root = some branch := by
  have top := sound.named branch.label (List.mem_map_of_mem live) unnamed
  obtain ⟨root, rooted, same⟩ := Option.map_eq_some_iff.mp top
  rw [rooted, eq_of_id sound.numbered.distinct (live_of_root rooted) live same]

theorem posed_run (mapping : Option Mapping) (autocorrect : Bool) (operations : List Operation)
    {aggs : Aggregations}
    (ran : operations.foldlM Operation.apply { mapping := mapping, autocorrect := autocorrect } =
      .ok aggs)
    (distinct : (aggs.tree.nodes.filterMap Rose.key).Nodup) : Posed aggs := by
  have start : Anchored { mapping := mapping, autocorrect := autocorrect } :=
    ⟨founded_empty mapping autocorrect, fun id set => by cases set⟩
  have anchored := (pointer_run start operations ran).1
  obtain ⟨whole, hosted⟩ := hosted_run .refl operations ran
  obtain ⟨_, request, bare, _⟩ := anchored.request
  obtain ⟨root, live, rfl⟩ := List.mem_map.mp request
  have rooted := root_of_unnamed anchored.toSound live bare
  refine ⟨whole.numbered, whole.settled, hosted, names_eq whole.settled ▸ distinct, ⟨root, rooted⟩,
    fun branch member => ⟨fun keyless => ?_, fun top => ?_⟩⟩
  · exact root_of_unnamed anchored.toSound (nodes_eq_live whole.settled ▸ member) keyless
  · cases rooted.symm.trans top
    exact bare

theorem Posed.root_key {aggs : Aggregations} (posed : Posed aggs) {root : Branch AggNode}
    (rooted : aggs.tree.root = some root) : root.key = none :=
  (posed.unnamed root (nodes_eq_live posed.settled ▸ live_of_root rooted)).mpr rooted

structure Read (aggs : Aggregations) (response : Response) (node : Branch ResponseNode)
    (branch : Branch AggNode) (object : Json) : Prop where
  nodeLive : node ∈ response.tree.live
  branchLive : branch ∈ aggs.tree.live
  children : ofAggregations object branch.children = .ok (shapes node.children)
  levels : response.levels node.id = (aggs.tree.ancestry branch.id).filterMap Rose.key

section Reading

variable {aggs : Aggregations} {raw object : Json} {response : Response}
  {node : Branch ResponseNode} {branch inner : Branch AggNode} {name : String} {clause : AggClause}

theorem Read.shows (read : Read aggs response node branch object) (posed : Posed aggs)
    (listed : inner ∈ branch.children) (named : inner.key = some name)
    (content : inner.content = .clause clause) :
    ∃ parts, clause.PartsIn name object parts ∧
      List.Forall₂ (fun part child => Shows name clause part child.content ∧
        ofAggregations part.2 inner.children = .ok (shapes child.children))
        parts (childrenAt name node) := by
  have own := filter_ofAggregations (names_children posed.distinct read.branchLive) read.children
    listed named
  have live := mem_preorderAll_trans _ read.branchLive (mem_preorderAll_of_mem listed)
  obtain ⟨parts, holds, shown⟩ := answers_ofAggregation (hosted_of_mem posed.hosted live) named
    content own
  rw [shapes_eq_map, List.filter_map, List.forall₂_map_right_iff] at shown
  have same : (node.children.filter
      ((fun shape => isAt name shape.label.content) ∘ Rose.shape)) = childrenAt name node := by
    refine List.filter_congr fun child _ => ?_
    rw [Function.comp_apply, content_shape]
  rw [same] at shown
  refine ⟨parts, holds, shown.imp fun part child here => ?_⟩
  rwa [Answers, content_shape, children_shape] at here

theorem Read.shows_part (read : Read aggs response node branch object) (posed : Posed aggs)
    (listed : inner ∈ branch.children) (named : inner.key = some name)
    (content : inner.content = .clause clause) {parts : List (Option Json × Json)}
    (holds : clause.PartsIn name object parts) {part : Option Json × Json}
    {child : Branch ResponseNode} (paired : (part, child) ∈ parts.zip (childrenAt name node)) :
    Shows name clause part child.content ∧
      ofAggregations part.2 inner.children = .ok (shapes child.children) := by
  obtain ⟨others, also, shown⟩ := read.shows posed listed named content
  rw [also.unique holds] at shown
  exact (List.forall₂_iff_zip.mp shown).2 paired

theorem tree_of_parsed (parsed : Response.ofJson aggs raw = .ok response) :
    response.aggs = aggs ∧ ∃ nodes, response.tree = Tree.ofShape (.node ⟨none, .root⟩ nodes) := by
  simp only [Response.ofJson] at parsed
  split at parsed
  · cases parsed
  · simp only [Result.bind_ok, Result.pure_ok] at parsed
    obtain ⟨nodes, _, rfl⟩ := parsed
    exact ⟨rfl, nodes, rfl⟩

theorem read_root (posed : Posed aggs) (parsed : Response.ofJson aggs raw = .ok response)
    (rooted : response.tree.root = some node) (requested : aggs.tree.root = some branch) :
    Read aggs response node branch (body aggs raw) := by
  simp only [Response.ofJson, requested] at parsed
  split at parsed
  · cases parsed
  · simp only [Result.bind_ok, Result.pure_ok] at parsed
    obtain ⟨nodes, made, rfl⟩ := parsed
    have top : node = .node ⟨⟨none, .root⟩, 0⟩ (numberAll 1 nodes) := by
      simpa [ofShape, number] using rooted.symm
    refine ⟨live_of_root rooted, live_of_root requested, ?_, ?_⟩
    · rw [top, children_node, shapes_numberAll]
      exact made
    · rw [levels, ancestry_of_root (numbered_ofShape _) rooted, ancestry_of_root posed.numbered requested,
        List.filterMap_cons_none (posed.root_key requested), top]
      rfl

theorem read_child (posed : Posed aggs) (numberedNodes : response.tree.Numbered)
    (read : Read aggs response node branch object) (listed : inner ∈ branch.children)
    (named : inner.key = some name) (content : inner.content = .clause clause)
    {parts : List (Option Json × Json)} (holds : clause.PartsIn name object parts)
    {part : Option Json × Json} {child : Branch ResponseNode}
    (paired : (part, child) ∈ parts.zip (childrenAt name node)) :
    Read aggs response child inner part.2 := by
  obtain ⟨⟨bucket, held, level, _⟩, below⟩ :=
    read.shows_part posed listed named content holds paired
  have inside : child ∈ node.children := List.mem_of_mem_filter (List.of_mem_zip paired).2
  obtain ⟨outward, way, ways⟩ := ancestry_of_live numberedNodes read.nodeLive
  obtain ⟨above, path, paths⟩ := ancestry_of_live posed.numbered read.branchLive
  have levels := read.levels
  refine ⟨mem_preorderAll_trans _ read.nodeLive (mem_preorderAll_of_mem inside),
    mem_preorderAll_trans _ read.branchLive (mem_preorderAll_of_mem listed), below, ?_⟩
  rw [Response.levels, way, path] at levels
  rw [Response.levels, ways child inside, paths inner listed, List.filterMap_cons_some named,
    ← levels]
  refine List.filterMap_cons_some ?_
  rw [held, ← level]
  rfl

theorem read_made (posed : Posed aggs) (parsed : Response.ofJson aggs raw = .ok response)
    (made : Made aggs raw response node branch object) : Read aggs response node branch object := by
  have numberedNodes : response.tree.Numbered := by
    obtain ⟨_, nodes, tree⟩ := tree_of_parsed parsed
    exact tree ▸ numbered_ofShape _
  induction made with
  | root rooted requested => exact read_root posed parsed rooted requested
  | child _ listed named content holds paired ih =>
      exact read_child posed numberedNodes ih listed named content holds paired

theorem Read.level (read : Read aggs response node branch object) {child : Branch ResponseNode}
    (inside : child ∈ node.children) :
    ∃ inner ∈ branch.children, ∃ name clause, inner.key = some name ∧
      inner.content = .clause clause ∧ child ∈ childrenAt name node := by
  have follow := followAll_iff.mp (follows_ofAggregations branch.children read.children)
    child.shape (mem_shapes.mpr ⟨child, inside, rfl⟩)
  rw [← node_eta child, shape_node, Follows] at follow
  obtain ⟨inner, listed, bucket, clause, held, named, content, _⟩ := follow
  have known : child.content = .bucket bucket := held
  refine ⟨inner, listed, bucket.level, clause, named, content, List.mem_filter.mpr ⟨inside, ?_⟩⟩
  simp [known, isAt, bucket?]

/-- Each node of a response was made from something. -/
theorem made_nodes (posed : Posed aggs) (parsed : Response.ofJson aggs raw = .ok response) :
    ∀ node ∈ response.tree.nodes, ∃ branch object, Made aggs raw response node branch object := by
  refine forall_preorderAll (fun top listed => ?_) fun node ⟨branch, object, made⟩ child inside => ?_
  · obtain ⟨root, rooted⟩ := posed.rooted
    exact ⟨root, body aggs raw, .root (Option.mem_toList.mp listed) rooted⟩
  · have read := read_made posed parsed made
    obtain ⟨inner, listed, name, clause, named, content, among⟩ := read.level inside
    obtain ⟨parts, holds, shown⟩ := read.shows posed listed named content
    obtain ⟨part, paired⟩ := exists_paired shown among
    exact ⟨inner, part.2, .child made listed named content holds paired⟩

end Reading

/-- A response is read side by side with the request that it answers. Each node was made from a
raw object by the aggregation whose path of names is that of the node. The children of a node are
at the levels of the aggregations below, and at each level they show, one by one and in order, the
parts that the raw object has for that aggregation. -/
theorem ofJson_lockstep (mapping : Option Mapping) (autocorrect : Bool)
    (operations : List Operation) {aggs : Aggregations}
    (ran : operations.foldlM Operation.apply { mapping := mapping, autocorrect := autocorrect } =
      .ok aggs)
    (distinct : (aggs.tree.nodes.filterMap Rose.key).Nodup) {raw : Json} {response : Response}
    (parsed : Response.ofJson aggs raw = .ok response) :
    (∀ node ∈ response.tree.nodes, ∃ branch object, Made aggs raw response node branch object) ∧
    ∀ node branch object, Made aggs raw response node branch object →
      response.levels node.id = (aggs.tree.ancestry branch.id).filterMap Rose.key ∧
      (∀ child ∈ node.children, ∃ inner ∈ branch.children, ∃ name clause, inner.key = some name ∧
        inner.content = .clause clause ∧ child ∈ childrenAt name node) ∧
      ∀ inner ∈ branch.children, ∀ name clause, inner.key = some name →
        inner.content = .clause clause → ∃ parts, clause.PartsIn name object parts ∧
          List.Forall₂ (fun part child => Shows name clause part child.content)
            parts (childrenAt name node) := by
  have posed := posed_run mapping autocorrect operations ran distinct
  refine ⟨made_nodes posed parsed, fun node branch object made => ?_⟩
  have read := read_made posed parsed made
  refine ⟨read.levels, fun child => read.level, fun inner listed name clause named content => ?_⟩
  obtain ⟨parts, holds, shown⟩ := read.shows posed listed named content
  exact ⟨parts, holds, shown.imp fun _ _ here => here.1⟩

def filteredSizes : Json :=
  let small := Json.object [("range", .object [("size", .object [("lt", .ofNat 9)])])]
  .object [("sizes", .object [
    ("filters", .object [("filters", .object [("small", small), ("large", small)]),
      ("other_bucket_key", .string "rest")]),
    ("aggs", .object [("mean", .object [("avg", .object [("field", .string "size")])])])])]

def filteredResponse : Json :=
  let bucket := Json.object [("doc_count", .ofNat 2), ("mean", .object [("value", .ofNat 5)])]
  .object [("sizes", .object [("buckets", .object [("small", bucket),
    ("rest", .object [("doc_count", .ofNat 1)]), ("large", bucket)])])]

theorem ofJson_lockstep_filters :
    ∃ aggs response, [Operation.ofJson filteredSizes].foldlM Operation.apply {} = .ok aggs ∧
      Response.ofJson aggs filteredResponse = .ok response ∧
      (response.tree.nodes.map fun node => response.levels node.id) =
        [[], ["sizes"], ["mean", "sizes"], ["sizes"], ["mean", "sizes"], ["sizes"]] ∧
      ∀ node ∈ response.tree.nodes, ∃ branch object,
        Made aggs filteredResponse response node branch object ∧
        response.levels node.id = (aggs.tree.ancestry branch.id).filterMap Rose.key := by
  have made : ([Operation.ofJson filteredSizes].foldlM Operation.apply {}).toOption.any
      (fun aggs => decide (aggs.tree.nodes.filterMap Rose.key).Nodup &&
        (Response.ofJson aggs filteredResponse).toOption.any fun response =>
          decide ((response.tree.nodes.map fun node => response.levels node.id) =
            [[], ["sizes"], ["mean", "sizes"], ["sizes"], ["mean", "sizes"], ["sizes"]])) = true := by
    decide +kernel
  obtain ⟨aggs, ran, facts⟩ := Result.ok_of_any made
  rw [Bool.and_eq_true] at facts
  obtain ⟨response, parsed, levels⟩ := Result.ok_of_any facts.2
  obtain ⟨every, known⟩ :=
    ofJson_lockstep none true [.ofJson filteredSizes] ran (of_decide_eq_true facts.1) parsed
  refine ⟨aggs, response, ran, parsed, of_decide_eq_true levels, fun node member => ?_⟩
  obtain ⟨branch, object, made⟩ := every node member
  exact ⟨branch, object, made, (known node branch object made).1⟩

end Response

end ScopedClauses
