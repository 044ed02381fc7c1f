import Mathlib.Data.List.Pairwise
import ScopedClauses.Proofs.Response.Columns

/-!
Finding a bucket by the levels and keys on the way to it. A step of the search looks through buckets
without keys, and takes the first match. All that it may match lies below one node, so that keys which
differ there lead to one bucket.
-/

namespace ScopedClauses

open Rose Tree

namespace Json

theorem proper_null : Json.null.Proper := ⟨rfl, rfl⟩

theorem proper_ofNat (value : Nat) : (Json.ofNat value).Proper :=
  ⟨rfl, beq_self_eq_true (value : Int)⟩

theorem proper_string (value : String) : (Json.string value).Proper := ⟨rfl, rfl⟩

end Json

namespace AggClause

variable {clause : AggClause} {raw : Json}

theorem Listed.proper {index : Nat} {part : Option Json × Json}
    (listed : clause.Listed (raw, index) part) (proper : raw.Proper) :
    part.2.Proper ∧ ∀ key, part.1 = some key → key.Proper := by
  cases listed with
  | own found => exact ⟨proper, fun key same => Option.some.inj same ▸ proper.get? found⟩
  | place => exact ⟨proper, fun key same => Option.some.inj same ▸ Json.proper_ofNat index⟩
  | keyless => exact ⟨proper, fun key same => Option.some.inj same ▸ Json.proper_null⟩

theorem proper_of_member {members ordered : Members} (object : (Json.object members).Proper)
    (same : ordered.Perm members) {part : Option Json × Json}
    (listed : part ∈ ordered.map fun (key, item) => (some (Json.string key), item)) :
    part.2.Proper ∧ ∀ key, part.1 = some key → key.Proper := by
  obtain ⟨⟨key, item⟩, among, rfl⟩ := List.mem_map.mp listed
  exact ⟨object.member (same.subset among), fun key same => Option.some.inj same ▸ Json.proper_string _⟩

/-- The parts of a value that a text can hold are such values too, and so are their keys. -/
theorem PartsIn.proper {name : String} {parts : List (Option Json × Json)} (proper : raw.Proper)
    (holds : clause.PartsIn name raw parts) {part : Option Json × Json} (listed : part ∈ parts) :
    part.2.Proper ∧ ∀ key, part.1 = some key → key.Proper := by
  cases holds with
  | absent | valueless => cases listed
  | buckets found _ extracted =>
      have own := proper.get? found
      cases extracted with
      | list array each =>
          obtain ⟨⟨item, index⟩, paired⟩ := exists_paired each listed
          have inside := List.fst_mem_of_mem_zipIdx (List.of_mem_zip paired).1
          exact ((List.forall₂_iff_zip.mp each).2 paired).proper
            (Json.proper_array.mp (own.get? array) item inside)
      | filters object _ _ moved => exact proper_of_member (own.get? object) moved.perm listed
      | keyed object => exact proper_of_member (own.get? object) (.refl _) listed
  | single found | value found =>
      obtain rfl := List.mem_singleton.mp listed
      exact ⟨proper.get? found, fun key none => by cases none⟩

end AggClause

namespace Response

open ResponseNode Aggregations

variable {aggs : Aggregations} {raw object part : Json} {response : Response}
  {node target : Branch ResponseNode} {branch inner : Branch AggNode} {level : String} {key : Json}

def keyStep? (node : Branch ResponseNode) : Option (String × Json) := do
  let bucket ← node.content.bucket?
  let key ← bucket.key
  pure (bucket.level, key)

def keyPath (response : Response) (id : Nat) : List (String × Json) :=
  (response.tree.ancestry id).reverse.filterMap keyStep?

def sameStep (first second : String × Json) : Bool :=
  first.1 = second.1 && first.2.agrees second.2

def KeysApart (response : Response) : Prop :=
  ∀ holder ∈ response.tree.nodes, (holder.children.filterMap keyStep?).Pairwise fun first second =>
    sameStep first second = false ∧ sameStep second first = false

theorem KeysApart.eq_of_agrees (apart : KeysApart response) (member : node ∈ response.tree.nodes)
    {first second : Branch ResponseNode} (inFirst : first ∈ node.children)
    (inSecond : second ∈ node.children) {other : Json} (stepFirst : keyStep? first = some (level, key))
    (stepSecond : keyStep? second = some (level, other)) (agrees : key.agrees other = true) :
    first = second := by
  by_contra different
  have pairs := List.pairwise_filterMap.mp (apart node member)
  have : Std.Symm fun first second : Branch ResponseNode =>
      ∀ step, keyStep? first = some step → ∀ other, keyStep? second = some other →
        sameStep step other = false ∧ sameStep other step = false :=
    ⟨fun first second both step one other two => (both other two step one).symm⟩
  have unlike := pairs.forall inFirst inSecond different _ stepFirst _ stepSecond
  simp [sameStep, agrees] at unlike

theorem keyStep?_eq_some {step : String × Json} : keyStep? node = some step ↔
    ∃ bucket, node.content = .bucket bucket ∧ bucket.level = step.1 ∧ bucket.key = some step.2 := by
  obtain ⟨level, key⟩ := step
  cases content : node.content with
  | root => simp [keyStep?, content, bucket?]
  | bucket bucket => simp [keyStep?, content, bucket?, Option.bind_eq_some_iff, and_comm]

theorem descend?_append (first second : List (String × Json)) :
    descend? node (first ++ second) = (descend? node first).bind fun last => descend? last second := by
  induction first generalizing node with
  | nil => rfl
  | cons step rest ih =>
      obtain ⟨level, key⟩ := step
      simp only [List.cons_append, descend?, Option.bind_eq_bind, Option.bind_assoc, ih]

/-! ### One step of the search -/

def Unkeyed (node : Branch ResponseNode) : Prop :=
  ∃ bucket, node.content = .bucket bucket ∧ bucket.key = none ∧ bucket.kind.isBucket = true

inductive Within : Branch ResponseNode → Branch ResponseNode → Prop where
  | child {outer inner : Branch ResponseNode} : inner ∈ outer.children → Within outer inner
  | through {outer middle inner : Branch ResponseNode} : middle ∈ outer.children → Unkeyed middle →
      Within middle inner → Within outer inner

theorem Within.inside {outer inner : Branch ResponseNode} (within : Within outer inner) :
    inner ∈ preorderAll outer.children := by
  induction within with
  | child listed => exact mem_preorderAll_of_mem listed
  | through listed _ _ ih => exact mem_preorderAll_trans _ (mem_preorderAll_of_mem listed) ih

theorem Within.further {outer middle inner : Branch ResponseNode} (within : Within outer middle)
    (unkeyed : Unkeyed middle) (listed : inner ∈ middle.children) : Within outer inner := by
  induction within with
  | child among => exact .through among unkeyed (.child listed)
  | through among between _ ih => exact .through among between (ih unkeyed listed)

def KeyedAs (level : String) (key : Json) (node : Branch ResponseNode) : Prop :=
  ∃ own, keyStep? node = some (level, own) ∧ own.agrees key = true

theorem keyedAt?_match (found : KeyedAs level key node) : keyedAt? level key node = some node := by
  obtain ⟨own, step, agrees⟩ := found
  obtain ⟨bucket, content, same, keyed⟩ := keyStep?_eq_some.mp step
  obtain ⟨label, children⟩ := node
  have held : label.content = .bucket bucket := content
  simp [keyedAt?, held, same, keyed, agrees]

theorem keyedAt?_unkeyed (unkeyed : Unkeyed node) :
    keyedAt? level key node = keyedAmong? level key node.children := by
  obtain ⟨bucket, content, keyless, buckets⟩ := unkeyed
  obtain ⟨label, children⟩ := node
  have held : label.content = .bucket bucket := content
  simp [keyedAt?, held, keyless, buckets]

theorem keyedAt?_cases (found : keyedAt? level key node = some target) :
    (target = node ∧ KeyedAs level key node) ∨
      (Unkeyed node ∧ keyedAmong? level key node.children = some target) := by
  obtain ⟨label, children⟩ := node
  rw [keyedAt?] at found
  cases content : label.content with
  | root => simp [content] at found
  | bucket bucket =>
      simp only [content] at found
      split at found
      · rename_i same
        simp only [Bool.and_eq_true, decide_eq_true_eq, Option.any_eq_true_iff_get] at same
        obtain ⟨level, keyed, agrees⟩ := same
        refine Or.inl ⟨(Option.some.inj found).symm, _, ?_, agrees⟩
        exact keyStep?_eq_some.mpr ⟨bucket, content, level, (Option.some_get keyed).symm⟩
      · split at found
        · rename_i through
          simp only [Bool.and_eq_true, Option.isNone_iff_eq_none] at through
          exact Or.inr ⟨⟨bucket, content, through.1, through.2⟩, found⟩
        · cases found

theorem keyedAmong?_sound {forest : List (Branch ResponseNode)}
    (found : keyedAmong? level key forest = some target) : KeyedAs level key target ∧
      ∃ top ∈ forest, target = top ∨ Unkeyed top ∧ Within top target := by
  induction forest using forestInduction with
  | nil => cases found
  | cons label children rest ihBelow ihBeside =>
      rw [keyedAmong?] at found
      split at found
      · rename_i here
        cases found
        rcases keyedAt?_cases here with ⟨rfl, own⟩ | ⟨unkeyed, below⟩
        · exact ⟨own, _, List.mem_cons_self, Or.inl rfl⟩
        · obtain ⟨own, top, listed, way⟩ := ihBelow below
          refine ⟨own, _, List.mem_cons_self, Or.inr ⟨unkeyed, ?_⟩⟩
          rcases way with rfl | ⟨between, within⟩
          · exact .child listed
          · exact .through listed between within
      · obtain ⟨own, top, listed, way⟩ := ihBeside found
        exact ⟨own, top, List.mem_cons_of_mem _ listed, way⟩

theorem keyedAmong?_isSome {forest : List (Branch ResponseNode)} (listed : node ∈ forest)
    (here : (keyedAt? level key node).isSome = true) :
    (keyedAmong? level key forest).isSome = true := by
  induction forest with
  | nil => cases listed
  | cons first rest ih =>
      rw [keyedAmong?]
      split
      · rfl
      · rename_i absent
        rcases List.mem_cons.mp listed with rfl | later
        · rw [absent] at here
          cases here
        · exact ih later

theorem keyedAmong?_complete (within : Within node target) (own : KeyedAs level key target) :
    (keyedAmong? level key node.children).isSome = true := by
  induction within with
  | child listed =>
      refine keyedAmong?_isSome listed ?_
      rw [keyedAt?_match own]
      rfl
  | through listed unkeyed _ ih =>
      refine keyedAmong?_isSome listed ?_
      rw [keyedAt?_unkeyed unkeyed]
      exact ih own

theorem Made.proper (made : Made aggs raw response node branch object) (proper : raw.Proper) :
    object.Proper := by
  induction made with
  | root =>
      unfold body
      split
      · exact proper.get? ‹_›
      · exact proper
  | child _ _ _ _ holds paired ih => exact (holds.proper ih (List.of_mem_zip paired).1).1

/-! ### No other match -/

namespace Answered

variable (answered : Answered aggs raw response)

include answered

theorem alone_of_within (made : Made aggs raw response node branch object)
    (within : Within node target) : ∃ inner part, Made aggs raw response target inner part ∧
      Alone branch inner := by
  induction within generalizing branch object with
  | child listed =>
      obtain ⟨inner, inside, part, own⟩ := answered.made_child made listed
      exact ⟨inner, part, own, .child inside⟩
  | through listed unkeyed _ ih =>
      obtain ⟨middle, inside, part, own⟩ := answered.made_child made listed
      obtain ⟨inner, further, last, alone⟩ := ih own
      obtain ⟨bucket, content, keyless, _⟩ := unkeyed
      refine ⟨inner, further, last, ?_⟩
      cases answered.beside own with
      | root holds => cases content.symm.trans holds
      | bucket holds _ kind keyed =>
          cases content.symm.trans holds
          rw [keyless] at keyed
          exact .through inside kind keyed.symm alone

/-- Where keys are apart, one node within another one has a level and key. -/
theorem match_unique (apart : KeysApart response) (made : Made aggs raw response node branch object)
    {first second : Branch ResponseNode} (withinFirst : Within node first)
    (withinSecond : Within node second) (step : keyStep? second = some (level, key))
    (matched : KeyedAs level key first) : first = second := by
  obtain ⟨own, stepFirst, agrees⟩ := matched
  obtain ⟨inner, _, madeFirst, alone⟩ := answered.alone_of_within made withinFirst
  obtain ⟨other, _, madeSecond, _⟩ := answered.alone_of_within made withinSecond
  have atLevel : ∀ {lower : Branch ResponseNode} {key : Json},
      keyStep? lower = some (level, key) → lower.content.isAt level = true := by
    intro lower key step
    obtain ⟨bucket, content, same, _⟩ := keyStep?_eq_some.mp step
    rw [content]
    exact decide_eq_true same
  have named := ((answered.beside madeFirst).isAt_iff_key level).mp (atLevel stepFirst)
  obtain rfl := answered.made_at madeSecond (atLevel step) (answered.read madeFirst).branchLive named
  obtain ⟨holder, _, _, madeHolder, underFirst, underSecond⟩ := answered.alone_below alone made
    withinFirst.inside withinSecond.inside madeFirst madeSecond
  exact apart.eq_of_agrees madeHolder.mem_nodes underFirst underSecond stepFirst step agrees

/-- A step of the search comes to the only node within another one that has the level and key. -/
theorem keyedAmong?_unique (apart : KeysApart response)
    (made : Made aggs raw response node branch object) (within : Within node target)
    (step : keyStep? target = some (level, key)) (reflexive : key.agrees key = true) :
    keyedAmong? level key node.children = some target := by
  obtain ⟨found, search⟩ := Option.isSome_iff_exists.mp
    (keyedAmong?_complete within ⟨key, step, reflexive⟩)
  obtain ⟨matched, top, listed, way⟩ := keyedAmong?_sound search
  have withinFound : Within node found := by
    rcases way with rfl | ⟨unkeyed, further⟩
    · exact .child listed
    · exact .through listed unkeyed further
  rw [search, answered.match_unique apart made withinFound within step matched]

/-! ### All steps of the search -/

theorem root_content (rooted : response.tree.root = some node)
    (requested : aggs.tree.root = some branch) : node.content = .root := by
  have made : Made aggs raw response node branch (body aggs raw) := .root rooted requested
  cases answered.beside made with
  | root content => exact content
  | bucket _ named =>
      have unnamed := (answered.unnamed branch (answered.branch_mem_nodes made)).mpr requested
      cases unnamed.symm.trans named

/-- A node that shows a bucket shows a part of what its parent was made from. -/
theorem part_of_bucket
    (made : Made aggs raw response node branch object) {bucket : Bucket}
    (content : node.content = .bucket bucket) : ∃ parent around whole name clause parts,
      Made aggs raw response parent around whole ∧ branch.content = .clause clause ∧
      bucket.kind = clause.kind ∧ clause.PartsIn name whole parts ∧
      (bucket.key, object) ∈ parts := by
  cases made with
  | root rooted requested =>
      cases content.symm.trans (answered.root_content rooted requested)
  | @child parent _ around _ whole name clause parts pair above listed named held holds paired =>
      obtain ⟨⟨own, same, _, kind, key, _⟩, _⟩ :=
        (answered.read above).shows_part answered.toPosed listed named held holds paired
      cases content.symm.trans same
      have part : (bucket.key, pair.2) = pair := by rw [key]
      exact ⟨parent, around, whole, name, clause, parts, above, held, kind, holds,
        part ▸ (List.of_mem_zip paired).1⟩

theorem unkeyed_of_child (made : Made aggs raw response node branch object) (inside : inner ∈ branch.children)
    {bucket : Bucket} (content : node.content = .bucket bucket) (keyless : bucket.key = none) :
    Unkeyed node := by
  obtain ⟨_, _, _, _, clause, _, _, held, kind, _⟩ := answered.part_of_bucket made content
  have hosts := answered.hosted branch (answered.read made).branchLive (List.ne_nil_of_mem inside)
  rw [held] at hosts
  exact ⟨bucket, content, keyless, kind ▸ hosts⟩

theorem agrees_keyStep (proper : raw.Proper)
    (made : Made aggs raw response node branch object) (step : keyStep? node = some (level, key)) :
    key.agrees key = true := by
  obtain ⟨bucket, content, _, keyed⟩ := keyStep?_eq_some.mp step
  obtain ⟨_, _, _, _, _, _, above, _, _, holds, listed⟩ := answered.part_of_bucket made content
  have own := (holds.proper (above.proper proper) listed).2 key keyed
  exact Json.agrees_self key own.distinct own.comparable

theorem keyPath_child (made : Made aggs raw response node branch object) {child : Branch ResponseNode}
    (inside : child ∈ node.children) :
    response.keyPath child.id = response.keyPath node.id ++ (keyStep? child).toList := by
  rw [keyPath, ancestry_of_child answered.numberedNodes (answered.read made).nodeLive inside,
    List.reverse_cons, List.filterMap_append]
  cases step : keyStep? child <;> simp [keyPath, step]

/-- The keys around a node lead to it, or to a node that it is within. -/
theorem descend?_keyPath (proper : raw.Proper)
    (apart : KeysApart response) (made : Made aggs raw response node branch object) :
    ∃ root last around whole, response.tree.root = some root ∧
      descend? root (response.keyPath node.id) = some last ∧
      Made aggs raw response last around whole ∧
      (last = node ∨
        (∃ bucket, node.content = .bucket bucket ∧ bucket.key = none) ∧ Within last node) := by
  induction made with
  | @root node request rooted requested =>
      have made : Made aggs raw response node request (body aggs raw) := .root rooted requested
      refine ⟨node, node, request, _, rooted, ?_, made, Or.inl rfl⟩
      have bare : keyStep? node = none := by
        simp [keyStep?, answered.root_content rooted requested, bucket?]
      rw [keyPath, ancestry_of_root answered.numberedNodes rooted]
      simp [bare, descend?]
  | @child node child branch inner object name clause _ part made listed named content holds paired ih =>
      have inside : child ∈ node.children := List.mem_of_mem_filter (List.of_mem_zip paired).2
      have own : Made aggs raw response child inner part.2 :=
        .child made listed named content holds paired
      obtain ⟨root, last, around, whole, rooted, leads, madeLast, way⟩ := ih
      -- a node without a key is looked through on the way to its child
      have within : Within last child := by
        rcases way with rfl | ⟨⟨bucket, held, keyless⟩, within⟩
        · exact .child inside
        · exact within.further (answered.unkeyed_of_child made listed held keyless) inside
      rw [answered.keyPath_child made inside]
      cases step : keyStep? child with
      | none =>
          refine ⟨root, last, around, whole, rooted, by simpa using leads, madeLast, ?_⟩
          cases answered.beside own with
          | root _ unnamed => cases named.symm.trans unnamed
          | @bucket bucket _ held =>
              refine Or.inr ⟨⟨bucket, held, ?_⟩, within⟩
              exact Option.eq_none_iff_forall_ne_some.mpr (by simpa [keyStep?, held, bucket?] using step)
      | some keyed =>
          have reflexive := answered.agrees_keyStep proper own step
          have found := answered.keyedAmong?_unique apart madeLast within step reflexive
          refine ⟨root, child, inner, _, rooted, ?_, own, Or.inl rfl⟩
          rw [descend?_append, leads]
          simp [descend?, found]

end Answered

/-- Where buckets of one level below one node have different keys, each bucket with a key is found by
the levels and keys around it and its own, whatever levels without keys lie in between. -/
theorem findBucket?_keyPath (mapping : Option Mapping) (autocorrect : Bool)
    (operations : List Operation) {aggs : Aggregations}
    (ran : operations.foldlM Operation.apply { mapping := mapping, autocorrect := autocorrect } =
      .ok aggs)
    (distinct : (aggs.tree.nodes.filterMap Rose.key).Nodup) {raw : Json} (proper : raw.Proper)
    {response : Response} (parsed : Response.ofJson aggs raw = .ok response)
    (apart : KeysApart response) {node : Branch ResponseNode} (member : node ∈ response.tree.nodes)
    {bucket : Bucket} (content : node.content = .bucket bucket) (keyed : bucket.key.isSome = true) :
    response.findBucket? (response.keyPath node.id) = some node.id := by
  have answered := answered_run mapping autocorrect operations ran distinct parsed
  obtain ⟨branch, object, made⟩ := answered.every node member
  obtain ⟨root, last, _, _, rooted, leads, _, way⟩ :=
    answered.descend?_keyPath proper apart made
  have same : last = node := by
    rcases way with same | ⟨⟨other, held, keyless⟩, _⟩
    · exact same
    · cases content.symm.trans held
      rw [keyless] at keyed
      cases keyed
  rw [findBucket?, rooted, Option.bind_eq_bind, Option.bind_some, leads, same]
  rfl

def gendersResponse : Json :=
  let gender := fun name => Json.object [("key", .string name), ("doc_count", .ofNat 1)]
  let type := fun name genders => Json.object [("key", .string name), ("roles", .object [
    ("genders", .object [("buckets", .array genders)])])]
  .object [("types", .object [("buckets", .array [type "binary" [gender "F"],
    type "other" [gender "M", gender "F"]])])]

theorem findBucket?_keyPath_genders :
    ∃ aggs response, [Operation.ofJson typesWithRoles].foldlM Operation.apply {} = .ok aggs ∧
      Response.ofJson aggs gendersResponse = .ok response ∧ KeysApart response ∧
      (response.bucketsAt "genders").map (fun id =>
        (response.keyPath id).map fun (level, key) => (level, key.compact)) =
        [[("types", "\"binary\""), ("genders", "\"F\"")], [("types", "\"other\""), ("genders", "\"M\"")],
          [("types", "\"other\""), ("genders", "\"F\"")]] ∧
      ∀ node ∈ response.tree.nodes, ∀ bucket, node.content = .bucket bucket →
        bucket.key.isSome = true → response.findBucket? (response.keyPath node.id) = some node.id := by
  have made : ([Operation.ofJson typesWithRoles].foldlM Operation.apply {}).toOption.any
      (fun aggs => decide (aggs.tree.nodes.filterMap Rose.key).Nodup &&
        (Response.ofJson aggs gendersResponse).toOption.any fun response =>
          decide ((∀ holder ∈ response.tree.nodes,
            (holder.children.filterMap keyStep?).Pairwise fun first second =>
              sameStep first second = false ∧ sameStep second first = false) ∧
            (response.bucketsAt "genders").map (fun id =>
              (response.keyPath id).map fun (level, key) => (level, key.compact)) =
              [[("types", "\"binary\""), ("genders", "\"F\"")],
                [("types", "\"other\""), ("genders", "\"M\"")],
                [("types", "\"other\""), ("genders", "\"F\"")]])) = true := by
    decide +kernel
  obtain ⟨aggs, ran, facts⟩ := Result.ok_of_any made
  rw [Bool.and_eq_true] at facts
  obtain ⟨response, parsed, rest⟩ := Result.ok_of_any facts.2
  obtain ⟨apart, paths⟩ := of_decide_eq_true rest
  refine ⟨aggs, response, ran, parsed, apart, paths, fun node member bucket content keyed => ?_⟩
  exact findBucket?_keyPath none true [.ofJson typesWithRoles] ran (of_decide_eq_true facts.1)
    ⟨by decide, by decide⟩ parsed apart member content keyed

end Response

end ScopedClauses
