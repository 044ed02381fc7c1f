import ScopedClauses.Proofs.Aggregation.Sheltered
import ScopedClauses.Proofs.Response.Contributing
import ScopedClauses.Proofs.Response.Following
import ScopedClauses.Proofs.Response.Regular

/-!
The fragments that are collected for a bucket are the conditions of the steps down to it, each
in the scope that a walk has come to.
-/

namespace ScopedClauses

open Rose Tree

namespace Aggregations

variable {aggs : Aggregations} {node : Branch AggNode} {name : String}

theorem findByKey?_of_distinct {tree : Tree AggNode} (settled : tree.detached = [])
    (distinct : (names tree).Nodup) (member : node ∈ tree.live) (named : node.key = some name) :
    tree.findByKey? name = some node.id := by
  rw [names_eq settled] at distinct
  rw [← nodes_eq_live settled] at member
  obtain ⟨front, back, split⟩ := List.append_of_mem member
  have absent : front.find? (fun other => other.key = some name) = none := by
    rw [List.find?_eq_none]
    intro other before same
    rw [split, List.filterMap_append, List.filterMap_cons, named, List.nodup_append] at distinct
    refine distinct.2.2 name (List.mem_filterMap.mpr ⟨other, before, by simpa using same⟩) name ?_ rfl
    simp
  rw [findByKey?, split, List.find?_append, absent, Option.none_or, List.find?_cons, named]
  simp

theorem idOf_of_distinct (whole : Whole aggs.tree) (distinct : (names aggs.tree).Nodup)
    (member : node ∈ aggs.tree.live) (named : node.key = some name) {clause : AggClause}
    (held : node.content = .clause clause) :
    aggs.idOf name = .ok node.id ∧ aggs.clause name = .ok clause := by
  have found := findByKey?_of_distinct whole.settled distinct member named
  have known : aggs.idOf name = .ok node.id := by
    rw [idOf, found]
    rfl
  refine ⟨known, ?_⟩
  rw [Aggregations.clause, known, Result.ok_bind, Tree.get, Tree.find,
    find?_of_live whole.numbered member]
  simp only [Functor.map, Except.map, pure, Except.pure, Result.ok_bind, held]
  rfl

end Aggregations

namespace Step

def ends : Nat → List (String × Nat) → List Step → Nat × List (String × Nat)
  | next, trail, [] => (next, trail)
  | next, trail, .test _ :: rest => ends next trail rest
  | next, trail, .cross (.enter path) :: rest => ends (next + 1) ((path, next) :: trail) rest
  | next, trail, .cross (.exit target) :: rest => ends next ((back? target trail).getD []) rest

theorem spots_append (next : Nat) (trail : List (String × Nat)) (first second : List Step) :
    spots next trail (first ++ second) =
      spots next trail first ++
        spots (ends next trail first).1 (ends next trail first).2 second := by
  induction first generalizing next trail with
  | nil => rfl
  | cons step rest ih =>
      cases step with
      | test condition => rw [List.cons_append, spots, spots, ends, ih, List.cons_append]
      | cross boundary =>
          cases boundary <;> rw [List.cons_append, spots, spots, ends, ih, List.cons_append]

theorem ends_append (next : Nat) (trail : List (String × Nat)) (first second : List Step) :
    ends next trail (first ++ second) =
      ends (ends next trail first).1 (ends next trail first).2 second := by
  induction first generalizing next trail with
  | nil => rfl
  | cons step rest ih =>
      cases step with
      | test condition => rw [List.cons_append, ends, ends, ih]
      | cross boundary => cases boundary <;> rw [List.cons_append, ends, ends, ih]

theorem spots_singleton (next : Nat) (trail : List (String × Nat)) (step : Step) :
    spots next trail [step] = [⟨trail, step⟩] := by
  cases step with
  | test condition => rfl
  | cross boundary => cases boundary <;> rfl

theorem fragments_concat (steps : List Step) (step : Step) :
    fragments (steps ++ [step]) =
      fragments steps ++ (fragment? ⟨(ends 0 [] steps).2, step⟩).toList := by
  rw [fragments, spots_append, spots_singleton, List.filterMap_append, List.filterMap_cons]
  cases fragment? ⟨(ends 0 [] steps).2, step⟩ <;> rfl

theorem back?_head {target : Option String} {trail left : List (String × Nat)}
    (back : back? target trail = some left) : left.head?.map (·.1) = target := by
  cases target with
  | none =>
      cases back
      rfl
  | some path =>
      rw [back?] at back
      induction trail with
      | nil => cases back
      | cons entry outer ih =>
          rw [backTo?] at back
          split at back
          · rename_i here
            cases back
            rw [List.head?_cons, Option.map_some, here]
          · exact ih back

end Step

namespace Response

open Aggregations Step

def Walkable (clause : AggClause) : Prop :=
  clause.kind.filter = .term ∧ clause.boundary? = none ∨
    (clause.kind = AggKind.nested ∨ clause.kind = AggKind.reverseNested) ∧
      clause.boundary?.isSome

instance (clause : AggClause) : Decidable (Walkable clause) := by
  unfold Walkable
  infer_instance

def stepsOf (aggs : Aggregations) (buckets : List Bucket) : List Step :=
  buckets.reverse.filterMap fun bucket => do
    stepOf? (← (aggs.clause bucket.level).toOption) bucket

theorem steps_eq (response : Response) (id : Nat) :
    response.steps id = stepsOf response.aggs
      ((response.tree.ancestry id).filterMap fun node => node.content.bucket?) := by
  rw [Response.steps, stepsOf, ← List.filterMap_reverse, List.filterMap_filterMap]
  rfl

theorem stepsOf_cons (aggs : Aggregations) (bucket : Bucket) (outer : List Bucket) {clause : AggClause}
    (known : aggs.clause bucket.level = .ok clause) :
    stepsOf aggs (bucket :: outer) = stepsOf aggs outer ++ (stepOf? clause bucket).toList := by
  rw [stepsOf, List.reverse_cons, List.filterMap_append, stepsOf]
  simp only [List.filterMap_cons, known, Except.toOption, Option.bind_eq_bind, Option.bind_some]
  cases stepOf? clause bucket <;> rfl

section Collecting

variable {mapping : Mapping} {aggs : Aggregations} {buckets : List Bucket} {bucket : Bucket}
  {clause : AggClause} {fragments : List Fragment} {way : List (Entry AggNode)}

theorem kind_of_walkable (walkable : Walkable clause) : clause.kind.filter ≠ .global := by
  rcases walkable with ⟨rule, _⟩ | ⟨kind | kind, _⟩
  · rw [rule]
    decide
  · rw [kind]
    decide
  · rw [kind]
    decide

theorem collectFragments_cons {id : Nat} {outer : List Bucket}
    (found : aggs.idOf bucket.level = .ok id) (known : aggs.clause bucket.level = .ok clause)
    (inside : clause.kind.filter ≠ .global)
    (collects : collectFragments aggs (bucket :: outer) = .ok fragments) :
    ∃ others conditions, collectFragments aggs outer = .ok others ∧
      Condition.ofBucket? clause bucket = some conditions ∧
      fragments = others ++ conditions.map (Fragment.mk (aggs.tree.currentScope id)) := by
  rw [collectFragments, known, Result.ok_bind, if_neg inside] at collects
  simp only [Result.bind_ok, Result.pure_ok] at collects
  obtain ⟨own, made, others, outside, rfl⟩ := collects
  cases asked : Condition.ofBucket? clause bucket with
  | none =>
      rw [fragmentsOf_refused known asked] at made
      cases made
  | some conditions =>
      rw [fragmentsOf_at found known asked] at made
      cases made
      exact ⟨others, conditions, outside, rfl, rfl⟩

theorem asks_term (rule : clause.kind.filter = .term) (plain : clause.boundary? = none)
    {conditions : List Json} (asked : Condition.ofBucket? clause bucket = some conditions) :
    ∃ field, clause.field? = some field ∧
      conditions = [Shorthand.term field (Json.ofOption bucket.key)] ∧
      stepOf? clause bucket =
        some (.test (Shorthand.term field (Json.ofOption bucket.key))) := by
  cases named : clause.field? with
  | none => simp [Condition.ofBucket?, rule, named] at asked
  | some field =>
      refine ⟨field, rfl, ?_, by simp [stepOf?, plain, rule, named]⟩
      simpa [Condition.ofBucket?, rule, named, eq_comm] using asked

theorem asks_marker (kind : clause.kind = AggKind.nested ∨ clause.kind = AggKind.reverseNested)
    {boundary : Boundary} (marks : clause.boundary? = some boundary) {conditions : List Json}
    (asked : Condition.ofBucket? clause bucket = some conditions) :
    conditions = [] ∧ stepOf? clause bucket = some (.cross boundary) := by
  have rule : clause.kind.filter = .transparent := by rcases kind with kind | kind <;> rw [kind] <;> rfl
  refine ⟨?_, by simp [stepOf?, marks]⟩
  simpa [Condition.ofBucket?, rule, eq_comm] using asked

structure Collected (mapping : Mapping) (way : List (Entry AggNode)) (steps : List Step)
    (fragments : List Fragment) : Prop where
  same : fragments = Step.fragments steps
  stands : (ends 0 [] steps).2.head?.map (·.1) = scopeOn way
  bare : ∀ entry ∈ way, free entry.content = false
  stated : ∀ fragment ∈ fragments, Selection.Stated mapping fragment

theorem collected_root (ordered : Ordered mapping aggs) :
    Collected mapping (aggs.tree.root.toList.map Rose.label) [] [] := by
  have top : ∀ entry ∈ aggs.tree.root.toList.map Rose.label, entry.content = .root := by
    intro entry listed
    cases rooted : aggs.tree.root with
    | none => simp [rooted] at listed
    | some root =>
        have last := (ordered.orderly root.id).rooted
        obtain ⟨label, below⟩ := root
        rw [branches, rooted, Option.toList_some, List.singleton_append, id_node,
          lineage_here] at last
        simp only [rooted, Option.toList_some, List.map_cons, List.map_nil,
          List.mem_singleton] at listed
        rw [listed]
        exact last label rfl
  refine ⟨rfl, ?_, fun entry listed => ?_, fun _ none => by cases none⟩
  · cases rooted : aggs.tree.root with
    | none => rfl
    | some root =>
        have content := top root.label (by simp [rooted])
        simp [scopeOn, content, AggNode.boundary?, AggNode.clause?, ends]
  · simp [free, top entry listed, AggNode.clause?]

section Steps

variable {outer : List (Entry AggNode)} {steps : List Step} {entry : Entry AggNode}

theorem Collected.test (collected : Collected mapping outer steps fragments)
    (orderly : Orderly mapping (entry :: outer)) (content : entry.content = .clause clause)
    (plain : clause.boundary? = none) {field : String} (on : clause.field? = some field)
    (value : Json) :
    Collected mapping (entry :: outer) (steps ++ [.test (Shorthand.term field value)])
      (fragments ++ [⟨scopeOn (entry :: outer), Shorthand.term field value⟩]) := by
  obtain ⟨same, stands, bare, stated⟩ := collected
  have here : scopeOn (entry :: outer) = scopeOn outer := by
    rw [scopeOn_cons, content]
    exact within_plain plain
  have own : free entry.content = false := by
    simp [free, loose, content, AggNode.clause?, AggNode.field?, on]
  have all : ∀ passed ∈ entry :: outer, free passed.content = false :=
    List.forall_mem_cons.mpr ⟨own, bare⟩
  have fast : ¬∃ passed ∈ entry :: outer, free passed.content = true := by
    rintro ⟨passed, onWay, moves⟩
    rw [all passed onWay] at moves
    cases moves
  have fits := orderly.placed.resolve_left fast entry rfl
  rw [content] at fits
  have nested := fits plain field on
  rw [here, ← stands] at nested ⊢
  refine ⟨by rw [fragments_concat, same]; rfl, ?_, all, fun fragment member => ?_⟩
  · rw [ends_append, here, ← stands]
    rfl
  · rcases List.mem_append.mp member with before | last
    · exact stated fragment before
    · rw [List.mem_singleton.mp last]
      exact ⟨field, _, rfl, nested⟩

theorem Collected.cross (collected : Collected mapping outer steps fragments)
    (content : entry.content = .clause clause) {boundary : Boundary}
    (marks : clause.boundary? = some boundary)
    (returns : ∀ target, boundary = .exit target →
      (back? target (ends 0 [] steps).2).isSome = true) :
    Collected mapping (entry :: outer) (steps ++ [.cross boundary]) fragments := by
  obtain ⟨same, _, bare, stated⟩ := collected
  have own : free entry.content = false := by
    simp [free, loose, content, AggNode.boundary?, AggNode.clause?, marks]
  refine ⟨?_, ?_, List.forall_mem_cons.mpr ⟨own, bare⟩, stated⟩
  · rw [fragments_concat, same]
    exact (List.append_nil _).symm
  · rw [ends_append, scopeOn_cons, content]
    have marked : AggNode.boundary? (.clause clause) = some boundary := marks
    rw [within_boundary marked]
    cases boundary with
    | enter path => rfl
    | exit target =>
        obtain ⟨left, found⟩ := Option.isSome_iff_exists.mp (returns target rfl)
        rw [ends, found]
        exact back?_head found

end Steps

/-- The fragments of a bucket are the conditions of the steps to it. -/
theorem fragments_of_collect (ordered : Ordered mapping aggs) (distinct : (names aggs.tree).Nodup)
    (walkable : ∀ node ∈ aggs.tree.nodes, ∀ clause ∈ node.content.clause?, Walkable clause)
    (matched : Matches aggs.tree buckets way)
    (collects : collectFragments aggs buckets = .ok fragments)
    (returns : ∀ spot ∈ spots 0 [] (stepsOf aggs buckets), ∀ target,
      spot.step = .cross (.exit target) → (back? target spot.trail).isSome = true) :
    Collected mapping way (stepsOf aggs buckets) fragments := by
  induction buckets generalizing way fragments with
  | nil =>
      cases Result.pure_ok.mp collects
      obtain rfl : way = aggs.tree.root.toList.map Rose.label := matched
      exact collected_root ordered
  | cons bucket outer ih =>
      obtain ⟨branch, rest, clause, live, named, held, rfl, line, around⟩ := matched
      obtain ⟨found, known⟩ := idOf_of_distinct ordered.whole distinct live named held
      have walks : Walkable clause := by
        refine walkable branch ?_ clause (by rw [held]; rfl)
        rw [nodes_eq_live ordered.whole.settled]
        exact live
      obtain ⟨others, conditions, outside, asked, rfl⟩ :=
        collectFragments_cons found known (kind_of_walkable walks) collects
      rw [currentScope_eq_scopeOn, line]
      have orderly := ordered.orderly branch.id
      rw [line] at orderly
      rw [stepsOf_cons aggs bucket outer known] at returns ⊢
      rw [spots_append] at returns
      -- the buckets around come first
      have collected := ih around outside fun spot member =>
        returns spot (List.mem_append_left _ member)
      rcases walks with ⟨rule, plain⟩ | ⟨kind, marked⟩
      · obtain ⟨field, on, rfl, step⟩ := asks_term rule plain asked
        rw [step]
        exact collected.test orderly held plain on _
      · obtain ⟨boundary, marks⟩ := Option.isSome_iff_exists.mp marked
        obtain ⟨rfl, step⟩ := asks_marker kind marks asked
        rw [step] at returns ⊢
        rw [List.map_nil, List.append_nil]
        refine collected.cross held marks ?_
        rintro target rfl
        refine returns ⟨_, .cross (.exit target)⟩ (List.mem_append_right _ ?_) target rfl
        rw [Option.toList_some, spots_singleton]
        exact List.mem_singleton.mpr rfl

end Collecting

end Response

end ScopedClauses
