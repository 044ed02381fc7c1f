import ScopedClauses.Proofs.Aggregation.Markers
import ScopedClauses.Proofs.Aggregation.Steps

/-!
The names of aggregations. Markers are opened under names that are free, and clauses are taken
under names that were free before their markers were opened.
-/

namespace ScopedClauses

namespace Aggregations

open Rose Tree

def names (tree : Tree AggNode) : List String := (entries tree.branches).filterMap (·.key)

structure Sound (tree : Tree AggNode) : Prop extends Whole tree where
  named : ∀ entry ∈ entries tree.branches, entry.key = none → tree.rootId? = some entry.id

theorem names_eq {tree : Tree AggNode} (settled : tree.detached = []) :
    names tree = tree.nodes.filterMap Rose.key := by
  rw [nodes_eq_live settled, names, entries, List.filterMap_map]
  rfl

theorem findByKey?_eq_none_iff {tree : Tree AggNode} (settled : tree.detached = [])
    {name : String} : tree.findByKey? name = none ↔ name ∉ names tree := by
  rw [names_eq settled, findByKey?, Option.map_eq_none_iff, List.find?_eq_none]
  simp

theorem markerName_free {aggs : Aggregations} (settled : aggs.tree.detached = []) (tag : String)
    (parent : Nat) : aggs.markerName tag parent ∉ names aggs.tree := by
  rw [names_eq settled, List.mem_filterMap]
  rintro ⟨node, member, keyed⟩
  exact isFree_markerName node member keyed

/-! ### Steps -/

section Steps

variable {aggs final : Aggregations} {parent id inner : Nat} {content : AggClause} {name : String}

theorem sound_insertNode (sound : Sound aggs.tree)
    (placed : aggs.insertNode content parent name = .ok (id, final)) :
    Sound final.tree ∧ (names final.tree).Perm (name :: names aggs.tree) := by
  obtain ⟨holder, member, after, _, _, rfl, regrown⟩ := insertNode_ok sound.numbered placed
  have more := regrown.entries_bud sound.numbered member
  refine ⟨⟨sound.toWhole.regrown regrown member, ?_⟩, ?_⟩
  · intro entry present unnamed
    rw [tree_withTree, regrown.rootId? rfl]
    rcases List.mem_cons.mp (more.subset present) with rfl | old
    · cases unnamed
    · exact sound.named entry old unnamed
  · exact more.filterMap _

theorem nodup_insertNode (sound : Sound aggs.tree)
    (placed : aggs.insertNode content parent name = .ok (id, final)) :
    (names final.tree).Nodup ↔ name ∉ names aggs.tree ∧ (names aggs.tree).Nodup := by
  rw [(sound_insertNode sound placed).2.nodup_iff, List.nodup_cons]

structure Unrepeated (before after : Tree AggNode) : Prop where
  sound : Sound after
  nodup : (names after).Nodup ↔ (names before).Nodup

theorem Unrepeated.refl {tree : Tree AggNode} (sound : Sound tree) : Unrepeated tree tree :=
  ⟨sound, Iff.rfl⟩

theorem unrepeated_cross (sound : Sound aggs.tree) {refusal : Error} {boundaries : List Boundary}
    (crossed : cross refusal aggs parent boundaries = .ok (inner, final)) :
    Unrepeated aggs.tree final.tree := by
  let Holds : List Boundary → Aggregations → Nat → Prop := fun _ reached _ =>
    Unrepeated aggs.tree reached.tree
  have ends : Holds [] final inner := by
    refine cross_along (fun holds _ => holds) ?_ (Unrepeated.refl sound) crossed
    intro boundary rest reached position next grown holds placed
    refine ⟨(sound_insertNode holds.sound placed).1, ?_⟩
    rw [nodup_insertNode holds.sound placed, ← holds.nodup]
    exact and_iff_right (markerName_free holds.sound.settled _ _)
  exact ends

theorem unrepeated_reconcile (sound : Sound aggs.tree) {field : String} {mapping : Mapping}
    {autocorrect : Bool}
    (made : reconcile aggs parent field mapping autocorrect = .ok (inner, final)) :
    Unrepeated aggs.tree final.tree := by
  obtain ⟨required, refusal, _, crossed⟩ := reconcile_ok made
  exact unrepeated_cross sound crossed

theorem unrepeated_resettle (sound : Sound aggs.tree) {node : AggNode}
    (settled : aggs.resettle parent node = .ok (inner, final)) :
    Unrepeated aggs.tree final.tree := by
  rcases resettle_ok settled with ⟨_, rfl, _⟩ | ⟨mapping, field, _, _, made⟩
  · exact .refl sound
  · exact unrepeated_reconcile sound made

end Steps

/-! ### Insertion -/

mutual

/-- Whether no marker that is opened for a clause takes the name of the clause. -/
def clear (aggs : Aggregations) (parent : Nat) : Shape AggNode → Bool
  | .node entry below =>
      match entry.key, entry.content with
      | some name, .clause content =>
          match aggs.settle parent content with
          | .error _ => true
          | .ok (inner, settled) =>
              (settled.tree.findByKey? name).isNone &&
                match settled.insertNode content inner name with
                | .error _ => true
                | .ok (number, grown) => clearAll grown number below
      | _, _ => true

def clearAll (aggs : Aggregations) (parent : Nat) : List (Shape AggNode) → Bool
  | [] => true
  | shape :: rest =>
      clear aggs parent shape &&
        match aggs.insertShape parent shape with
        | .error _ => true
        | .ok (_, grown) => clearAll grown parent rest

end

mutual

theorem names_insertShape {aggs final : Aggregations} {parent id : Nat} :
    ∀ shape, Sound aggs.tree → aggs.insertShape parent shape = .ok (id, final) →
      Sound final.tree ∧ ((names final.tree).Nodup ↔
        (names aggs.tree).Nodup ∧ clear aggs parent shape = true)
  | .node entry below, sound, made => by
      obtain ⟨name, content, inner, settled, grown, keyed, holds, _, settles, placed, inserted⟩ :=
        insertShape_ok made
      have opened := unrepeated_resettle sound (resettle_of_settle settles)
      obtain ⟨soundFinal, distinct⟩ :=
        names_insertShapes below (sound_insertNode opened.sound placed).1 inserted
      refine ⟨soundFinal, ?_⟩
      rw [distinct, nodup_insertNode opened.sound placed, opened.nodup, clear]
      simp only [keyed, holds, settles, placed, Bool.and_eq_true, Option.isNone_iff_eq_none,
        findByKey?_eq_none_iff opened.sound.settled]
      exact ⟨fun ⟨⟨free, old⟩, rest⟩ => ⟨old, free, rest⟩,
        fun ⟨old, free, rest⟩ => ⟨⟨free, old⟩, rest⟩⟩

theorem names_insertShapes {aggs final : Aggregations} {parent : Nat} :
    ∀ shapes, Sound aggs.tree → aggs.insertShapes parent shapes = .ok final →
      Sound final.tree ∧ ((names final.tree).Nodup ↔
        (names aggs.tree).Nodup ∧ clearAll aggs parent shapes = true)
  | [], sound, made => by
      cases Result.pure_ok.mp made
      simp [clearAll, sound]
  | shape :: rest, sound, made => by
      obtain ⟨id, grown, first, later⟩ := insertShapes_ok made
      obtain ⟨soundGrown, distinct⟩ := names_insertShape shape sound first
      obtain ⟨soundFinal, distinctFinal⟩ := names_insertShapes rest soundGrown later
      refine ⟨soundFinal, ?_⟩
      rw [distinctFinal, distinct, clearAll, first, Bool.and_eq_true, and_assoc]

end

/-! ### Relocation -/

structure Rearranged (before after : Tree AggNode) : Prop where
  sound : Sound after
  nodup : (names before).Nodup → (names after).Nodup

theorem Rearranged.refl {tree : Tree AggNode} (sound : Sound tree) : Rearranged tree tree :=
  ⟨sound, fun distinct => distinct⟩

theorem Rearranged.trans {first second third : Tree AggNode} (left : Rearranged first second)
    (right : Rearranged second third) : Rearranged first third :=
  ⟨right.sound, fun distinct => right.nodup (left.nodup distinct)⟩

theorem Unrepeated.rearranged {before after : Tree AggNode} (opened : Unrepeated before after) :
    Rearranged before after :=
  ⟨opened.sound, opened.nodup.mpr⟩

theorem rearranged_move {tree after : Tree AggNode} (sound : Sound tree) {id target : Nat}
    (moved : tree.move id target = (after, .ok ())) : Rearranged tree after := by
  obtain ⟨branch, holder, _, _, moved⟩ := move_ok sound.numbered sound.settled moved
  have same := moved.entries_perm sound.numbered
  refine ⟨⟨⟨moved.numbered_after sound.numbered, moved.settled⟩, ?_⟩, ?_⟩
  · intro entry present unnamed
    rw [moved.rootId? sound.settled]
    exact sound.named entry (same.subset present) unnamed
  · exact (same.filterMap _).nodup_iff.mpr

theorem rearranged_remove {tree removed after : Tree AggNode} (sound : Sound tree) {id : Nat}
    (done : tree.remove id = .ok (removed, after)) : Rearranged tree after := by
  obtain ⟨branch, member, rfl, branches, settled, next, rooted⟩ :=
    remove_ok sound.numbered sound.settled done
  have trade := entries_pruneAt tree.branches sound.numbered.distinct member
  rw [← branches] at trade
  have fewer := List.sublist_append_left (entries after.branches) (entries [branch])
  refine ⟨⟨⟨⟨?_, ?_⟩, settled⟩, ?_⟩, ?_⟩
  · rw [branches]
    exact distinct_pruneAt sound.numbered.distinct member
  · intro number present
    rw [branches] at present
    rw [next]
    exact sound.numbered.bounded number (mem_pruneAt sound.numbered.distinct member present).1
  · intro entry present unnamed
    rcases rooted with none | same
    · simp [none] at present
    · rw [same]
      exact sound.named entry (trade.subset (fewer.subset present)) unnamed
  · intro distinct
    exact ((trade.filterMap _).nodup_iff.mpr distinct).sublist (fewer.filterMap _)

theorem rearranged_displace {before holding left : List Nat} {inserted : Nat}
    {aggs final : Aggregations} (sound : Sound aggs.tree)
    (made : displace before holding inserted aggs left = .ok final) :
    Rearranged aggs.tree final.tree := by
  let Holds := fun (reached : Aggregations) => Rearranged aggs.tree reached.tree
  have ends : Holds final := displace_keeps
    (fun holds settled => holds.trans (unrepeated_resettle holds.sound settled).rearranged)
    (fun holds moved => holds.trans (rearranged_move holds.sound moved))
    (fun holds done => holds.trans (rearranged_remove holds.sound done)) (.refl sound) made
  exact ends

/-! ### Operations -/

def clearChain (aggs : Aggregations) (parent : Nat) : List (Shape AggNode) → Bool
  | [] => true
  | shape :: rest =>
      clear aggs parent shape &&
        match aggs.insertBetween parent shape with
        | .error _ => true
        | .ok (inserted, grown) => clearChain grown inserted rest

theorem names_insertChain {aggs final : Aggregations} {parent last : Nat}
    {chain : List (Shape AggNode)} (sound : Sound aggs.tree)
    (made : aggs.insertChain parent chain = .ok (last, final)) :
    Sound final.tree ∧ (clearChain aggs parent chain = true → (names aggs.tree).Nodup →
      (names final.tree).Nodup) := by
  let Holds := fun (left : List (Shape AggNode)) (reached : Aggregations) (position : Nat) =>
    Sound reached.tree ∧ (clearChain aggs parent chain = true → (names aggs.tree).Nodup →
      clearChain reached position left = true ∧ (names reached.tree).Nodup)
  have ends : Holds [] final last := by
    refine insertChain_along ?_ ⟨sound, fun clears distinct => ⟨clears, distinct⟩⟩ made
    rintro shape rest reached position inserted middle ⟨sound, free⟩ first
    obtain ⟨_, grown, placed, displaced⟩ := insertBetween_ok first
    obtain ⟨soundGrown, distinctGrown⟩ := names_insertShape shape sound placed
    have moving := rearranged_displace soundGrown displaced
    refine ⟨moving.sound, fun clears distinct => ?_⟩
    obtain ⟨clears, distinct⟩ := free clears distinct
    rw [clearChain, first, Bool.and_eq_true] at clears
    exact ⟨clears.2, moving.nodup (distinctGrown.mpr ⟨distinct, clears.1⟩)⟩
  exact ⟨ends.1, fun clears distinct => (ends.2 clears distinct).2⟩

def Operation.clear (aggs : Aggregations) : Operation → Bool
  | .ofJson json =>
      match AggNode.ofJson json with
      | .ok request => clearAll { mapping := aggs.mapping } 0 request.children
      | .error _ => true
  | .add input below =>
      match input.read, aggs.target below with
      | .ok request, .ok target => clearAll aggs target (clausesOf request)
      | _, _ => true
  | .groupBy input below =>
      match input.read, aggs.target below with
      | .ok request, .ok target => clearChain aggs target (clausesOf request)
      | _, _ => true
  | .groupedBy _ => true

def clearRun (aggs : Aggregations) : List Operation → Bool
  | [] => true
  | operation :: rest =>
      operation.clear aggs &&
        match operation.apply aggs with
        | .error _ => true
        | .ok next => clearRun next rest

def Operation.groups : Operation → Bool
  | .groupBy _ _ => true
  | _ => false

theorem branches_empty (mapping : Option Mapping) (autocorrect : Bool) :
    ({ mapping := mapping, autocorrect := autocorrect } : Aggregations).tree.branches =
      [.node ⟨⟨none, .root⟩, 0⟩ []] := by
  simp [branches, ofShape, AggNode.emptyRequest, number, numberAll]

theorem sound_empty (mapping : Option Mapping) (autocorrect : Bool) :
    Sound ({ mapping := mapping, autocorrect := autocorrect } : Aggregations).tree ∧
      names ({ mapping := mapping, autocorrect := autocorrect } : Aggregations).tree = [] := by
  have whole := branches_empty mapping autocorrect
  refine ⟨⟨⟨⟨?_, ?_⟩, rfl⟩, ?_⟩, ?_⟩
  · rw [whole]
    simp
  · rw [whole]
    simp [ofShape, AggNode.emptyRequest, size, sizeAll]
  · rw [whole]
    simp [rootId?, ofShape, AggNode.emptyRequest, number]
  · rw [names, whole]
    rfl

theorem names_apply {aggs final : Aggregations} (sound : Sound aggs.tree) {operation : Operation}
    (applied : operation.apply aggs = .ok final) :
    Sound final.tree ∧
      (operation.clear aggs = true → (names aggs.tree).Nodup → (names final.tree).Nodup) ∧
      (operation.groups = false → (names final.tree).Nodup → operation.clear aggs = true) := by
  cases operation with
  | ofJson json =>
      obtain ⟨request, read, made⟩ := ofJson_ok applied
      obtain ⟨soundEmpty, noNames⟩ := sound_empty aggs.mapping true
      obtain ⟨soundFinal, distinct⟩ := names_insertShapes request.children soundEmpty made
      rw [noNames, and_iff_right List.nodup_nil] at distinct
      rw [Operation.clear, read]
      exact ⟨soundFinal, fun clears _ => distinct.mpr clears, fun _ => distinct.mp⟩
  | add input below =>
      obtain ⟨request, target, read, aimed, made⟩ := add_ok applied
      obtain ⟨soundFinal, distinct⟩ := names_insertShapes (clausesOf request) sound made
      simp only [Operation.clear, read, aimed]
      exact ⟨soundFinal, fun clears old => distinct.mpr ⟨old, clears⟩,
        fun _ new => (distinct.mp new).2⟩
  | groupBy input below =>
      obtain ⟨request, target, read, aimed, made⟩ := groupBy_ok applied
      simp only [Operation.clear, read, aimed]
      rcases made with ⟨rfl, rfl⟩ | ⟨last, moved, made, rfl⟩
      · exact ⟨sound, fun _ old => old, fun moves => by cases moves⟩
      · obtain ⟨soundFinal, distinct⟩ := names_insertChain sound made
        exact ⟨soundFinal, distinct, fun moves => by cases moves⟩
  | groupedBy name =>
      obtain ⟨id, _, rfl⟩ := groupedBy_ok applied
      exact ⟨sound, fun _ old => old, fun _ _ => rfl⟩

theorem names_run {aggs final : Aggregations} (sound : Sound aggs.tree)
    (operations : List Operation) (ran : operations.foldlM Operation.apply aggs = .ok final) :
    Sound final.tree ∧ (clearRun aggs operations = true → (names aggs.tree).Nodup →
      (names final.tree).Nodup) := by
  induction operations generalizing aggs with
  | nil =>
      cases Result.pure_ok.mp ran
      exact ⟨sound, fun _ distinct => distinct⟩
  | cons operation rest ih =>
      rw [List.foldlM_cons] at ran
      obtain ⟨middle, applied, later⟩ := Result.bind_ok.mp ran
      obtain ⟨soundMiddle, distinctMiddle, _⟩ := names_apply sound applied
      obtain ⟨soundFinal, distinctFinal⟩ := ih soundMiddle later
      refine ⟨soundFinal, fun clears distinct => ?_⟩
      rw [clearRun, applied, Bool.and_eq_true] at clears
      exact distinctFinal clears.2 (distinctMiddle clears.1 distinct)

/-- After any run, only the root goes without a name, and the names are distinct if every
insertion was clear. Where an operation moves nothing, they stay distinct only then. -/
theorem names_unique (mapping : Option Mapping) (autocorrect : Bool) (operations : List Operation)
    {final : Aggregations} (ran : operations.foldlM Operation.apply
      { mapping := mapping, autocorrect := autocorrect } = .ok final) :
    (∀ node ∈ final.tree.nodes, node.key = none → final.tree.rootId? = some node.id) ∧
    (clearRun { mapping := mapping, autocorrect := autocorrect } operations = true →
      (final.tree.nodes.filterMap Rose.key).Nodup) ∧
    ∀ (operation : Operation) (next : Aggregations), operation.apply final = .ok next →
      (final.tree.nodes.filterMap Rose.key).Nodup →
        (operation.clear final = true → (next.tree.nodes.filterMap Rose.key).Nodup) ∧
        (operation.groups = false → (next.tree.nodes.filterMap Rose.key).Nodup →
          operation.clear final = true) := by
  obtain ⟨soundEmpty, noNames⟩ := sound_empty mapping autocorrect
  obtain ⟨sound, distinct⟩ := names_run soundEmpty operations ran
  refine ⟨?_, ?_, ?_⟩
  · intro node member unnamed
    rw [nodes_eq_live sound.settled] at member
    exact sound.named node.label (List.mem_map_of_mem member) unnamed
  · intro clears
    rw [← names_eq sound.settled]
    exact distinct clears (noNames ▸ List.nodup_nil)
  · intro operation next applied
    obtain ⟨soundNext, keeps, only⟩ := names_apply sound applied
    rw [← names_eq sound.settled, ← names_eq soundNext.settled]
    exact fun old => ⟨fun clears => keeps clears old, only⟩

def genderTerms (name : String) : Input :=
  .named name "terms" (.object [("field", .string "roles.gender")])

def clearOperations : List Operation :=
  [.add (genderTerms "by_gender") none,
    .add (.named "prices" "histogram" (.object [("field", .string "price")])) none,
    .groupBy (genderTerms "again") (some "prices"), .groupedBy "by_gender"]

theorem names_unique_clear :
    ∃ final, clearOperations.foldlM Operation.apply { mapping := some castMapping } = .ok final ∧
      final.tree.nodes.filterMap Rose.key = ["nested_below_root", "by_gender",
        "reverse_nested_below_by_gender", "prices", "nested_below_prices", "again"] ∧
      (final.tree.nodes.filterMap Rose.key).Nodup := by
  have made : (clearOperations.foldlM Operation.apply { mapping := some castMapping }).toOption.map
      (fun final => final.tree.nodes.filterMap Rose.key) = some ["nested_below_root", "by_gender",
        "reverse_nested_below_by_gender", "prices", "nested_below_prices", "again"] := by decide +kernel
  have clears : clearRun { mapping := some castMapping } clearOperations = true := by decide +kernel
  cases ran : clearOperations.foldlM Operation.apply { mapping := some castMapping } with
  | error error => simp [ran, Except.toOption] at made
  | ok final =>
      obtain ⟨_, distinct, _⟩ := names_unique (some castMapping) true clearOperations ran
      exact ⟨final, rfl, by simpa [ran, Except.toOption] using made, distinct clears⟩

/-- A clause may be given the very name of the marker that is opened for it. -/
theorem names_repeated :
    ∃ final, [Operation.add (genderTerms "nested_below_root") none].foldlM Operation.apply
        { mapping := some castMapping } = .ok final ∧
      ¬(final.tree.nodes.filterMap Rose.key).Nodup := by
  have made : ([Operation.add (genderTerms "nested_below_root") none].foldlM Operation.apply
      { mapping := some castMapping }).toOption.map
      (fun final => final.tree.nodes.filterMap Rose.key) =
        some ["nested_below_root", "nested_below_root"] := by decide +kernel
  cases ran : [Operation.add (genderTerms "nested_below_root") none].foldlM Operation.apply
      { mapping := some castMapping } with
  | error error => simp [ran, Except.toOption] at made
  | ok final =>
      have listed : final.tree.nodes.filterMap Rose.key =
          ["nested_below_root", "nested_below_root"] := by
        simpa [ran, Except.toOption] using made
      exact ⟨final, rfl, by simp [listed]⟩

end Aggregations

end ScopedClauses
