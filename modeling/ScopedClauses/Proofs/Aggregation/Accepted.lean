import Mathlib.Data.List.Nodup
import Mathlib.Tactic.MkIffOfInductiveProp
import ScopedClauses.Proofs.Aggregation.Adding
import ScopedClauses.Proofs.Json.Alike

/-!
The declarations that are accepted. Each level names its aggregations; a declaration has one type,
and the levels below it where its type makes buckets. No name occurs twice in the whole.
-/

namespace ScopedClauses

namespace AggKind

theorem tags_nodup : (all.map tag).Nodup := by decide +kernel

theorem tag_apart {kind : AggKind} (registered : kind ∈ all) :
    kind.tag ≠ "aggs" ∧ kind.tag ≠ "aggregations" ∧ kind.tag ≠ "meta" :=
  (show ∀ kind ∈ all, kind.tag ≠ "aggs" ∧ kind.tag ≠ "aggregations" ∧ kind.tag ≠ "meta" by
    decide +kernel) kind registered

theorem ofTag_ok {name : String} {kind : AggKind} :
    ofTag name = .ok kind ↔ kind ∈ all ∧ kind.tag = name := by
  unfold ofTag
  constructor
  · intro found
    split at found
    · rename_i first here
      cases Result.pure_ok.mp found
      exact ⟨List.mem_of_find?_eq_some here, by simpa using List.find?_some here⟩
    · cases found
  · rintro ⟨listed, rfl⟩
    cases here : all.find? (fun other => other.tag = kind.tag) with
    | none =>
        rw [List.find?_eq_none] at here
        exact absurd (by simp) (here kind listed)
    | some first =>
        have same : first.tag = kind.tag := by simpa using List.find?_some here
        rw [List.inj_on_of_nodup_map tags_nodup (List.mem_of_find?_eq_some here) listed same]
        rfl

end AggKind

theorem AggClause.isSome_stringAt {key : String} {clause : AggClause} :
    (clause.stringAt key).isSome = true ↔
      ∃ text, clause.body.lookup key = some (.string text) := by
  unfold stringAt
  cases clause.body.lookup key with
  | none => simp
  | some json => cases json <;> simp [Json.string?]

theorem AggClause.ofBody_ok {kind : AggKind} {body : Members} {clause : AggClause} :
    ofBody kind body = .ok clause ↔
      (kind.tag = "nested" → ∃ path, body.lookup "path" = some (.string path)) ∧
        { kind := kind, body := body } = clause := by
  have string := @isSome_stringAt "path" { kind := kind, body := body }
  unfold ofBody
  by_cases nested : kind.tag = "nested"
  · cases here : ((body.lookup "path").bind Json.string?).isNone with
    | true =>
        have missing : ¬ ∃ path, body.lookup "path" = some (.string path) := by
          rw [← string, stringAt, Option.isNone_iff_eq_none.mp here]
          exact Bool.noConfusion
        simp [nested, missing, Result.throw_ok]
    | false =>
        have named : ∃ path, body.lookup "path" = some (.string path) :=
          string.mp (Option.isNone_eq_false_iff.mp here)
        simp [nested, named, Result.pure_ok]
  · simp [nested, Result.pure_ok]

namespace AggNode

open Rose Aggregations

/-! ### One declaration -/

def isBelow (member : String × Json) : Bool := isChildrenKey member.1

def isTyped (member : String × Json) : Bool := !isBelow member && member.1 ≠ "meta"

structure Declares (declared : Members) (clause : AggClause) : Prop where
  typed : declared.filter isTyped = [(clause.kind.tag, .object clause.body)]
  registered : clause.kind ∈ AggKind.all
  path : clause.kind.tag = "nested" → ∃ path, clause.body.lookup "path" = some (.string path)
  noted : declared.lookup "meta" = clause.annotation.map Json.object
  once : (declared.filter isBelow).length ≤ 1

@[mk_iff]
structure Sorted (parts : Parts) (members : Members) (final : Parts) : Prop where
  typed : final.typed.toList = parts.typed.toList ++ members.filter isTyped
  noted : final.annotation.map Json.object =
    (members.lookup "meta").or (parts.annotation.map Json.object)
  once : final.hasChildren.toNat = parts.hasChildren.toNat + (members.filter isBelow).length

section

variable {parts final : Parts} {key : String} {content : Json} {rest : Members}

theorem sorted_nil : Sorted parts [] final ↔ parts = final := by
  constructor
  · rintro ⟨typed, noted, once⟩
    obtain ⟨first, before, _⟩ := parts
    obtain ⟨last, after, _⟩ := final
    simp only [List.filter_nil, List.append_nil, List.length_nil, Nat.add_zero, List.lookup_nil,
      Option.none_or] at typed noted once
    have same : last = first := by simpa using congrArg List.head? typed
    have counted : after = before := by cases after <;> cases before <;> simp_all
    rw [same, counted, Option.map_injective (fun _ _ same => Json.object.inj same) noted]
  · rintro rfl
    exact ⟨by simp, by simp, rfl⟩

theorem sorted_below (below : isBelow (key, content) = true) :
    Sorted parts ((key, content) :: rest) final ↔
      parts.hasChildren = false ∧ Sorted { parts with hasChildren := true } rest final := by
  have apart : "meta" ≠ key := by
    rintro rfl
    cases below
  have untyped : ¬isTyped (key, content) = true := by simp [isTyped, below]
  rw [sorted_iff, sorted_iff, List.filter_cons_of_neg untyped, List.filter_cons_of_pos below,
    List.length_cons, Members.lookup_member, if_neg apart]
  have most := Bool.toNat_le final.hasChildren
  cases parts.hasChildren with
  | false => simp only [Bool.toNat_false, Bool.toNat_true, Nat.zero_add, Nat.add_comm 1, true_and]
  | true =>
      simp only [Bool.toNat_true, Bool.true_eq_false, false_and, iff_false]
      omega

theorem sorted_meta (fresh : "meta" ∉ rest.keys) :
    Sorted parts (("meta", content) :: rest) final ↔ ∃ members, content = .object members ∧
      Sorted { parts with annotation := some members } rest final := by
  have absent := Members.lookup_of_not_mem_keys fresh
  constructor
  · rintro ⟨typed, noted, once⟩
    rw [Members.lookup_member, if_pos rfl, Option.some_or, Option.map_eq_some_iff] at noted
    obtain ⟨found, here, rfl⟩ := noted
    exact ⟨found, rfl, typed, by rw [absent, here]; rfl, once⟩
  · rintro ⟨found, rfl, typed, noted, once⟩
    rw [absent, Option.none_or] at noted
    exact ⟨typed, by rw [Members.lookup_member, if_pos rfl]; exact noted, once⟩

theorem sorted_typed (here : isTyped (key, content) = true) :
    Sorted parts ((key, content) :: rest) final ↔
      parts.typed = none ∧ Sorted { parts with typed := some (key, content) } rest final := by
  obtain ⟨beside, apart⟩ : isBelow (key, content) = false ∧ key ≠ "meta" := by
    simpa [isTyped] using here
  rw [sorted_iff, sorted_iff, List.filter_cons_of_pos here,
    List.filter_cons_of_neg (by simp [beside]), Members.lookup_member, if_neg (Ne.symm apart)]
  cases parts.typed with
  | none => simp
  | some first => cases final.typed <;> simp

end

theorem sorted_cons (name : String) {parts final : Parts} {member : String × Json} {rest : Members}
    (fresh : member.1 ∉ rest.keys) : Sorted parts (member :: rest) final ↔
      ∃ middle, sortPart name parts member = .ok middle ∧ Sorted middle rest final := by
  obtain ⟨key, content⟩ := member
  unfold sortPart
  by_cases below : isChildrenKey key = true
  · rw [sorted_below below]
    cases parts.hasChildren <;> simp [below, Result.pure_ok, Result.throw_ok]
  · by_cases here : key = "meta"
    · subst here
      rw [sorted_meta fresh]
      cases content <;> simp [below, Result.pure_ok, Result.throw_ok]
    · rw [sorted_typed (by simp [isTyped, isBelow, below, here])]
      cases parts.typed <;> simp [below, here, Result.pure_ok, Result.throw_ok]

theorem foldlM_sortPart {name : String} {members : Members} (distinct : members.keys.Nodup)
    {parts final : Parts} :
    members.foldlM (sortPart name) parts = .ok final ↔ Sorted parts members final := by
  induction members generalizing parts with
  | nil => rw [sorted_nil, List.foldlM_nil, Result.pure_ok]
  | cons member rest ih =>
      obtain ⟨fresh, distinct⟩ := List.nodup_cons.mp distinct
      rw [List.foldlM_cons, Result.bind_ok, sorted_cons name fresh]
      simp only [ih distinct]

theorem readClause_ok {name : String} {declared : Members} (distinct : declared.keys.Nodup)
    {clause : AggClause} : readClause name declared = .ok clause ↔ Declares declared clause := by
  rw [readClause, Result.bind_ok]
  simp only [foldlM_sortPart distinct]
  constructor
  · rintro ⟨final, ⟨typed, noted, once⟩, made⟩
    rw [Option.toList_none, List.nil_append] at typed
    rw [Option.map_none, Option.or_none] at noted
    rw [Bool.toNat_false, Nat.zero_add] at once
    split at made
    · cases made
    · rename_i tag body here
      obtain ⟨kind, found, made⟩ := Result.bind_ok.mp made
      obtain ⟨registered, rfl⟩ := AggKind.ofTag_ok.mp found
      split at made
      · rename_i body
        obtain ⟨plain, found, made⟩ := Result.bind_ok.mp made
        obtain ⟨path, rfl⟩ := AggClause.ofBody_ok.mp found
        cases Result.pure_ok.mp made
        refine ⟨?_, registered, path, noted.symm, ?_⟩
        · rw [← typed, here]
          rfl
        · exact once ▸ Bool.toNat_le _
      · cases made
  · rintro ⟨typed, registered, path, noted, once⟩
    refine ⟨⟨some (clause.kind.tag, .object clause.body), !(declared.filter isBelow).isEmpty,
      clause.annotation⟩, ⟨?_, ?_, ?_⟩, ?_⟩
    · rw [typed]
      rfl
    · rw [noted, Option.map_none, Option.or_none]
    · rw [Bool.toNat_false, Nat.zero_add]
      cases here : declared.filter isBelow with
      | nil => rfl
      | cons first rest =>
          rw [here, List.length_cons] at once
          rw [List.length_cons, Nat.le_zero.mp (Nat.le_of_succ_le_succ once)]
          rfl
    · dsimp only
      rw [AggKind.ofTag_ok.mpr ⟨registered, rfl⟩, Result.ok_bind, AggClause.ofBody_ok.mpr ⟨path, rfl⟩]
      rfl

/-! ### Levels -/

def levelBelow (declared : Members) : Json :=
  ((declared.find? isBelow).map Prod.snd).getD (.object [])

theorem levelBelow_cons (key : String) (json : Json) (rest : Members) :
    levelBelow ((key, json) :: rest) = if isChildrenKey key then json else levelBelow rest := by
  rw [levelBelow, List.find?_cons, show isBelow (key, json) = isChildrenKey key from rfl]
  split <;> simp_all [levelBelow]

theorem distinct_levelBelow {declared : Members} (distinct : Json.distinctMembers declared = true) :
    (levelBelow declared).distinct = true := by
  induction declared with
  | nil => rfl
  | cons member rest ih =>
      obtain ⟨key, json⟩ := member
      rw [Json.distinctMembers_cons] at distinct
      rw [levelBelow_cons]
      split
      · exact distinct.1
      · exact ih distinct.2

/-- A level that is accepted, with the names in it in pre-order. What lies below a declaration is
a level again, which is empty unless the clause makes buckets. -/
inductive Level : Members → List String → Prop where
  | nil : Level [] []
  | cons {name : String} {declared level rest : Members} {inner names : List String}
      {clause : AggClause} (declares : Declares declared clause)
      (here : levelBelow declared = .object level)
      (bucket : level ≠ [] → clause.kind.isBucket = true)
      (below : Level level inner) (beside : Level rest names) :
      Level ((name, .object declared) :: rest) (name :: (inner ++ names))

inductive Reads : AggNode → Members → List (Shape AggNode) → Prop where
  | nil {parent : AggNode} : Reads parent [] []
  | cons {parent : AggNode} {name : String} {declared level rest : Members} {clause : AggClause}
      {children shapes : List (Shape AggNode)} (declares : Declares declared clause)
      (fits : checkChild parent (.clause clause) 0 = .ok ())
      (here : levelBelow declared = .object level)
      (below : Reads (.clause clause) level children) (beside : Reads parent rest shapes) :
      Reads parent ((name, .object declared) :: rest)
        (.node ⟨some name, .clause clause⟩ children :: shapes)

def namesOf (forest : List (Shape AggNode)) : List String := (nodesOf forest).filterMap (·.key)

theorem namesOf_cons (name : String) (content : AggNode) (children rest : List (Shape AggNode)) :
    namesOf (.node ⟨some name, content⟩ children :: rest) =
      name :: (namesOf children ++ namesOf rest) := by
  simp [namesOf, nodesOf_cons]

theorem reverse_names (name : String) (inner names used : List String) :
    (name :: (inner ++ names)).reverse ++ used =
      names.reverse ++ (inner.reverse ++ name :: used) := by
  simp

structure Read (parent : AggNode) (used : List String) (level : Members)
    (shapes : List (Shape AggNode)) (after : List String) : Prop where
  reads : Reads parent level shapes
  used : after = (namesOf shapes).reverse ++ used
  distinct : after.Nodup

variable {parent : AggNode} {used middle after : List String} {shapes : List (Shape AggNode)}

theorem Read.cons {member : String × Json} {shape : Shape AggNode} {rest : Members}
    (first : Read parent used [member] [shape] middle)
    (others : Read parent middle rest shapes after) :
    Read parent used (member :: rest) (shape :: shapes) after := by
  obtain ⟨reads, rfl, _⟩ := first
  cases reads with
  | cons declares fits here below beside =>
      cases beside
      refine ⟨.cons declares fits here below others.reads, ?_, others.distinct⟩
      rw [others.used, namesOf_cons, namesOf_cons, reverse_names, reverse_names]
      rfl

mutual

theorem read_level {parent : AggNode} {used after : List String} {shapes : List (Shape AggNode)}
    (fresh : used.Nodup) : ∀ json : Json, json.distinct = true →
    readLevel parent used json = .ok (shapes, after) →
    ∃ level, json = .object level ∧ Read parent used level shapes after
  | .object members, distinct, done =>
      ⟨members, rfl, read_members fresh members (Json.distinct_object.mp distinct).2 done⟩
  | .null, _, done => by cases done
  | .bool _, _, done => by cases done
  | .number _, _, done => by cases done
  | .string _, _, done => by cases done
  | .array _, _, done => by cases done
  termination_by structural json => json

theorem read_members {parent : AggNode} {used after : List String} {shapes : List (Shape AggNode)}
    (fresh : used.Nodup) : ∀ members : List (String × Json),
    Json.distinctMembers members = true →
    readMembers parent used members = .ok (shapes, after) → Read parent used members shapes after
  | [], _, done => by
      cases Result.pure_ok.mp done
      exact ⟨.nil, rfl, fresh⟩
  | (name, json) :: rest, distinct, done => by
      rw [Json.distinctMembers_cons] at distinct
      rw [readMembers] at done
      split at done
      · cases done
      · rename_i unused
        obtain ⟨⟨shape, middle⟩, first, done⟩ := Result.bind_ok.mp done
        obtain ⟨⟨others, last⟩, second, done⟩ := Result.bind_ok.mp done
        cases Result.pure_ok.mp done
        have read := read_named (List.nodup_cons.mpr ⟨by simpa using unused, fresh⟩) json
          distinct.1 first
        exact read.cons (read_members read.distinct rest distinct.2 second)
  termination_by structural members => members

theorem read_named {parent : AggNode} {used after : List String} {name : String}
    {shape : Shape AggNode} (fresh : (name :: used).Nodup) : ∀ json : Json,
    json.distinct = true → readNamed parent used name json = .ok (shape, after) →
    Read parent used [(name, json)] [shape] after
  | .object declared, distinct, done => by
      obtain ⟨unique, distinct⟩ := Json.distinct_object.mp distinct
      obtain ⟨clause, read, done⟩ := Result.bind_ok.mp done
      obtain ⟨⟨⟩, fits, done⟩ := Result.bind_ok.mp done
      obtain ⟨⟨children, last⟩, below, done⟩ := Result.bind_ok.mp done
      cases Result.pure_ok.mp done
      obtain ⟨level, here, below⟩ := read_children fresh declared distinct below
      refine ⟨.cons ((readClause_ok unique).mp read) fits here below.reads .nil, ?_, below.distinct⟩
      rw [below.used, namesOf_cons, reverse_names]
      rfl
  | .null, _, done => by cases done
  | .bool _, _, done => by cases done
  | .number _, _, done => by cases done
  | .string _, _, done => by cases done
  | .array _, _, done => by cases done
  termination_by structural json => json

theorem read_children {node : AggNode} {used after : List String} {shapes : List (Shape AggNode)}
    (fresh : used.Nodup) : ∀ declared : List (String × Json),
    Json.distinctMembers declared = true →
    readChildren node used declared = .ok (shapes, after) →
    ∃ level, levelBelow declared = .object level ∧ Read node used level shapes after
  | [], _, done => by
      cases Result.pure_ok.mp done
      exact ⟨[], rfl, .nil, rfl, fresh⟩
  | (key, json) :: rest, distinct, done => by
      rw [Json.distinctMembers_cons] at distinct
      rw [levelBelow_cons]
      rw [readChildren] at done
      split at done
      · rename_i below
        rw [if_pos below]
        exact read_level fresh json distinct.1 done
      · rename_i beside
        rw [if_neg beside]
        exact read_children fresh rest distinct.2 done
  termination_by structural declared => declared

end

theorem readChildren_eq (node : AggNode) (used : List String) (declared : Members) :
    readChildren node used declared = readLevel node used (levelBelow declared) := by
  induction declared with
  | nil => rfl
  | cons member rest ih =>
      obtain ⟨key, json⟩ := member
      rw [readChildren, levelBelow_cons]
      split
      · rfl
      · exact ih

theorem readMembers_cons {name : String} {declared level rest : Members} {clause : AggClause}
    {children : List (Shape AggNode)} (unique : declared.keys.Nodup)
    (declares : Declares declared clause) (fits : checkChild parent (.clause clause) 0 = .ok ())
    (here : levelBelow declared = .object level) (fresh : name ∉ used)
    (below : readMembers (.clause clause) (name :: used) level = .ok (children, middle))
    (beside : readMembers parent middle rest = .ok (shapes, after)) :
    readMembers parent used ((name, .object declared) :: rest) =
      .ok (.node ⟨some name, .clause clause⟩ children :: shapes, after) := by
  have inner : readChildren (.clause clause) (name :: used) declared = .ok (children, middle) := by
    rw [readChildren_eq, here]
    exact below
  have first : readNamed parent used name (.object declared) =
      .ok (.node ⟨some name, .clause clause⟩ children, middle) := by
    rw [readNamed, (readClause_ok unique).mpr declares]
    simp only [Result.ok_bind, fits, inner]
    rfl
  rw [readMembers, if_neg (by simpa using fresh), first]
  simp only [Result.ok_bind, beside]
  rfl

theorem readMembers_ok {level : Members} (distinct : Json.distinctMembers level = true)
    (reads : Reads parent level shapes)
    (unused : ((namesOf shapes).reverse ++ used).Nodup) :
    readMembers parent used level = .ok (shapes, (namesOf shapes).reverse ++ used) := by
  induction reads generalizing used with
  | nil => rfl
  | @cons parent name declared level rest clause children shapes declares fits here below beside
      ihBelow ihBeside =>
      rw [Json.distinctMembers_cons, Json.distinct_object] at distinct
      obtain ⟨⟨unique, inside⟩, others⟩ := distinct
      have below := distinct_levelBelow inside
      rw [here, Json.distinct_object] at below
      rw [namesOf_cons, reverse_names] at unused ⊢
      -- the name and those below it are used before the ones beside it
      have tail := unused.of_append_right
      have fresh : name ∉ used := (List.nodup_cons.mp tail.of_append_right).1
      exact readMembers_cons unique declares fits here fresh (ihBelow below.2 tail)
        (ihBeside others unused)

/-- What is read is a level, since the checks refuse clauses below others than buckets. -/
theorem level_of_reads {level : Members} (reads : Reads parent level shapes) :
    Level level (namesOf shapes) := by
  induction reads with
  | nil => exact .nil
  | @cons parent name declared level rest clause children shapes declares fits here below beside
      ihBelow ihBeside =>
      rw [namesOf_cons]
      refine .cons declares here (fun more => ?_) ihBelow ihBeside
      cases below with
      | nil => exact absurd rfl more
      | cons _ fits _ _ _ =>
          rw [checkChild] at fits
          split at fits
          · assumption
          · cases fits

theorem reads_of_level {level : Members} {names : List String} (accepted : Level level names)
    {parent : AggNode}
    (holds : level ≠ [] → ∀ clause, checkChild parent (.clause clause) 0 = .ok ()) :
    ∃ shapes, Reads parent level shapes ∧ namesOf shapes = names := by
  induction accepted generalizing parent with
  | nil => exact ⟨[], .nil, rfl⟩
  | @cons name declared level rest inner names clause declares here bucket below beside
      ihBelow ihBeside =>
      have holds := holds (List.cons_ne_nil _ _)
      have inside : level ≠ [] →
          ∀ child, checkChild (.clause clause) (.clause child) 0 = .ok () := by
        intro more child
        rw [checkChild, if_pos (bucket more)]
        rfl
      obtain ⟨children, readBelow, rfl⟩ := ihBelow inside
      obtain ⟨shapes, readBeside, rfl⟩ := ihBeside fun _ => holds
      exact ⟨_, .cons declares (holds clause) here readBelow readBeside, namesOf_cons _ _ _ _⟩

theorem ofJson_iff {json : Json} (distinct : json.distinct = true) {shape : Shape AggNode} :
    ofJson json = .ok shape ↔ ∃ level shapes, json = .object level ∧ Reads .root level shapes ∧
      (namesOf shapes).Nodup ∧ shape = .node ⟨none, .root⟩ shapes := by
  rw [ofJson, Result.bind_ok]
  constructor
  · rintro ⟨⟨shapes, used⟩, done, made⟩
    cases Result.pure_ok.mp made
    obtain ⟨level, rfl, read⟩ := read_level List.nodup_nil json distinct done
    have names := read.distinct
    rw [read.used, List.append_nil, List.nodup_reverse] at names
    exact ⟨level, shapes, rfl, read.reads, names, rfl⟩
  · rintro ⟨level, shapes, rfl, reads, names, rfl⟩
    have fresh : ((namesOf shapes).reverse ++ []).Nodup := by
      rwa [List.append_nil, List.nodup_reverse]
    have read := readMembers_ok (Json.distinct_object.mp distinct).2 reads fresh
    exact ⟨_, read, rfl⟩

end AggNode

end ScopedClauses
