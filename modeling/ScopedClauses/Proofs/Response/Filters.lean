import Mathlib.Data.List.Nodup
import ScopedClauses.Proofs.Json.Alike
import ScopedClauses.Proofs.Response.Contributing
import ScopedClauses.Proofs.Response.Parts

/-!
Buckets of filters. Filters are told apart by their names, or by their places where they have none.
The keys that are read off a response lead from each bucket back to the filter that it stands for.
-/

namespace ScopedClauses

namespace AggClause

variable {clause : AggClause} {name : String} {other : Option String} {raw key condition : Json}
  {declared members : Members}

def keyed? (clause : AggClause) : Option Bool := (clause.body.lookup "keyed").bind Json.bool?

theorem isKeyed_eq (rule : clause.kind.filter = .filters) : clause.isKeyed =
    clause.keyed?.getD ((clause.body.lookup "filters").any Json.isObject) := by
  rw [isKeyed, ← keyed?, rule]
  cases clause.keyed? <;> rfl

structure Named (clause : AggClause) (declared : Members) (other : Option String) : Prop where
  rule : clause.kind.filter = .filters
  filters : clause.body.lookup "filters" = some (.object declared)
  distinct : declared.keys.Nodup
  rest : clause.OtherNamed other
  apart : ∀ name ∈ other, name ∉ declared.keys

structure Unnamed (clause : AggClause) (declared : List Json) (other : Option String) : Prop where
  rule : clause.kind.filter = .filters
  filters : clause.body.lookup "filters" = some (.array declared)
  rest : clause.OtherNamed other
  unkeyed : clause.keyed? ≠ some true

def namedConditions (declared : Members) (other : Option String) : Members :=
  declared ++ other.toList.map fun name =>
    (name, .object [("bool", .object [("must_not", .array (declared.map Prod.snd))])])

def listedConditions (declared : List Json) (other : Option String) : List Json :=
  declared ++ other.toList.map fun _ =>
    .object [("bool", .object [("must_not", .array declared)])]

/-- Whether a bucket with a key stands for one condition: it is found, and it is all that the bucket
contributes to a query. -/
def StandsFor (clause : AggClause) (key condition : Json) : Prop :=
  ∀ bucket : Bucket, bucket.key = some key →
    Condition.ofBucket? clause bucket = some [condition] ∧
      ∀ aggs : Aggregations, aggs.clause bucket.level = .ok clause →
        ∃ scope, Response.fragmentsOf aggs bucket = .ok [⟨scope, condition⟩]

theorem standsFor_of_ofFilters (rule : clause.kind.filter = .filters)
    (told : Condition.ofFilters clause key = some condition) : clause.StandsFor key condition := by
  intro bucket keyed
  have found : Condition.ofBucket? clause bucket = some [condition] := by
    simp [Condition.ofBucket?, rule, keyed, Json.ofOption, told]
  exact ⟨found, fun _ known => Response.fragmentsOf_told known found⟩

/-! ### Filters by name -/

theorem Named.ofFilters (named : clause.Named declared other)
    (listed : (name, condition) ∈ namedConditions declared other) :
    Condition.ofFilters clause (.string name) = some condition := by
  rcases List.mem_append.mp listed with own | last
  · have found := Members.lookup_of_mem named.distinct own
    simp [Condition.ofFilters, named.filters, Json.string?, found]
  · obtain ⟨key, enabled, same⟩ := List.mem_map.mp last
    cases same
    have enabled := Option.mem_toList.mp enabled
    have absent := Members.lookup_of_not_mem_keys (named.apart name enabled)
    have key := (otherNamed_iff.mp named.rest).trans enabled
    simp [Condition.ofFilters, named.filters, Json.string?, absent, key]
    rfl

theorem Named.exists_condition (named : clause.Named declared other)
    (listed : name ∈ (namedConditions declared other).keys) :
    ∃ condition, (name, condition) ∈ namedConditions declared other ∧
      clause.StandsFor (.string name) condition := by
  obtain ⟨⟨_, condition⟩, member, rfl⟩ := List.mem_map.mp listed
  exact ⟨condition, member, standsFor_of_ofFilters named.rule (named.ofFilters member)⟩

theorem Named.isKeyed (named : clause.Named declared other) (keyed : clause.keyed? ≠ some false) :
    clause.isKeyed = true := by
  rw [isKeyed_eq named.rule, named.filters]
  cases flagged : clause.keyed? with
  | none => rfl
  | some flag =>
      cases flag with
      | true => rfl
      | false => exact absurd flagged keyed

/-! ### Filters by place -/

theorem Unnamed.ofFilters {declared : List Json} (unnamed : clause.Unnamed declared other)
    {index : Nat} (listed : (listedConditions declared other)[index]? = some condition) :
    Condition.ofFilters clause (.ofNat index) = some condition := by
  have read : (Number.int index).natural? = some index := by simp [Number.natural?]
  simp only [Condition.ofFilters, unnamed.filters, Option.bind_eq_bind, Option.bind_some,
    Json.ofNat, Json.number?, read]
  rw [listedConditions] at listed
  by_cases own : index < declared.length
  · rw [List.getElem?_append_left own] at listed
    rw [listed]
  · rw [List.getElem?_append_right (by omega)] at listed
    cases other with
    | none => simp at listed
    | some name =>
        have enabled := otherNamed_iff.mp unnamed.rest
        obtain ⟨last, rfl⟩ : index - declared.length = 0 ∧
            .object [("bool", .object [("must_not", .array declared)])] = condition := by
          simpa [List.getElem?_singleton] using listed
        have place : index = declared.length := by omega
        simp [place, enabled]
        rfl

theorem Unnamed.isKeyed {declared : List Json} (unnamed : clause.Unnamed declared other) :
    clause.isKeyed = false := by
  rw [isKeyed_eq unnamed.rule, unnamed.filters]
  cases flagged : clause.keyed? with
  | none => rfl
  | some flag =>
      cases flag with
      | true => exact absurd flagged unnamed.unkeyed
      | false => rfl

/-! ### Buckets -/

theorem buckets_keyed (keyed : clause.isKeyed = true)
    (found : raw.get? "buckets" = some (.object members)) :
    clause.buckets name raw =
      .ok ((clause.otherLast members).map fun (own, item) => (.string own, item)) := by
  rw [buckets, found, keyed]
  rfl

theorem buckets_listed {items : List Json} (unkeyed : clause.isKeyed = false)
    (found : raw.get? "buckets" = some (.array items)) :
    clause.buckets name raw =
      .ok (items.zipIdx.map fun (item, index) => (clause.listedKey index item, item)) := by
  rw [buckets, found, unkeyed]
  rfl

theorem listedKey_of_key {item : Json} (found : item.get? "key" = some key)
    (clause : AggClause) (index : Nat) : clause.listedKey index item = key := by
  rw [listedKey, found]

theorem listedKey_of_place {item : Json} (rule : clause.kind.filter = .filters)
    (absent : item.get? "key" = none) (index : Nat) :
    clause.listedKey index item = .ofNat index := by
  rw [listedKey, absent, rule]

/-- The buckets of filters are read each once, with keys that lead to what they stand for. A response
by name may have its members in any order: the other bucket comes last, and the rest stay in order. A
list stays in order, whether its buckets carry their names or are told apart by their places. Each
key stands for the filter that was declared under it or in its place, and that of the other bucket
for none of the filters. -/
theorem buckets_filters (clause : AggClause) (name : String) (raw : Json) (other : Option String) :
    (∀ declared, clause.Named declared other →
      (∀ members : Members, clause.keyed? ≠ some false → raw.get? "buckets" = some (.object members) →
        members.keys.Perm (namedConditions declared other).keys →
        ∃ ordered, OtherLast other members ordered ∧ ordered.Perm members ∧
          clause.buckets name raw = .ok (ordered.map fun (own, item) => (.string own, item)) ∧
          ∀ member ∈ ordered, ∃ condition, (member.1, condition) ∈ namedConditions declared other ∧
            clause.StandsFor (.string member.1) condition) ∧
      (∀ entries : Members, clause.keyed? = some false →
        raw.get? "buckets" = some (.array (entries.map Prod.snd)) →
        (∀ entry ∈ entries, entry.2.get? "key" = some (.string entry.1)) →
        entries.keys.Perm (namedConditions declared other).keys →
        clause.buckets name raw = .ok (entries.map fun (own, item) => (.string own, item)) ∧
          ∀ entry ∈ entries, ∃ condition, (entry.1, condition) ∈ namedConditions declared other ∧
            clause.StandsFor (.string entry.1) condition)) ∧
    ∀ declared items, clause.Unnamed declared other → raw.get? "buckets" = some (.array items) →
      (∀ item ∈ items, item.get? "key" = none) →
      items.length = (listedConditions declared other).length →
      clause.buckets name raw =
          .ok (items.zipIdx.map fun (item, index) => (.ofNat index, item)) ∧
        ∀ index < items.length, ∃ condition,
          (listedConditions declared other)[index]? = some condition ∧
            clause.StandsFor (.ofNat index) condition := by
  refine ⟨fun declared named => ⟨?_, ?_⟩, ?_⟩
  · intro members keyed found each
    have moved : OtherLast other members (clause.otherLast members) := by
      rw [← otherNamed_iff.mp named.rest]
      exact (otherLast_iff named.rule).mpr rfl
    refine ⟨clause.otherLast members, moved, moved.perm, buckets_keyed (named.isKeyed keyed) found, ?_⟩
    intro member listed
    have own := moved.perm.subset listed
    exact named.exists_condition (each.subset (List.mem_map_of_mem own))
  · intro entries keyed found carries each
    have unkeyed : clause.isKeyed = false := by
      rw [isKeyed_eq named.rule, keyed]
      rfl
    refine ⟨?_, fun entry listed => named.exists_condition (each.subset (List.mem_map_of_mem listed))⟩
    rw [buckets_listed unkeyed found]
    refine congrArg Except.ok (List.ext_getElem (by simp) fun index _ bound => ?_)
    rw [List.length_map] at bound
    have carried := carries entries[index] (List.getElem_mem bound)
    simp [listedKey_of_key carried]
  · intro declared items unnamed found keyless count
    constructor
    · rw [buckets_listed unnamed.isKeyed found]
      refine congrArg Except.ok (List.map_congr_left fun (item, index) listed => ?_)
      have absent := keyless item (List.fst_mem_of_mem_zipIdx listed)
      simp only [listedKey_of_place unnamed.rule absent]
    · intro index bound
      have listed := List.getElem?_eq_getElem (count ▸ bound)
      exact ⟨_, listed, standsFor_of_ofFilters unnamed.rule (unnamed.ofFilters listed)⟩

def sizeFilters (filters : Json) (attributes : Members) : AggClause :=
  ⟨.multi .any .filters "filters", ("filters", filters) :: attributes, none⟩

def ofSize (bound : String) : Json :=
  .object [("range", .object [("size", .object [(bound, .ofNat 9)])])]

def namedSizes : Members := [("small", ofSize "lt"), ("large", ofSize "gte")]

def sizeBucket (count : Nat) (label : Option String) : Json :=
  .object (label.toList.map (fun own => ("key", .string own)) ++ [("doc_count", .ofNat count)])

def bucketsOf (listed : Json) : Json := .object [("buckets", listed)]

def sizeMembers : Members :=
  [("small", sizeBucket 1 none), ("rest", sizeBucket 2 none), ("large", sizeBucket 3 none)]

def sizeEntries : Members :=
  [("large", sizeBucket 3 (some "large")), ("small", sizeBucket 1 (some "small"))]

theorem buckets_filters_sizes :
    (∃ ordered, OtherLast (some "rest") sizeMembers ordered ∧
      (sizeFilters (.object namedSizes) [("other_bucket_key", .string "rest")]).buckets "sizes"
          (bucketsOf (.object sizeMembers)) =
        .ok (ordered.map fun (own, item) => (.string own, item))) ∧
    (sizeFilters (.object namedSizes) [("keyed", .bool false)]).buckets "sizes"
        (bucketsOf (.array (sizeEntries.map Prod.snd))) =
      .ok (sizeEntries.map fun (own, item) => (.string own, item)) ∧
    (sizeFilters (.array [ofSize "lt"]) [("other_bucket", .bool true)]).buckets "sizes"
        (bucketsOf (.array [sizeBucket 1 none, sizeBucket 2 none])) =
      .ok [(.ofNat 0, sizeBucket 1 none), (.ofNat 1, sizeBucket 2 none)] ∧
    (sizeFilters (.array [ofSize "lt"]) [("other_bucket", .bool true)]).StandsFor (.ofNat 1)
      (.object [("bool", .object [("must_not", .array [ofSize "lt"])])]) := by
  obtain ⟨ordered, moved, _, read, _⟩ := ((buckets_filters
    (sizeFilters (.object namedSizes) [("other_bucket_key", .string "rest")]) "sizes"
    (bucketsOf (.object sizeMembers)) (some "rest")).1 namedSizes
    ⟨rfl, rfl, by decide, .own rfl, by rintro _ ⟨⟩; decide⟩).1 sizeMembers (by decide) rfl (by decide)
  obtain ⟨listed, _⟩ := ((buckets_filters
    (sizeFilters (.object namedSizes) [("keyed", .bool false)]) "sizes"
    (bucketsOf (.array (sizeEntries.map Prod.snd))) none).1 namedSizes
    ⟨rfl, rfl, by decide, .none (by rintro _ ⟨⟩) (by rintro ⟨⟩), by rintro _ ⟨⟩⟩).2 sizeEntries rfl rfl
    (by simp [sizeEntries, sizeBucket, Json.get?]) (by decide)
  obtain ⟨placed, stands⟩ := (buckets_filters
    (sizeFilters (.array [ofSize "lt"]) [("other_bucket", .bool true)]) "sizes"
    (bucketsOf (.array [sizeBucket 1 none, sizeBucket 2 none])) (some "_other_")).2 [ofSize "lt"]
    [sizeBucket 1 none, sizeBucket 2 none] ⟨rfl, rfl, .usual (by rintro _ ⟨⟩) rfl, by decide⟩ rfl
    (by simp [sizeBucket, Json.get?]) rfl
  obtain ⟨condition, same, rest⟩ := stands 1 (by decide)
  cases same
  exact ⟨⟨ordered, moved, read⟩, listed, placed, rest⟩

end AggClause

end ScopedClauses
