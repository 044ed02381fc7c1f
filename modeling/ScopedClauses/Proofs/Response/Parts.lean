import Mathlib.Data.List.Forall2
import ScopedClauses.Proofs.Result
import ScopedClauses.Response.Bucket

/-!
The parts of a raw object that an aggregation makes nodes of, each with its key. What they are is
said by rules of their own, beside the functions that extract them.
-/

namespace ScopedClauses

theorem exists_paired {related : α → β → Prop} {first : List α} {second : List β}
    (pairs : List.Forall₂ related first second) {item : β} (listed : item ∈ second) :
    ∃ other, (other, item) ∈ first.zip second := by
  induction pairs with
  | nil => cases listed
  | cons _ _ ih =>
      rw [List.zip_cons_cons]
      rcases List.mem_cons.mp listed with rfl | later
      · exact ⟨_, List.mem_cons_self⟩
      · obtain ⟨other, paired⟩ := ih later
        exact ⟨other, List.mem_cons_of_mem _ paired⟩

namespace AggClause

variable {clause : AggClause} {name : String} {raw inner item : Json} {members : Members}
  {parts : List (Option Json × Json)} {part : Option Json × Json}

/-! ### The other bucket -/

inductive OtherNamed (clause : AggClause) : Option String → Prop where
  | own {key : String} : clause.body.lookup "other_bucket_key" = some (.string key) →
      OtherNamed clause (some key)
  | usual : (∀ key, clause.body.lookup "other_bucket_key" ≠ some (.string key)) →
      clause.body.lookup "other_bucket" = some (.bool true) → OtherNamed clause (some "_other_")
  | none : (∀ key, clause.body.lookup "other_bucket_key" ≠ some (.string key)) →
      clause.body.lookup "other_bucket" ≠ some (.bool true) → OtherNamed clause none

theorem stringAt_eq_some {member key : String} :
    clause.stringAt member = some key ↔ clause.body.lookup member = some (.string key) := by
  rw [stringAt, Option.bind_eq_some_iff]
  constructor
  · rintro ⟨value, found, string⟩
    cases value <;> cases string
    exact found
  · exact fun found => ⟨_, found, rfl⟩

theorem otherNamed_iff {other : Option String} :
    clause.OtherNamed other ↔ clause.otherKey? = other := by
  have flag : (clause.body.lookup "other_bucket").bind Json.bool? = some true ↔
      clause.body.lookup "other_bucket" = some (.bool true) := by
    rw [Option.bind_eq_some_iff]
    constructor
    · rintro ⟨value, found, flag⟩
      cases value <;> cases flag
      exact found
    · exact fun found => ⟨_, found, rfl⟩
  have unnamed : (∀ key, clause.body.lookup "other_bucket_key" ≠ some (.string key)) ↔
      clause.stringAt "other_bucket_key" = none := by
    rw [Option.eq_none_iff_forall_not_mem]
    exact forall_congr' fun _ => not_congr stringAt_eq_some.symm
  constructor
  · intro named
    cases named with
    | own found => rw [otherKey?, stringAt_eq_some.mpr found]
    | usual absent enabled => rw [otherKey?, unnamed.mp absent, if_pos (flag.mpr enabled)]
    | none absent disabled => rw [otherKey?, unnamed.mp absent, if_neg (mt flag.mp disabled)]
  · rintro rfl
    unfold otherKey?
    split
    · exact .own (stringAt_eq_some.mp ‹_›)
    · rename_i absent
      split
      · exact .usual (unnamed.mpr absent) (flag.mp ‹_›)
      · exact .none (unnamed.mpr absent) (mt flag.mpr ‹_›)

inductive Parted (name : String) : Members → Members → Members → Prop where
  | nil : Parted name [] [] []
  | apart {member : String × Json} {members rest named : Members} : member.1 ≠ name →
      Parted name members rest named → Parted name (member :: members) (member :: rest) named
  | named {value : Json} {members rest named : Members} : Parted name members rest named →
      Parted name ((name, value) :: members) rest ((name, value) :: named)

theorem Parted.eq {rest named : Members} (parted : Parted name members rest named) :
    rest = members.filter (·.1 ≠ name) ∧ named = members.filter (·.1 = name) := by
  induction parted with
  | nil => exact ⟨rfl, rfl⟩
  | apart other _ ih => simp [ih, other]
  | named _ ih => simp [ih]

theorem parted_filter (name : String) (members : Members) :
    Parted name members (members.filter (·.1 ≠ name)) (members.filter (·.1 = name)) := by
  induction members with
  | nil => exact .nil
  | cons member members ih =>
      by_cases same : member.1 = name
      · obtain ⟨_, value⟩ := member
        cases same
        simpa using Parted.named ih
      · simpa [same] using Parted.apart same ih

inductive OtherLast : Option String → Members → Members → Prop where
  | none {members : Members} : OtherLast none members members
  | moved {other : String} {members rest named : Members} : Parted other members rest named →
      OtherLast (some other) members (rest ++ named)

theorem Parted.perm {rest named : Members} (parted : Parted name members rest named) :
    (rest ++ named).Perm members := by
  induction parted with
  | nil => exact .refl _
  | apart _ _ ih => exact ih.cons _
  | named _ ih => exact List.perm_middle.trans (ih.cons _)

theorem OtherLast.perm {other : Option String} {ordered : Members}
    (moved : OtherLast other members ordered) : ordered.Perm members := by
  cases moved with
  | none => exact .refl _
  | moved parted => exact parted.perm

theorem otherLast_iff (rule : clause.kind.filter = .filters) {ordered : Members} :
    OtherLast clause.otherKey? members ordered ↔ clause.otherLast members = ordered := by
  rw [otherLast, rule]
  cases clause.otherKey? with
  | none =>
      constructor
      · rintro ⟨⟩
        rfl
      · rintro rfl
        exact .none
  | some other =>
      constructor
      · rintro (_ | parted)
        obtain ⟨rest, named⟩ := parted.eq
        rw [rest, named]
      · rintro rfl
        exact .moved (parted_filter other members)

theorem otherLast_of_ne (rule : clause.kind.filter ≠ .filters) (members : Members) :
    clause.otherLast members = members := by
  unfold otherLast
  split
  · exact absurd ‹_› rule
  · rfl

/-! ### What a raw object holds -/

inductive Listed (clause : AggClause) : Json × Nat → Option Json × Json → Prop where
  | own {item key : Json} {index : Nat} : item.get? "key" = some key →
      Listed clause (item, index) (some key, item)
  | place {item : Json} {index : Nat} : item.get? "key" = none → clause.kind.filter = .filters →
      Listed clause (item, index) (some (.ofNat index), item)
  | keyless {item : Json} {index : Nat} : item.get? "key" = none → clause.kind.filter ≠ .filters →
      Listed clause (item, index) (some .null, item)

theorem listed_iff {index : Nat} :
    clause.Listed (item, index) part ↔ (some (clause.listedKey index item), item) = part := by
  constructor
  · intro listed
    cases listed with
    | own found => rw [listedKey, found]
    | place absent rule => rw [listedKey, absent, rule]
    | keyless absent rule =>
        rw [listedKey, absent]
        split
        · cases ‹none = some _›
        · exact absurd ‹_› rule
        · rfl
  · rintro rfl
    unfold listedKey
    split
    · exact .own ‹_›
    · exact .place ‹_› ‹_›
    · rename_i absent rule
      exact .keyless absent rule

/-- The parts that a result with many buckets holds, in order: those of a list as they are, and those
of an object under their names, with the other bucket of filters last. -/
inductive Extracted (clause : AggClause) (inner : Json) : List (Option Json × Json) → Prop where
  | list {items : List Json} {parts : List (Option Json × Json)} :
      inner.get? "buckets" = some (.array items) →
      List.Forall₂ clause.Listed items.zipIdx parts → Extracted clause inner parts
  | filters {other : Option String} {members ordered : Members} :
      inner.get? "buckets" = some (.object members) → clause.kind.filter = .filters →
      clause.OtherNamed other → OtherLast other members ordered →
      Extracted clause inner (ordered.map fun (key, item) => (some (.string key), item))
  | keyed {members : Members} :
      inner.get? "buckets" = some (.object members) → clause.kind.filter ≠ .filters →
      Extracted clause inner (members.map fun (key, item) => (some (.string key), item))

theorem extracted_array {items : List Json} (found : inner.get? "buckets" = some (.array items)) :
    clause.Extracted inner parts ↔
      items.zipIdx.map (fun (item, index) => (some (clause.listedKey index item), item)) = parts := by
  rw [← List.forall₂_eq_eq_eq, List.forall₂_map_left_iff]
  constructor
  · intro extracted
    cases extracted with
    | list again each =>
        cases found.symm.trans again
        exact each.imp fun _ _ => listed_iff.mp
    | filters again | keyed again => cases found.symm.trans again
  · exact fun each => .list found (each.imp fun _ _ => listed_iff.mpr)

theorem extracted_object (found : inner.get? "buckets" = some (.object members)) :
    clause.Extracted inner parts ↔
      (clause.otherLast members).map (fun (key, item) => (some (.string key), item)) = parts := by
  constructor
  · intro extracted
    cases extracted with
    | list again => cases found.symm.trans again
    | filters again rule other moved =>
        cases found.symm.trans again
        cases otherNamed_iff.mp other
        rw [(otherLast_iff rule).mp moved]
    | keyed again rule =>
        cases found.symm.trans again
        rw [otherLast_of_ne rule]
  · rintro rfl
    by_cases rule : clause.kind.filter = .filters
    · exact .filters found rule (otherNamed_iff.mpr rfl) ((otherLast_iff rule).mpr rfl)
    · rw [otherLast_of_ne rule]
      exact .keyed found rule

/-- What the rules say of the buckets is what is extracted. -/
theorem extracted_iff {listed : List (Json × Json)} (read : clause.buckets name inner = .ok listed) :
    clause.Extracted inner parts ↔ listed.map (fun (key, item) => (some key, item)) = parts := by
  unfold buckets at read
  split at read
  · cases read
  · cases Result.pure_ok.mp read
    rw [extracted_array ‹_›, List.map_map]
    rfl
  · cases Result.pure_ok.mp read
    rw [extracted_object ‹_›, List.map_map]
    rfl
  · cases read

/-- The parts of a raw object for the aggregation of a name: its buckets, or one for a single bucket
or a value, and none where there is nothing to read. -/
inductive PartsIn (clause : AggClause) (name : String) (raw : Json) :
    List (Option Json × Json) → Prop where
  | absent : raw.get? name = none → PartsIn clause name raw []
  | buckets {inner : Json} {parts : List (Option Json × Json)} : raw.get? name = some inner →
      clause.kind.family = .bucket true → clause.Extracted inner parts →
      PartsIn clause name raw parts
  | single {inner : Json} : raw.get? name = some inner → clause.kind.family = .bucket false →
      PartsIn clause name raw [(none, inner)]
  | value {inner : Json} : raw.get? name = some inner → clause.kind.isBucket = false →
      clause.kind.valueMembers ≠ [] → PartsIn clause name raw [(none, inner)]
  | valueless : clause.kind.isBucket = false → clause.kind.valueMembers = [] →
      PartsIn clause name raw []

theorem Extracted.unique {others : List (Option Json × Json)} (first : clause.Extracted inner parts)
    (second : clause.Extracted inner others) : parts = others := by
  have shape : (∃ items, inner.get? "buckets" = some (.array items)) ∨
      ∃ members, inner.get? "buckets" = some (.object members) := by
    cases first with
    | list found => exact .inl ⟨_, found⟩
    | filters found | keyed found => exact .inr ⟨_, found⟩
  obtain ⟨items, found⟩ | ⟨members, found⟩ := shape
  · exact ((extracted_array found).mp first).symm.trans ((extracted_array found).mp second)
  · exact ((extracted_object found).mp first).symm.trans ((extracted_object found).mp second)

theorem PartsIn.unique {others : List (Option Json × Json)} (first : clause.PartsIn name raw parts)
    (second : clause.PartsIn name raw others) : parts = others := by
  cases first <;> cases second <;> grind [AggKind.isBucket, Extracted.unique]

theorem PartsIn.length_le (holds : clause.PartsIn name raw parts)
    (single : clause.kind.isMultiBucket = false) : parts.length ≤ 1 := by
  cases holds with
  | buckets _ multiple => exact absurd multiple (of_decide_eq_false single)
  | absent | valueless => exact Nat.zero_le 1
  | single | value => exact Nat.le_refl 1

theorem Extracted.isSome_key (extracted : clause.Extracted inner parts) (listed : part ∈ parts) :
    part.1.isSome = true := by
  cases extracted with
  | list _ each =>
      obtain ⟨place, paired⟩ := exists_paired each listed
      cases (List.forall₂_iff_zip.mp each).2 paired <;> rfl
  | filters | keyed =>
      obtain ⟨_, _, rfl⟩ := List.mem_map.mp listed
      rfl

/-- The parts of a response have keys exactly for the aggregations that list their buckets. -/
theorem PartsIn.isSome_key (holds : clause.PartsIn name raw parts) (listed : part ∈ parts) :
    part.1.isSome = clause.kind.isMultiBucket := by
  cases holds with
  | absent | valueless => cases listed
  | buckets _ multiple extracted =>
      rw [extracted.isSome_key listed, AggKind.isMultiBucket, decide_eq_true multiple]
  | single _ single =>
      obtain rfl := List.mem_singleton.mp listed
      rw [AggKind.isMultiBucket, single]
      rfl
  | value _ plain =>
      obtain rfl := List.mem_singleton.mp listed
      have other : clause.kind.family ≠ .bucket true := fun multiple => by
        simp [AggKind.isBucket, multiple] at plain
      rw [AggKind.isMultiBucket, decide_eq_false other]
      rfl

end AggClause

end ScopedClauses
