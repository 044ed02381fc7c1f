import ScopedClauses.Proofs.Result
import ScopedClauses.Response.Selection

/-!
What one bucket contributes to the query for its documents: the conditions that it stands for, or a
refusal where they cannot be told.
-/

namespace ScopedClauses

theorem mapM_eq_some_iff {change : α → Option β} {items : List α} {made : List β} :
    items.mapM change = some made ↔ items.map change = made.map some := by
  induction items generalizing made with
  | nil => cases made <;> simp
  | cons item rest ih =>
      simp only [List.mapM_cons, Option.bind_eq_bind, Option.bind_eq_some_iff, Option.pure_def,
        Option.some.injEq, ih, List.map_cons]
      constructor
      · rintro ⟨first, here, others, later, rfl⟩
        rw [List.map_cons, here, later]
      · intro same
        cases made with
        | nil => cases same
        | cons first others =>
            obtain ⟨here, later⟩ := List.cons.inj same
            exact ⟨first, here, others, later, rfl⟩

theorem mapM_eq_none_iff {change : α → Option β} {items : List α} :
    items.mapM change = none ↔ ∃ item ∈ items, change item = none := by
  induction items with
  | nil => simp
  | cons item rest ih =>
      simp only [List.mapM_cons, List.mem_cons, exists_eq_or_imp, ← ih]
      cases change item <;> cases rest.mapM change <;> simp

namespace Response

variable {aggs : Aggregations} {bucket : Bucket} {clause : AggClause}

theorem fragmentsOf_at {id : Nat} (found : aggs.idOf bucket.level = .ok id)
    (known : aggs.clause bucket.level = .ok clause) {conditions : List Json}
    (told : Condition.ofBucket? clause bucket = some conditions) :
    fragmentsOf aggs bucket = .ok (conditions.map (Fragment.mk (aggs.tree.currentScope id))) := by
  rw [fragmentsOf, found, Result.ok_bind, known, Result.ok_bind, told]
  rfl

theorem fragmentsOf_told (known : aggs.clause bucket.level = .ok clause) {conditions : List Json}
    (told : Condition.ofBucket? clause bucket = some conditions) :
    ∃ scope, fragmentsOf aggs bucket = .ok (conditions.map (Fragment.mk scope)) := by
  obtain ⟨id, found, _⟩ := Result.bind_ok.mp known
  exact ⟨aggs.tree.currentScope id, fragmentsOf_at found known told⟩

theorem fragmentsOf_refused (known : aggs.clause bucket.level = .ok clause)
    (untold : Condition.ofBucket? clause bucket = none) :
    fragmentsOf aggs bucket = .error (.unsupportedBucketFilter bucket.level clause.kind.tag) := by
  obtain ⟨id, found, _⟩ := Result.bind_ok.mp known
  rw [fragmentsOf, found, Result.ok_bind, known, Result.ok_bind, untold]
  rfl

end Response

def AggClause.Asks (clause : AggClause) (key : Json) (conditions : List Json) : Prop :=
  ∀ bucket : Bucket, bucket.key = some key →
    Condition.ofBucket? clause bucket = some conditions ∧
      ∀ aggs : Aggregations, aggs.clause bucket.level = .ok clause →
        ∃ scope, Response.fragmentsOf aggs bucket = .ok (conditions.map (Fragment.mk scope))

namespace AggClause

variable {clause : AggClause} {key : Json} {conditions : List Json}

theorem asks_of_told (told : ∀ bucket : Bucket, bucket.key = some key →
    Condition.ofBucket? clause bucket = some conditions) : clause.Asks key conditions :=
  fun bucket keyed => ⟨told bucket keyed, fun _ known =>
    Response.fragmentsOf_told known (told bucket keyed)⟩

theorem Asks.unique {others : List Json} (first : clause.Asks key conditions)
    (second : clause.Asks key others) : conditions = others := by
  let bucket : Bucket := ⟨"", clause.kind, some key, .null, []⟩
  have told := (first bucket rfl).1
  rw [(second bucket rfl).1] at told
  exact (Option.some.inj told).symm

end AggClause

end ScopedClauses
