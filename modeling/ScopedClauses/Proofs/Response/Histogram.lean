import ScopedClauses.Proofs.Response.Contributing

/-!
Ranges of histograms whose keys and intervals are integers. The sum of two integers that fit signed
words is exact, or the bucket is refused. Where one of them does not fit, the range ends at a float.
-/

namespace ScopedClauses

namespace Condition

open Number

variable {key interval : Int}

def Signed (left right : Int) : Prop := left < signedBound ∧ right < signedBound

def SumFits (left right : Int) : Prop := -signedBound ≤ left + right ∧ left + right < signedBound

instance (left right : Int) : Decidable (Signed left right) :=
  inferInstanceAs (Decidable (_ ∧ _))

instance (left right : Int) : Decidable (SumFits left right) :=
  inferInstanceAs (Decidable (_ ∧ _))

theorem signed?_of_lt {value : Int} (fits : value < signedBound) :
    (Number.int value).signed? = some value := if_pos fits

theorem signed?_of_le {value : Int} (wide : signedBound ≤ value) :
    (Number.int value).signed? = none := if_neg (Int.not_lt.mpr wide)

theorem addNumbers_fits (signed : Signed key interval) (fits : SumFits key interval) :
    addNumbers (.number (.int key)) (.number (.int interval)) =
      some (.number (.int (key + interval))) := by
  simp only [addNumbers, Json.number?, Option.bind_eq_bind, Option.bind_some,
    signed?_of_lt signed.1, signed?_of_lt signed.2]
  exact if_pos fits

theorem addNumbers_overflow (signed : Signed key interval) (beyond : ¬SumFits key interval) :
    addNumbers (.number (.int key)) (.number (.int interval)) = none := by
  simp only [addNumbers, Json.number?, Option.bind_eq_bind, Option.bind_some,
    signed?_of_lt signed.1, signed?_of_lt signed.2]
  exact if_neg beyond

theorem addNumbers_wide (wide : ¬Signed key interval) :
    addNumbers (.number (.int key)) (.number (.int interval)) =
      some (.ofFloat (nearest key + nearest interval)) := by
  simp only [addNumbers, Json.number?, Option.bind_eq_bind, Option.bind_some, toFloat]
  by_cases first : key < signedBound
  · have second : signedBound ≤ interval := Int.not_lt.mp fun second => wide ⟨first, second⟩
    rw [signed?_of_lt first, signed?_of_le second]
  · rw [signed?_of_le (Int.not_lt.mp first)]

theorem addNumbers_eq_none_iff :
    addNumbers (.number (.int key)) (.number (.int interval)) = none ↔
      Signed key interval ∧ ¬SumFits key interval := by
  by_cases signed : Signed key interval
  · by_cases fits : SumFits key interval
    · simp [addNumbers_fits signed fits, fits]
    · simp [addNumbers_overflow signed fits, signed, fits]
  · simp [addNumbers_wide signed, signed]

theorem ofFloat_ne_int (value : Float) (bound : Int) : Json.ofFloat value ≠ .number (.int bound) := by
  unfold Json.ofFloat
  split <;> simp

def rangeFrom (field : String) (key : Int) (upper : Json) : Json :=
  .object [("range", .object [(field, .object [("gte", .number (.int key)), ("lt", upper)])])]

theorem histogramRange_eq_some {field : String} {range : Json} :
    histogramRange field (.number (.int key)) (.number (.int interval)) = some range ↔
      ∃ upper, addNumbers (.number (.int key)) (.number (.int interval)) = some upper ∧
        rangeFrom field key upper = range := by
  rw [histogramRange, Option.bind_eq_bind, Option.bind_eq_some_iff]
  simp only [Option.some.injEq]
  rfl

theorem histogramRange_eq_none_iff (field : String) :
    histogramRange field (.number (.int key)) (.number (.int interval)) = none ↔
      Signed key interval ∧ ¬SumFits key interval := by
  rw [← addNumbers_eq_none_iff, histogramRange]
  cases addNumbers (.number (.int key)) (.number (.int interval)) <;> simp

/-- A range that is told ends at the exact sum where both integers fit, and else at a sum of floats. -/
theorem histogramRange_told {field : String} {range : Json}
    (told : histogramRange field (.number (.int key)) (.number (.int interval)) = some range) :
    ∃ upper, range = rangeFrom field key upper ∧
      (Signed key interval → upper = .number (.int (key + interval))) ∧
      (¬Signed key interval → upper = .ofFloat (nearest key + nearest interval)) := by
  obtain ⟨upper, sum, rfl⟩ := histogramRange_eq_some.mp told
  refine ⟨upper, rfl, fun signed => ?_, fun wide => ?_⟩
  · by_cases fits : SumFits key interval
    · rw [addNumbers_fits signed fits] at sum
      exact (Option.some.inj sum).symm
    · rw [addNumbers_overflow signed fits] at sum
      cases sum
  · rw [addNumbers_wide wide] at sum
    exact (Option.some.inj sum).symm

/-- A histogram with integers for a key and an interval, as an aggregation or as a source of a
composite one. The last two numbers are the place of its range among the conditions and their count. -/
inductive OnIntegers (clause : AggClause) (bucket : Bucket) (field : String) (key interval : Int) :
    Nat → Nat → Prop where
  | own : clause.kind.filter = .histogram → clause.field? = some field →
      clause.body.lookup "interval" = some (.number (.int interval)) →
      bucket.key = some (.number (.int key)) → OnIntegers clause bucket field key interval 0 1
  | source {place count : Nat} {sources : List Json} {keys body others more : Members} {name : String} :
      clause.kind.filter = .composite → clause.body.lookup "sources" = some (.array sources) →
      sources.length = count → sources[place]? =
        some (.object ((name, .object (("histogram", .object body) :: more)) :: others)) →
      body.lookup "field" = some (.string field) →
      body.lookup "interval" = some (.number (.int interval)) →
      bucket.key = some (.object keys) → keys.lookup name = some (.number (.int key)) →
      OnIntegers clause bucket field key interval place count

def OthersTold (clause : AggClause) (bucket : Bucket) (place : Nat) : Prop :=
  ∀ sources keys, clause.body.lookup "sources" = some (.array sources) →
    bucket.key = some (.object keys) → ∀ other source, sources[other]? = some source →
      other ≠ place → ofSource keys source ≠ none

section OnIntegers

variable {clause : AggClause} {bucket : Bucket} {field : String} {place count : Nat}

theorem ofBucket?_histogram (rule : clause.kind.filter = .histogram) (on : clause.field? = some field)
    {step lower : Json} (stepped : clause.body.lookup "interval" = some step)
    (keyed : bucket.key = some lower) :
    ofBucket? clause bucket = (histogramRange field lower step).map ([·]) := by
  simp only [ofBucket?, rule, stepped, on, keyed, Json.ofOption, Option.bind_eq_bind, Option.bind_some,
    Option.map_eq_bind]
  rfl

theorem ofBucket?_composite (rule : clause.kind.filter = .composite) {sources : List Json}
    (listed : clause.body.lookup "sources" = some (.array sources)) {keys : Members}
    (keyed : bucket.key = some (.object keys)) :
    ofBucket? clause bucket = sources.mapM (ofSource keys) := by
  simp only [ofBucket?, rule, keyed, ofComposite, listed, Json.ofOption, Json.array?, Json.object?,
    Option.bind_eq_bind, Option.bind_some]

theorem ofSource_histogram {name : String} {keys body others more : Members} {step lower : Json}
    (on : body.lookup "field" = some (.string field)) (stepped : body.lookup "interval" = some step)
    (keyed : keys.lookup name = some lower) :
    ofSource keys (.object ((name, .object (("histogram", .object body) :: more)) :: others)) =
      histogramRange field lower step := by
  simp only [ofSource, Json.object?, Json.string?, List.head?_cons, on, stepped, keyed,
    Option.bind_eq_bind, Option.bind_some]

theorem OnIntegers.told (stated : OnIntegers clause bucket field key interval place count)
    {conditions : List Json} (told : ofBucket? clause bucket = some conditions) :
    ∃ range, histogramRange field (.number (.int key)) (.number (.int interval)) = some range ∧
      conditions[place]? = some range ∧ conditions.length = count := by
  cases stated with
  | own rule on stepped keyed =>
      rw [ofBucket?_histogram rule on stepped keyed] at told
      obtain ⟨range, made, rfl⟩ := Option.map_eq_some_iff.mp told
      exact ⟨range, made, rfl, rfl⟩
  | source rule listed counted here on stepped keyed named =>
      rw [ofBucket?_composite rule listed keyed] at told
      have same := mapM_eq_some_iff.mp told
      have places := congrArg (·[place]?) same
      simp only [List.getElem?_map, here, Option.map_some, ofSource_histogram on stepped named] at places
      obtain ⟨range, found, made⟩ := Option.map_eq_some_iff.mp places.symm
      have lengths := congrArg List.length same
      rw [List.length_map, List.length_map] at lengths
      exact ⟨range, made.symm, found, lengths.symm.trans counted⟩

theorem OnIntegers.refused (stated : OnIntegers clause bucket field key interval place count)
    (others : OthersTold clause bucket place) (untold : ofBucket? clause bucket = none) :
    histogramRange field (.number (.int key)) (.number (.int interval)) = none := by
  cases stated with
  | own rule on stepped keyed =>
      rw [ofBucket?_histogram rule on stepped keyed] at untold
      exact Option.map_eq_none_iff.mp untold
  | source rule listed _ here on stepped keyed named =>
      rw [ofBucket?_composite rule listed keyed] at untold
      obtain ⟨source, member, missing⟩ := mapM_eq_none_iff.mp untold
      obtain ⟨other, found⟩ := List.mem_iff_getElem?.mp member
      by_cases same : other = place
      · subst same
        cases here.symm.trans found
        rw [← missing, ofSource_histogram on stepped named]
      · exact absurd missing (others _ _ listed keyed other source found same)

def Refused (aggs : Aggregations) (clause : AggClause) (bucket : Bucket) : Prop :=
  Response.fragmentsOf aggs bucket = .error (.unsupportedBucketFilter bucket.level clause.kind.tag)

theorem refused_iff {aggs : Aggregations} (known : aggs.clause bucket.level = .ok clause) :
    Refused aggs clause bucket ↔ ofBucket? clause bucket = none := by
  refine ⟨fun refused => ?_, Response.fragmentsOf_refused known⟩
  cases told : ofBucket? clause bucket with
  | none => rfl
  | some conditions =>
      obtain ⟨scope, made⟩ := Response.fragmentsOf_told known told
      cases made.symm.trans refused

/-- A histogram bucket with integers for its key and interval is refused, or its range goes from the
key up to the exact sum of both, as long as both fit signed words. It is refused where their sum does
not fit, and only there unless another source of its key cannot be told. Where the key or the interval
does not fit, the range ends at the sum of the floats nearest to them, which is not an integer. -/
theorem histogram_bounds {aggs : Aggregations} (known : aggs.clause bucket.level = .ok clause)
    (stated : OnIntegers clause bucket field key interval place count) :
    (Refused aggs clause bucket ∨
      ∃ fragments upper, Response.fragmentsOf aggs bucket = .ok fragments ∧
        fragments.length = count ∧
        (fragments.map Fragment.condition)[place]? = some (rangeFrom field key upper) ∧
        (Signed key interval → ∃ bound : Int, upper = .number (.int bound) ∧
          bound = key + interval ∧ (0 < interval → key < bound)) ∧
        (¬Signed key interval → upper = .ofFloat (nearest key + nearest interval) ∧
          ∀ bound : Int, upper ≠ .number (.int bound))) ∧
    (Signed key interval ∧ ¬SumFits key interval → Refused aggs clause bucket) ∧
    (OthersTold clause bucket place → Refused aggs clause bucket →
      Signed key interval ∧ ¬SumFits key interval) := by
  rw [refused_iff known, ← histogramRange_eq_none_iff field]
  refine ⟨?_, fun untold => ?_, stated.refused⟩
  · cases told : ofBucket? clause bucket with
    | none => exact .inl rfl
    | some conditions =>
        obtain ⟨range, made, found, lengths⟩ := stated.told told
        obtain ⟨upper, rfl, summed, rounded⟩ := histogramRange_told made
        obtain ⟨scope, contributed⟩ := Response.fragmentsOf_told known told
        refine .inr ⟨_, upper, contributed, by simpa using lengths, ?_, fun signed => ?_, fun wide => ?_⟩
        · simpa [Function.comp_def] using found
        · exact ⟨_, summed signed, rfl, fun positive => by omega⟩
        · exact ⟨rounded wide, rounded wide ▸ ofFloat_ne_int _⟩
  · cases told : ofBucket? clause bucket with
    | none => rfl
    | some conditions =>
        obtain ⟨range, made, _⟩ := stated.told told
        cases untold.symm.trans made

end OnIntegers

def votesHistogram (interval : Int) : AggClause :=
  ⟨.multi AggKind.onNumeric .histogram "histogram",
    [("field", .string "votes"), ("interval", .number (.int interval))], none⟩

def votesPages (interval : Int) : AggClause :=
  ⟨.multi .any .composite "composite", [("sources", .array [.object [("votes", .object
    [("histogram", .object (votesHistogram interval).body)])]])], none⟩

def votesRequest (clause : AggClause) : Aggregations :=
  { tree := Tree.ofShape (.node ⟨none, .root⟩ [.node ⟨some "by_votes", .clause clause⟩ []]) }

def votesBucket (clause : AggClause) (key : Json) : Bucket :=
  ⟨"by_votes", clause.kind, some key, .ofNat 1, []⟩

theorem histogram_bounds_votes :
    (∃ scope, Response.fragmentsOf (votesRequest (votesHistogram 10))
        (votesBucket (votesHistogram 10) (.number (.int 20))) =
      .ok [⟨scope, rangeFrom "votes" 20 (.number (.int 30))⟩]) ∧
    Refused (votesRequest (votesPages 10)) (votesPages 10)
      (votesBucket (votesPages 10) (.object [("votes", .number (.int 9223372036854775800))])) := by
  have own : OnIntegers (votesHistogram 10) (votesBucket (votesHistogram 10) (.number (.int 20)))
      "votes" 20 10 0 1 := .own rfl rfl rfl rfl
  have source : OnIntegers (votesPages 10)
      (votesBucket (votesPages 10) (.object [("votes", .number (.int 9223372036854775800))]))
      "votes" 9223372036854775800 10 0 1 := .source rfl rfl rfl rfl rfl rfl rfl rfl
  have known (clause : AggClause) : (votesRequest clause).clause "by_votes" = .ok clause := rfl
  obtain ⟨bounds, _, only⟩ := histogram_bounds (known _) own
  obtain ⟨_, beyond, _⟩ := histogram_bounds (known _) source
  have told : ¬Refused (votesRequest (votesHistogram 10)) (votesHistogram 10)
      (votesBucket (votesHistogram 10) (.number (.int 20))) := fun refused =>
    (only (fun _ _ absent => by cases absent) refused).2 (by decide)
  obtain ⟨fragments, upper, made, one, found, summed, _⟩ := bounds.resolve_left told
  obtain ⟨_, rfl, rfl, _⟩ := summed (by decide)
  obtain ⟨⟨scope, condition⟩, rfl⟩ := List.length_eq_one_iff.mp one
  cases found
  exact ⟨⟨scope, made⟩, beyond (by decide)⟩

/-- The sum of the first integer beyond the signed words and ten is rounded to that integer again. -/
theorem histogram_bounds_rounded :
    (votesHistogram 10).Asks (.number (.int 9223372036854775808))
      [rangeFrom "votes" 9223372036854775808 (.number (.float (nearest 9223372036854775808)))] ∧
    ¬(votesHistogram 10).Asks (.number (.int 9223372036854775808))
      [rangeFrom "votes" 9223372036854775808 (.number (.int (9223372036854775808 + 10)))] := by
  have rounded : (votesHistogram 10).Asks (.number (.int 9223372036854775808))
      [rangeFrom "votes" 9223372036854775808 (.number (.float (nearest 9223372036854775808)))] := by
    refine AggClause.asks_of_told fun bucket keyed => ?_
    rw [ofBucket?_histogram rfl rfl rfl keyed]
    rfl
  refine ⟨rounded, fun summed => ?_⟩
  have same := rounded.unique summed
  simp [rangeFrom] at same

end Condition

end ScopedClauses
