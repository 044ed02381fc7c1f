import ScopedClauses.Mapping.FieldType

/-!
The kinds of aggregation: what they produce, which fields they run on, where a response holds
their value, and how a bucket of theirs turns back into a condition.
-/

namespace ScopedClauses

inductive AggFamily where
  /-- Buckets: one for each key or a single one. -/
  | bucket (multiple : Bool)
  | metric
  | pipeline
deriving Repr, DecidableEq

inductive FilterRule where
  /-- A `term` on the field of the aggregation. -/
  | term
  /-- A `term` for each source. -/
  | multiTerms
  /-- The body of the aggregation. -/
  | filter
  /-- The declared filter of the key, or none of them for the other bucket. -/
  | filters
  /-- Documents without the field. -/
  | missing
  /-- From the key to the key plus the interval. -/
  | histogram
  /-- From the key on for one calendar step. -/
  | dateHistogram
  /-- The bounds that the bucket carries. -/
  | range
  /-- A condition for each source. -/
  | composite
  /-- The declared filters that the key joins. -/
  | adjacencyMatrix
  /-- No condition. -/
  | transparent
  /-- No condition, from here outwards. -/
  | global
  | unsupported
  /-- The aggregation makes no buckets. -/
  | notApplicable
deriving Repr, DecidableEq

structure AggKind where
  tag : String
  family : AggFamily
  rule : TypeRule
  /-- The members of a response that hold the value. -/
  valueMembers : List String
  filter : FilterRule
deriving Repr, DecidableEq

namespace AggKind

def isBucket (kind : AggKind) : Bool :=
  match kind.family with
  | .bucket _ => true
  | _ => false

def isMultiBucket (kind : AggKind) : Bool := kind.family = .bucket true

def isSingleBucket (kind : AggKind) : Bool := kind.family = .bucket false

def multi (rule : TypeRule) (condition : FilterRule) (tag : String) : AggKind :=
  ⟨tag, .bucket true, rule, ["doc_count"], condition⟩

def single (condition : FilterRule) (tag : String) : AggKind :=
  ⟨tag, .bucket false, .any, ["doc_count"], condition⟩

def metric (rule : TypeRule) (members : List String) (tag : String) : AggKind :=
  ⟨tag, .metric, rule, members, .notApplicable⟩

def pipeline (members : List String) (tag : String) : AggKind :=
  ⟨tag, .pipeline, .any, members, .notApplicable⟩

def nested : AggKind := ⟨"nested", .bucket false, .only [.nested], ["doc_count"], .transparent⟩

def reverseNested : AggKind :=
  ⟨"reverse_nested", .bucket false, .only [.nested], ["doc_count"], .transparent⟩

def statsMembers : List String := ["count", "min", "max", "avg", "sum"]

def extendedStatsMembers : List String :=
  statsMembers ++ ["sum_of_squares", "variance", "std_deviation", "std_deviation_bounds"]

def onNumeric : TypeRule := .only FieldType.numeric

def onNumericOrDate : TypeRule := .only FieldType.numericOrDate

def onDates : TypeRule := .only FieldType.dates

def onGeo : TypeRule := .only FieldType.geo

def multiBuckets : List AggKind :=
  ["terms", "significant_terms", "rare_terms"].map (multi (.except FieldType.notTerms) .term) ++
  [multi .any .multiTerms "multi_terms",
    multi onNumeric .histogram "histogram",
    multi onDates .dateHistogram "date_histogram",
    multi onNumericOrDate .range "range",
    multi onDates .range "date_range",
    multi (.only [.ip]) .range "ip_range",
    multi .any .filters "filters",
    multi .any .composite "composite",
    multi .any .adjacencyMatrix "adjacency_matrix",
    multi onGeo .unsupported "geohash_grid",
    multi onGeo .unsupported "geotile_grid",
    multi onDates .unsupported "auto_date_histogram",
    multi onNumeric .unsupported "variable_width_histogram"]

def singleBuckets : List AggKind :=
  [single .filter "filter", single .missing "missing", nested, reverseNested,
    single .global "global"] ++
  ["sampler", "diversified_sampler", "children", "parent"].map (single .transparent)

def metrics : List AggKind :=
  ["avg", "sum", "min", "max", "median_absolute_deviation"].map
    (metric onNumericOrDate ["value"]) ++
  ["value_count", "cardinality"].map (metric (.except FieldType.containers) ["value"]) ++
  ["weighted_avg", "scripted_metric", "rate"].map (metric .any ["value"]) ++
  [metric onNumericOrDate statsMembers "stats",
    metric onNumericOrDate extendedStatsMembers "extended_stats",
    metric onNumericOrDate ["values"] "percentiles",
    metric onNumericOrDate ["values"] "percentile_ranks",
    metric onNumericOrDate ["min", "max", "q1", "q2", "q3"] "boxplot",
    metric .any ["hits"] "top_hits",
    metric .any ["top"] "top_metrics",
    metric onGeo ["bounds"] "geo_bounds",
    metric onGeo ["location"] "geo_centroid",
    metric (.only FieldType.strings)
      ["count", "min_length", "max_length", "avg_length", "entropy"] "string_stats"]

def pipelines : List AggKind :=
  ["avg_bucket", "max_bucket", "min_bucket", "sum_bucket", "bucket_script", "cumulative_sum",
    "cumulative_cardinality", "derivative", "moving_fn", "serial_diff", "normalize"].map
    (pipeline ["value"]) ++
  [pipeline statsMembers "stats_bucket",
    pipeline extendedStatsMembers "extended_stats_bucket",
    pipeline ["values"] "percentiles_bucket",
    pipeline [] "bucket_selector",
    pipeline [] "bucket_sort"]

def all : List AggKind := multiBuckets ++ singleBuckets ++ metrics ++ pipelines

def ofTag (tag : String) : Result AggKind :=
  match all.find? (·.tag = tag) with
  | some kind => pure kind
  | none => throw (.unknownClauseType tag)

end AggKind

end ScopedClauses
