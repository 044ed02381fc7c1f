import ScopedClauses.Proofs.Json.Alike
import ScopedClauses.Proofs.Response.Contributing
import ScopedClauses.Proofs.Text.Joined

/-!
Buckets of adjacency matrices. The key of such a bucket joins the names of the filters that its
documents pass, and is cut apart again to find these filters.
-/

namespace ScopedClauses

namespace AggClause

variable {clause : AggClause} {declared : Members} {names : List String}

def separator (clause : AggClause) : String := (clause.stringAt "separator").getD "&"

structure Matrix (clause : AggClause) (declared : Members) : Prop where
  rule : clause.kind.filter = .adjacencyMatrix
  filters : clause.body.lookup "filters" = some (.object declared)

def filtersOf (declared : Members) (names : List String) : List Json :=
  names.filterMap fun name => declared.lookup name

theorem map_lookup_filtersOf (listed : ∀ name ∈ names, name ∈ declared.keys) :
    names.map (fun name => declared.lookup name) = (filtersOf declared names).map some := by
  induction names with
  | nil => rfl
  | cons name names ih =>
      obtain ⟨here, later⟩ := List.forall_mem_cons.mp listed
      obtain ⟨condition, found⟩ := Members.exists_lookup here
      rw [List.map_cons, ih later, found]
      simp [filtersOf, found]

theorem Matrix.ofBucket? (matrix : clause.Matrix declared) {bucket : Bucket} {key : String}
    (keyed : bucket.key = some (.string key)) : Condition.ofBucket? clause bucket =
      (Text.split clause.separator key).mapM fun name => declared.lookup name := by
  simp [Condition.ofBucket?, matrix.rule, keyed, Condition.ofAdjacency, matrix.filters,
    Json.ofOption, Json.object?, Json.string?, separator]

/-- A key asks for the filters of the names that it is cut into. -/
theorem Matrix.asks (matrix : clause.Matrix declared) {key : String}
    (cut : Text.split clause.separator key = names)
    (listed : ∀ name ∈ names, name ∈ declared.keys) :
    clause.Asks (.string key) (filtersOf declared names) := by
  refine asks_of_told fun bucket keyed => ?_
  rw [matrix.ofBucket? keyed, cut]
  exact mapM_eq_some_iff.mpr (map_lookup_filtersOf listed)

/-- A key that joins names of filters is read back as these names exactly when none but the last runs
into the separator, and then the bucket stands for the filters of these names, in their order. No name
runs into a separator of one character. -/
theorem matrix_readBack (matrix : clause.Matrix declared) (nonempty : clause.separator ≠ "")
    (present : names ≠ []) (listed : ∀ name ∈ names, name ∈ declared.keys)
    (absent : ∀ name ∈ names, ¬Text.Occurs clause.separator name) :
    (Text.split clause.separator (clause.separator.intercalate names) = names ↔
      ∀ name ∈ names.dropLast, ¬Text.RunsInto name clause.separator) ∧
    (clause.separator.length = 1 ∨ (∀ name ∈ names.dropLast, ¬Text.RunsInto name clause.separator) →
      clause.Asks (.string (clause.separator.intercalate names)) (filtersOf declared names)) := by
  have readBack := Text.split_intercalate_iff nonempty present absent
  refine ⟨readBack, fun apart => ?_⟩
  have stops : ∀ name ∈ names.dropLast, ¬Text.RunsInto name clause.separator := by
    rcases apart with single | stops
    · intro name earlier
      rw [Text.runsInto_single single]
      exact absent name (List.mem_of_mem_dropLast earlier)
    · exact stops
  exact matrix.asks (readBack.mpr stops) listed

def labelled (value : String) : Json := Shorthand.term "label" (.string value)

def labelMatrix (labels : List String) (attributes : Members) : AggClause :=
  ⟨.multi .any .adjacencyMatrix "adjacency_matrix",
    ("filters", .object (labels.map fun label => (label, labelled label))) :: attributes, none⟩

theorem matrix_labelMatrix (labels : List String) (attributes : Members) :
    (labelMatrix labels attributes).Matrix (labels.map fun label => (label, labelled label)) :=
  ⟨rfl, rfl⟩

theorem matrix_readBack_labels :
    (labelMatrix ["a", "b", "a|b"] []).Asks (.string "b&a|b&a")
      [labelled "b", labelled "a|b", labelled "a"] ∧
    (labelMatrix ["a", "b", "|c"] [("separator", .string "||")]).Asks (.string "b|||c")
      [labelled "b", labelled "|c"] := by
  obtain ⟨_, single⟩ := matrix_readBack (matrix_labelMatrix ["a", "b", "a|b"] []) (by decide)
    (show ["b", "a|b", "a"] ≠ [] by decide) (by decide) (by decide)
  obtain ⟨_, longer⟩ := matrix_readBack
    (matrix_labelMatrix ["a", "b", "|c"] [("separator", .string "||")]) (by decide)
    (show ["b", "|c"] ≠ [] by decide) (by decide) (by decide)
  exact ⟨single (.inl (by decide)), longer (.inr (by decide))⟩

/-- One key may join two lists of names. It is read as the one whose first name is shorter. -/
theorem matrix_misread :
    (∀ name ∈ ["a|", "b"], name ∈ ["a", "b", "a|", "|b"] ∧ ¬Text.Occurs "||" name) ∧
    "||".intercalate ["a|", "b"] = "||".intercalate ["a", "|b"] ∧
    (labelMatrix ["a", "b", "a|", "|b"] [("separator", .string "||")]).Asks
      (.string ("||".intercalate ["a|", "b"])) [labelled "a", labelled "|b"] ∧
    ¬(labelMatrix ["a", "b", "a|", "|b"] [("separator", .string "||")]).Asks
      (.string ("||".intercalate ["a|", "b"])) [labelled "a|", labelled "b"] := by
  have matrix := matrix_labelMatrix ["a", "b", "a|", "|b"] [("separator", .string "||")]
  have cut : Text.split "||" ("||".intercalate ["a|", "b"]) = ["a", "|b"] := by decide
  have shorter := matrix.asks cut (by decide)
  refine ⟨by decide, by decide, shorter, fun longer => ?_⟩
  have same := shorter.unique longer
  simp [filtersOf, labelled, Shorthand.term, Shorthand.keyed, QueryNode.wrap] at same

end AggClause

end ScopedClauses
