import ScopedClauses.Json.Reader
import ScopedClauses.Query.Shorthand
import ScopedClauses.Response.Bucket
import ScopedClauses.Text.Piece

/-!
The conditions that a bucket stands for, read off its key and the aggregation that made it.
-/

namespace ScopedClauses

namespace Condition

def missing (field : String) : Json :=
  Shorthand.boolean [("must_not", [Shorthand.exist field])]

def noneOf (filters : List Json) : Json := Shorthand.boolean [("must_not", filters)]

/-- The sum of two numbers. Integers that fit a signed 64-bit word are added as such, or not
at all where the sum does not fit; any other two numbers are added as floats. -/
def addNumbers (left right : Json) : Option Json := do
  let left ← left.number?
  let right ← right.number?
  match left.signed?, right.signed? with
  | some left, some right =>
      let sum := left + right
      if -Number.signedBound ≤ sum ∧ sum < Number.signedBound then some (.number (.int sum))
      else none
  | _, _ => some (.ofFloat (left.toFloat + right.toFloat))

def histogramRange (field : String) (key interval : Json) : Option Json := do
  let upper ← addNumbers key interval
  some (Shorthand.range field (.object [("gte", key), ("lt", upper)]))

def namedStep? : String → Option String
  | "minute" => some "1m"
  | "hour" => some "1h"
  | "day" => some "1d"
  | "week" => some "1w"
  | "month" => some "1M"
  | "quarter" => some "3M"
  | "year" => some "1y"
  | _ => none

def count? (digits : List Char) : Option Nat :=
  let value := NumberLiteral.natural digits
  if digits.isEmpty then some 1 else if value ≤ NumberLiteral.wordMost then some value else none

def dateStep? (interval : String) : Option String :=
  match namedStep? interval with
  | some step => some step
  | none => do
      let (digits, unit) := Source.splitDigits interval.toList
      let count ← count? digits
      match unit with
      | ['q'] => if count * 3 ≤ NumberLiteral.wordMost then some s!"{count * 3}M" else none
      | [char] => if "smhdwMy".toList.contains char then some s!"{count}{char}" else none
      | _ => none

def dateInterval? (body : Members) : Option String :=
  ["calendar_interval", "fixed_interval", "interval"].findSome? fun name =>
    (body.lookup name).bind Json.string?

/-- A key as whole milliseconds. Fractions are cut off, and what does not fit a signed 64-bit
word becomes the nearest one that does. -/
def epochMillis? (key : Json) : Option String := do
  let number ← key.number?
  some (toString (number.signed?.getD number.toFloat.toInt64.toInt))

def dateRange (field : String) (key : Json) (interval : String) : Option Json := do
  let step ← dateStep? interval
  let start ← epochMillis? key
  some (Shorthand.range field (.object [("gte", .string start),
    ("lt", .string s!"{start}||+{step}"), ("format", .string "epoch_millis")]))

def rangeBounds (dates : Bool) (attributes : Members) : Members :=
  let bound (name limit : String) : Members :=
    match attributes.lookup limit with
    | some value => if value.isNull then [] else [(name, value)]
    | none => []
  bound "gte" "from" ++ bound "lt" "to" ++
    if dates then [("format", .string "epoch_millis")] else []

def ofFilters (clause : AggClause) (key : Json) : Option Json := do
  match ← clause.body.lookup "filters" with
  | .object named =>
      let name ← key.string?
      match named.lookup name with
      | some filter => some filter
      | none => if clause.otherKey? = some name then some (noneOf (named.map (·.2))) else none
  | .array anonymous =>
      let index ← (← key.number?).natural?
      match anonymous[index]? with
      | some filter => some filter
      | none =>
          if index = anonymous.length && clause.otherKey?.isSome then some (noneOf anonymous)
          else none
  | _ => none

def ofSource (keys : Members) (source : Json) : Option Json := do
  let (name, typed) ← (← source.object?).head?
  let (tag, body) ← (← typed.object?).head?
  let body ← body.object?
  let field ← (← body.lookup "field").string?
  let value ← keys.lookup name
  match tag with
  | "terms" => some (if value.isNull then missing field else Shorthand.term field value)
  | "histogram" => do histogramRange field value (← body.lookup "interval")
  | "date_histogram" => do dateRange field value (← dateInterval? body)
  | _ => none

def ofComposite (clause : AggClause) (key : Json) : Option (List Json) := do
  let sources ← (← clause.body.lookup "sources").array?
  let keys ← key.object?
  sources.mapM (ofSource keys)

def ofMultiTerms (clause : AggClause) (key : Json) : Option (List Json) := do
  let sources ← (← clause.body.lookup "terms").array?
  let keys ← key.array?
  if sources.length ≠ keys.length then none
  else (sources.zip keys).mapM fun (source, value) => do
    some (Shorthand.term (← (← source.get? "field").string?) value)

def ofAdjacency (clause : AggClause) (key : Json) : Option (List Json) := do
  let filters ← (← clause.body.lookup "filters").object?
  let separator := (clause.stringAt "separator").getD "&"
  (Text.split separator (← key.string?)).mapM fun name => filters.lookup name

def ofBucket? (clause : AggClause) (bucket : Bucket) : Option (List Json) := do
  let key := Json.ofOption bucket.key
  match clause.kind.filter with
  | .term => some [Shorthand.term (← clause.field?) key]
  | .multiTerms => ofMultiTerms clause key
  | .filter => some [.object clause.body]
  | .filters => do some [← ofFilters clause key]
  | .missing => some [missing (← clause.field?)]
  | .histogram => do
      let interval ← clause.body.lookup "interval"
      some [← histogramRange (← clause.field?) key interval]
  | .dateHistogram => do
      let interval ← dateInterval? clause.body
      some [← dateRange (← clause.field?) key interval]
  | .range =>
      let bounds := rangeBounds (clause.kind.tag = "date_range") bucket.attributes
      some [Shorthand.range (← clause.field?) (.object bounds)]
  | .composite => ofComposite clause key
  | .adjacencyMatrix => ofAdjacency clause key
  | .unsupported => none
  | .transparent | .global | .notApplicable => some []

end Condition

end ScopedClauses
