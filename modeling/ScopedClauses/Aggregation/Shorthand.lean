import ScopedClauses.Json.Basic

/-!
Declarations of common aggregations.
-/

namespace ScopedClauses

namespace AggShorthand

def named (name tag : String) (body : Json) : Json :=
  .object [(name, .object [(tag, body)])]

def onField (name tag field : String) (others : Members) : Json :=
  named name tag (.object (("field", .string field) :: others))

def withChildren (declaration children : Json) : Json :=
  match declaration with
  | .object ((name, .object clause) :: rest) =>
      .object ((name, .object (Members.put "aggs" children clause)) :: rest)
  | other => other

def terms (name field : String) : Json := onField name "terms" field []

def histogram (name field : String) (interval : Float) : Json :=
  onField name "histogram" field [("interval", .ofFloat interval)]

def dateHistogram (name field interval : String) : Json :=
  onField name "date_histogram" field [("calendar_interval", .string interval)]

def filter (name : String) (query : Json) : Json := named name "filter" query

def metric (name tag field : String) : Json := onField name tag field []

end AggShorthand

end ScopedClauses
