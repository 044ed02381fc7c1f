import ScopedClauses.Query.Document

/-!
Documents of common clauses.
-/

namespace ScopedClauses

namespace Shorthand

def keyed (tag field : String) (value : Json) : Json := QueryNode.wrap tag [(field, value)]

def term (field : String) (value : Json) : Json := keyed "term" field value

def terms (field : String) (values : List Json) : Json := keyed "terms" field (.array values)

def matching (field : String) (value : Json) : Json := keyed "match" field value

def range (field : String) (bounds : Json) : Json := keyed "range" field bounds

def exist (field : String) : Json := QueryNode.wrap "exists" [("field", .string field)]

def matchAll : Json := QueryNode.wrap "match_all" []

def nested (path : String) (query : Json) : Json :=
  QueryNode.wrap "nested" [("path", .string path), ("query", query)]

def boolean (parameters : List (String × List Json)) : Json :=
  QueryNode.wrap "bool"
    (Members.merge [] (parameters.map fun (name, clauses) => (name, .array clauses)))

end Shorthand

end ScopedClauses
