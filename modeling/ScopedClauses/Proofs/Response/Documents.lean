import ScopedClauses.Proofs.Query.Meaning
import ScopedClauses.Response.Selection

/-!
Documents with nested documents, and the two ways to single them out: by a query, and by a walk
down the aggregations of a bucket.
-/

namespace ScopedClauses

inductive Document where
  | node (holds : Json → Bool) (inner : String → List Document)

namespace Document

def holds : Document → Json → Bool
  | .node holds _ => holds

def inner : Document → String → List Document
  | .node _ inner => inner

end Document

/-! ### Queries -/

namespace Weaving

open Rose

mutual

def selects (document : Document) : Shape QueryNode → Bool
  | .node entry slots =>
      match entry.content with
      | .leaf clause =>
          clause.kind.tag = "match_all" ||
            document.holds (QueryNode.wrap clause.kind.tag clause.body)
      | other =>
          match other.nestedPath? with
          | some path => (document.inner path).any fun nested =>
              combine false fun name => selectsNamed nested name slots
          | none => combine other.isBool fun name => selectsNamed document name slots

def selectsNamed (document : Document) (name : String) : List (Shape QueryNode) → List Bool
  | [] => []
  | .node entry clauses :: rest =>
      (if entry.content.slot?.any (·.name = name) then selectsOf document clauses else []) ++
        selectsNamed document name rest

def selectsOf (document : Document) : List (Shape QueryNode) → List Bool
  | [] => []
  | clause :: rest => selects document clause :: selectsOf document rest

end

theorem selectsOf_eq (document : Document) (clauses : List (Shape QueryNode)) :
    selectsOf document clauses = clauses.map (selects document) := by
  induction clauses with
  | nil => rfl
  | cons clause rest ih => rw [selectsOf, ih, List.map_cons]

end Weaving

/-! ### Walks -/

inductive Step where
  /-- Entering a nested document or going back to an enclosing one. -/
  | cross (boundary : Boundary)
  /-- The document has to meet a condition. -/
  | test (condition : Json)

namespace Step

def backTo? (path : String) : List (String × α) → Option (List (String × α))
  | [] => none
  | entry :: outer => if entry.1 = path then some (entry :: outer) else backTo? path outer

def back? (target : Option String) (trail : List (String × α)) : Option (List (String × α)) :=
  match target with
  | none => some []
  | some path => backTo? path trail

end Step

namespace Document

def current (document : Document) : List (String × Document) → Document
  | [] => document
  | (_, nested) :: _ => nested

/-- Whether some walk from a document takes all steps. Each entry may choose another nested
document. -/
def admits (document : Document) : List (String × Document) → List Step → Bool
  | _, [] => true
  | trail, .test condition :: rest =>
      (document.current trail).holds condition && document.admits trail rest
  | trail, .cross (.enter path) :: rest =>
      ((document.current trail).inner path).any fun nested =>
        document.admits ((path, nested) :: trail) rest
  | trail, .cross (.exit target) :: rest =>
      match Step.back? target trail with
      | some trail => document.admits trail rest
      | none => false

end Document

namespace Response

def stepOf? (clause : AggClause) (bucket : Bucket) : Option Step :=
  match clause.boundary? with
  | some boundary => some (.cross boundary)
  | none =>
      if clause.kind.filter = .term then
        clause.field?.map fun field => .test (Shorthand.term field (Json.ofOption bucket.key))
      else none

def steps (response : Response) (id : Nat) : List Step :=
  (response.tree.ancestry id).reverse.filterMap fun node => do
    let bucket ← node.content.bucket?
    let clause ← (response.aggs.clause bucket.level).toOption
    stepOf? clause bucket

def contributes (response : Response) (id : Nat) (document : Document) : Bool :=
  document.admits [] (response.steps id)

end Response

end ScopedClauses
