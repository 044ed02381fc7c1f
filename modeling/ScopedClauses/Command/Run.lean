import ScopedClauses.Command.Arguments
import ScopedClauses.Mapping.Declaration
import ScopedClauses.Response.Table

/-!
Running the tasks of the command line over files and standard input. The configuration is read
first, then the mapping, the aggregation declaration and standard input.
-/

namespace ScopedClauses

inductive Failure where
  | refused (error : Error)
  | unreadable (path : String)
  | emptyDocument
  | notJson

namespace Failure

def code : Failure → String
  | .refused error => error.code
  | _ => "CLI_IO_ERROR"

def message : Failure → String
  | .refused error => error.message
  | .unreadable path => s!"failed to read '{path}':"
  | .emptyDocument => "Empty input"
  | .notJson => "JSON error:"

end Failure

structure Outcome where
  exitCode : Nat
  envelope : Option Json

namespace Command

variable {m : Type → Type} [Monad m]

abbrev Step (m : Type → Type) := ExceptT Failure m

def lift {α : Type} (result : Result α) : Step m α :=
  match result with
  | .ok value => pure value
  | .error error => throw (.refused error)

structure Context where
  config : Config := {}
  mapping : Option Mapping := none

def readMapping (readFile : String → m (Option String)) (path : String) : Step m Mapping := do
  match ← readFile path with
  | none => lift (.error (.malformed (.mappingFileUnreadable path)))
  | some text =>
      match Json.parse? text with
      | none => lift (.error (.malformed (.mappingFileNotJson path)))
      | some json => lift (Mapping.ofJson json)

def readConfig (readFile : String → m (Option String)) (path : String) : Step m Config := do
  match ← readFile path with
  | none => lift (.error (.invalidConfig (.unreadable path)))
  | some text => lift (Config.parse text)

def readContext (readFile : String → m (Option String)) (invocation : Invocation) :
    Step m Context := do
  let config ← match invocation.config with
    | some path => readConfig readFile path
    | none => pure {}
  let mapping ← match invocation.mappings.or config.mappingsPath with
    | some path => some <$> readMapping readFile path
    | none => pure none
  pure { config, mapping }

def document (text : String) : Step m Json :=
  if Text.isBlank text then throw .emptyDocument
  else match Json.parse? text with
    | some json => pure json
    | none => throw .notJson

def readDocument (readFile : String → m (Option String)) (path : String) : Step m Json := do
  match ← readFile path with
  | some text => document text
  | none => throw (.unreadable path)

def correctedQuery (context : Context) (json : Json) : Result Json := do
  let query := ({ mapping := context.mapping } : Query).withConfig context.config
  pure (Json.ofOption (← query.query (.document json)).toJson?)

def correctedAggs (context : Context) (json : Json) : Result Aggregations :=
  ({ mapping := context.mapping, autocorrect := context.config.autocorrect } :
    Aggregations).add (.declaration json) none

def tabulated (context : Context) (declaration raw : Json) (groupedBy : Option String) :
    Result Json := do
  let response ← Response.ofJson (← correctedAggs context declaration) raw
  pure (← response.toTable { groupedBy, config := context.config.table }).toJson

def normalized (context : Context) (declaration raw : Json) : Result Json := do
  pure (← Response.ofJson (← correctedAggs context declaration) raw).toNormalized

def readDeclaration (readFile : String → m (Option String)) (invocation : Invocation) :
    Step m Json :=
  match invocation.aggs with
  | some path => readDocument readFile path
  | none => pure .null

def perform (readFile : String → m (Option String)) (standardInput : m String)
    (invocation : Invocation) : Step m Json := do
  let context ← readContext readFile invocation
  let declaration ← readDeclaration readFile invocation
  let json ← document (← standardInput)
  lift (match invocation.task with
    | .query => correctedQuery context json
    | .aggs => Aggregations.toJson <$> correctedAggs context json
    | .tabular => tabulated context declaration json invocation.groupedBy
    | .normalize => normalized context declaration json)

def envelopeOf : Except Failure Json → Outcome
  | .ok data => ⟨0, some (.object [("status", .string "ok"), ("data", data)])⟩
  | .error failure =>
      ⟨1, some (.object [("status", .string "error"), ("code", .string failure.code),
        ("message", .string failure.message)])⟩

def run (readFile : String → m (Option String)) (standardInput : m String)
    (arguments : List String) : m Outcome :=
  match Arguments.read arguments with
  | .error .information => pure ⟨0, none⟩
  | .error .usage => pure ⟨2, none⟩
  | .ok invocation => do
      pure (envelopeOf (← (perform readFile standardInput invocation).run))

end Command

end ScopedClauses
