import ScopedClauses.Json.Reader
import ScopedClauses.Query.Basic
import ScopedClauses.Text.Blank

/-!
Configurations and their JSON texts. Unknown members are passed over, whatever they hold; a
known member may come once. A list gives the members in order. What is missing has its default.
-/

namespace ScopedClauses

structure TableConfig where
  /-- Whether single buckets are part of the index of a row. -/
  includeSingleBucket : Bool := false
  /-- The column for the value of the bucket of a row. -/
  valueColumn : String := "doc_count"
deriving Repr, DecidableEq

structure Config where
  autocorrect : Bool := true
  mergeMode : MergeMode := .add
  table : TableConfig := {}
  mappingsPath : Option String := none
deriving Repr, DecidableEq

namespace Config

def knownMembers? (names : List String) :
    List (List Glyph × Source) → Option (List (String × Source))
  | [] => some []
  | (key, content) :: rest => do
      let name ← Glyph.text? key
      let others ← knownMembers? names rest
      if !names.contains name then some others
      else if (others.lookup name).isSome then none
      else some ((name, content) :: others)

def parts? (names : List String) : Source → Option (List (String × Source))
  | .object members => knownMembers? names members
  | .array items => if items.length ≤ names.length then some (names.zip items) else none
  | _ => none

def part? {α : Type} (parts : List (String × Source)) (name : String) (default : α)
    (read : Source → Option α) : Option α :=
  match parts.lookup name with
  | some source => read source
  | none => some default

def bool? : Source → Option Bool
  | .bool value => some value
  | _ => none

def text? : Source → Option String
  | .string glyphs => Glyph.text? glyphs
  | _ => none

def optionalText? : Source → Option (Option String)
  | .null => some none
  | source => some <$> text? source

def mergeMode? : Source → Option MergeMode
  | .string glyphs => do MergeMode.ofName? (← Glyph.text? glyphs)
  | .object [(key, .null)] => do MergeMode.ofName? (← Glyph.text? key)
  | _ => none

def table? (source : Source) : Option TableConfig := do
  let parts ← parts? ["include_single_bucket", "value_column"] source
  let defaults : TableConfig := {}
  let includeSingleBucket ←
    part? parts "include_single_bucket" defaults.includeSingleBucket bool?
  let valueColumn ← part? parts "value_column" defaults.valueColumn text?
  pure { includeSingleBucket, valueColumn }

def ofSource? (source : Source) : Option Config := do
  let parts ← parts?
    ["nested_autocorrect", "default_merge_mode", "tabular", "mappings_path"] source
  let defaults : Config := {}
  let autocorrect ← part? parts "nested_autocorrect" defaults.autocorrect bool?
  let mergeMode ← part? parts "default_merge_mode" defaults.mergeMode mergeMode?
  let table ← part? parts "tabular" defaults.table table?
  let mappingsPath ← part? parts "mappings_path" defaults.mappingsPath optionalText?
  pure { autocorrect, mergeMode, table, mappingsPath }

def validate (config : Config) : Result Config :=
  if Text.isBlank config.table.valueColumn then throw (.invalidConfig .blankValueColumn)
  else if config.mappingsPath = some "" then throw (.invalidConfig .emptyMappingsPath)
  else pure config

def parse (text : String) : Result Config :=
  match (Source.parse? text).bind ofSource? with
  | some config => config.validate
  | none => throw (.invalidConfig .notJson)

end Config

namespace Query

def withConfig (query : Query) (config : Config) : Query :=
  { query with autocorrect := config.autocorrect, mergeMode := config.mergeMode }

end Query

end ScopedClauses
