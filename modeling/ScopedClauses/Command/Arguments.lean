/-!
The command line: which command to run, and with which options. A request for help or for the
version is answered where it is met; options given after it are not looked at.
-/

namespace ScopedClauses

inductive Setting where
  | config
  | mappings
  | aggs
  | groupedBy
deriving Repr, DecidableEq

namespace Setting

def ofName? : String → Option Setting
  | "config" => some .config
  | "mappings" => some .mappings
  | "aggs" => some .aggs
  | "grouped-by" => some .groupedBy
  | _ => none

def takes (setting : Setting) (value : String) : Bool :=
  setting = .groupedBy || value ≠ ""

end Setting

inductive Task where
  | query
  | aggs
  | tabular
  | normalize
deriving Repr, DecidableEq

namespace Task

def ofName? : String → Option Task
  | "query" => some .query
  | "aggs" => some .aggs
  | "tabular" => some .tabular
  | "normalize" => some .normalize
  | _ => none

def settings : Task → List Setting
  | .query | .aggs => [.config, .mappings]
  | .tabular => [.config, .mappings, .aggs, .groupedBy]
  | .normalize => [.config, .mappings, .aggs]

def needsAggs : Task → Bool
  | .tabular | .normalize => true
  | _ => false

end Task

structure Invocation where
  task : Task
  config : Option String := none
  mappings : Option String := none
  aggs : Option String := none
  groupedBy : Option String := none
deriving Repr, DecidableEq

inductive NoTask where
  | information
  | usage
deriving Repr, DecidableEq

namespace Arguments

structure Settings where
  given : List (Setting × String) := []
  pending : Option (Setting × Option String) := none

def record (settings : Settings) (setting : Setting) (value : String) :
    Except NoTask Settings :=
  if setting.takes value && (settings.given.lookup setting).isNone then
    pure { settings with given := (setting, value) :: settings.given }
  else throw .usage

def settle (settings : Settings) : Except NoTask Settings :=
  match settings.pending with
  | none => pure settings
  | some (_, none) => throw .usage
  | some (setting, some value) => record { settings with pending := none } setting value

def splitLong (text : List Char) : String × Option String :=
  let name := String.ofList (text.takeWhile (· ≠ '='))
  match text.dropWhile (· ≠ '=') with
  | [] => (name, none)
  | _ :: value => (name, some (String.ofList value))

def readLong (allowed : List Setting) (version : Bool) (settings : Settings)
    (text : List Char) : Except NoTask Settings := do
  let (name, value) := splitLong text
  match Setting.ofName? name, value with
  | some setting, value =>
      if !allowed.contains setting then throw .usage
      let settings ← settle settings
      match value with
      | some value => record settings setting value
      | none => pure { settings with pending := some (setting, none) }
  | none, none =>
      if name = "help" || (version && name = "version") then do
        let _ ← settle settings
        throw .information
      else throw .usage
  | none, some _ => throw .usage

def readShort (version : Bool) (settings : Settings) (letter : Char) :
    Except NoTask Settings := do
  if letter = 'h' || (version && letter = 'V') then do
    let _ ← settle settings
    throw .information
  else throw .usage

def awaitsValue (settings : Settings) : Bool :=
  match settings.pending with
  | some (_, none) => true
  | _ => false

def takeValue (settings : Settings) (value : String) : Settings :=
  { settings with pending := settings.pending.map fun (setting, _) => (setting, some value) }

def readOne (allowed : List Setting) (version : Bool) (settings : Settings)
    (argument : String) : Except NoTask Settings :=
  match argument.toList with
  | '-' :: '-' :: text => readLong allowed version settings text
  | '-' :: letter :: _ => readShort version settings letter
  | _ => if awaitsValue settings then pure (takeValue settings argument) else throw .usage

def readSettings (task : Task) : Settings → List String → Except NoTask Settings
  | settings, [] => settle settings
  | settings, ["--"] => settle settings
  | settings, argument :: rest => do
      if argument = "--" then throw .usage
      readSettings task (← readOne task.settings false settings argument) rest

def readOptions (task : Task) (arguments : List String) : Except NoTask Invocation := do
  let given := (← readSettings task {} arguments).given
  let aggs := given.lookup .aggs
  if task.needsAggs && aggs.isNone then throw .usage
  pure
    { task
      config := given.lookup .config
      mappings := given.lookup .mappings
      aggs
      groupedBy := given.lookup .groupedBy }

def readHelp : List String → NoTask
  | [] => .information
  | [topic] =>
      if topic = "help" || (Task.ofName? topic).isSome then .information else .usage
  | _ => .usage

def withOuter (invocation : Invocation) (outer : Settings) : Invocation :=
  { invocation with config := invocation.config.or (outer.given.lookup .config) }

def readFrom (settings : Settings) : List String → Except NoTask Invocation
  | [] => throw .usage
  | argument :: rest => do
      if !awaitsValue settings && argument = "help" then throw (readHelp rest)
      match Task.ofName? argument, awaitsValue settings with
      | some task, false => do
          -- the task and its options are read before the last option ahead of it is checked
          let inner ← readOptions task rest
          pure (withOuter inner (← settle settings))
      | _, _ =>
          if argument = "--" then throw .usage
          readFrom (← readOne [.config] true settings argument) rest

def read (arguments : List String) : Except NoTask Invocation := readFrom {} arguments

end Arguments

end ScopedClauses
