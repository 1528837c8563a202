import StateSearch.Decimal.Reading
import StateSearch.Settings.Config

/-!
# Command lines

The arguments of the program. Each setting has a long name and a value, which is either joined to the
name by an equals sign or is the next argument, which then must not begin with a dash. Nothing may be
given twice, and nothing else may be given.

A value that is an argument of its own is looked at only when the next setting, or the end, is reached
(`CommandLine.settle`). So an argument that is not known is reported in its place.
-/

namespace StateSearch

/-- The settings that have a value on a command line. -/
inductive Setting where
  | config
  | scenarioPath
  | strategy
  | workers
  | breadthBias
  | seed
  | timeout
  deriving DecidableEq, Repr

namespace Setting

def all : List Setting :=
  [config, scenarioPath, strategy, workers, breadthBias, seed, timeout]

def name : Setting → String
  | config => "config"
  | scenarioPath => "scenario-path"
  | strategy => "strategy"
  | workers => "workers"
  | breadthBias => "breadth-bias"
  | seed => "seed"
  | timeout => "timeout-ms"

def ofName? (name : String) : Option Setting := all.find? fun setting => setting.name == name

def purpose : Setting → String
  | config => "Path to a YAML config file"
  | scenarioPath => "Path to the YAML scenario file (built-in scenarios if absent)"
  | strategy => "Search strategy to use"
  | workers => "Worker threads for the concurrent strategies"
  | breadthBias => "Breadth bias in [0, 1] for the concurrent strategy"
  | seed => "Seed for the scheduling random number generators"
  | timeout => "Give up on a scenario after this many milliseconds"

end Setting

/-- Why a command line is not carried out. -/
inductive UsageError where
  /-- The user asks how to use the program. -/
  | help
  | version
  | unknownArgument (argument : String)
  | missingValue (setting : Setting)
  /-- A value that is none of those there are. -/
  | unknownValue (setting : Setting) (value : String)
  /-- A value that cannot be read as a number. -/
  | malformedValue (setting : Setting) (value : String)
  | repeated (name : String)
  /-- A value for something that has none. -/
  | needlessValue (name : String)
  deriving Repr

/-- What a command line says. -/
structure CommandLine where
  config : Option String := none
  scenarioPath : Option String := none
  strategy : Option Strategy := none
  workers : Option Nat := none
  breadthBias : Option Float := none
  seed : Option UInt64 := none
  timeout : Option UInt64 := none
  json : Bool := false

namespace CommandLine

/-- A number of 64 bits in decimal digits, perhaps with a plus sign. -/
def number? (text : String) : Option Nat :=
  let digits := match text.toList with
    | '+' :: rest => rest
    | chars => chars
  if digits.isEmpty || !digits.all Char.isDigit then none
  else (some (Decimal.ofDigits digits)).filter (· < UInt64.size)

def word? (text : String) : Option UInt64 := UInt64.ofNat <$> number? text

/-- Whether a setting was given already. -/
def has (line : CommandLine) : Setting → Bool
  | .config => line.config.isSome
  | .scenarioPath => line.scenarioPath.isSome
  | .strategy => line.strategy.isSome
  | .workers => line.workers.isSome
  | .breadthBias => line.breadthBias.isSome
  | .seed => line.seed.isSome
  | .timeout => line.timeout.isSome

/-- The command line with a setting. -/
def set (line : CommandLine) (setting : Setting) (value : String) :
    Except UsageError CommandLine :=
  let orMalformed {α : Type} (value? : Option α) (use : α → CommandLine) :=
    value?.elim (.error (.malformedValue setting value)) (.ok ∘ use)
  if line.has setting then .error (.repeated setting.name)
  else match setting with
    | .config => .ok { line with config := some value }
    | .scenarioPath => .ok { line with scenarioPath := some value }
    | .strategy =>
      match Strategy.ofName? value with
      | some strategy => .ok { line with strategy := some strategy }
      | none => .error (.unknownValue setting value)
    | .workers => orMalformed (number? value) fun count => { line with workers := some count }
    | .breadthBias =>
      orMalformed (Decimal.read? value.toList) fun bias => { line with breadthBias := some bias }
    | .seed => orMalformed (word? value) fun seed => { line with seed := some seed }
    | .timeout => orMalformed (word? value) fun limit => { line with timeout := some limit }

/-- What may come next on a command line. -/
inductive Pending where
  | nothing
  /-- The value of a setting. -/
  | valueOf (setting : Setting)
  /-- Nothing, but a setting was given with a value that is still to be looked at. -/
  | value (setting : Setting) (value : String)

/-- Look at what is pending. -/
def settle (line : CommandLine) : Pending → Except UsageError CommandLine
  | .nothing => .ok line
  | .valueOf setting => .error (.missingValue setting)
  | .value setting value => line.set setting value

/-- An argument that begins with two dashes, which are left out: a name, and a value if one is joined
to it. -/
def long (line : CommandLine) (pending : Pending) (name : String) (value? : Option String) :
    Except UsageError (CommandLine × Pending) := do
  match Setting.ofName? name, value? with
  | some setting, some value => return (← (← line.settle pending).set setting value, .nothing)
  | some setting, none => return (← line.settle pending, .valueOf setting)
  | none, value? =>
    if !(["json", "help", "version"].contains name) then throw (.unknownArgument ("--" ++ name))
    if value?.isSome then throw (.needlessValue name)
    let line ← line.settle pending
    if name == "help" then throw .help
    if name == "version" then throw .version
    if line.json then throw (.repeated name)
    return ({ line with json := true }, .nothing)

/-- An argument that begins with one dash. Only its first letter matters. -/
def short (line : CommandLine) (pending : Pending) (letter : Char) (argument : String) :
    Except UsageError (CommandLine × Pending) := do
  if letter ≠ 'h' && letter ≠ 'V' then throw (.unknownArgument argument)
  let _ ← line.settle pending
  throw (if letter = 'h' then .help else .version)

/-- The name in an argument, and the value behind the first equals sign. -/
def splitValue (text : List Char) : String × Option String :=
  match text.dropWhile (· != '=') with
  | [] => (String.ofList text, none)
  | _ :: value => (String.ofList (text.takeWhile (· != '=')), some (String.ofList value))

/-- Read arguments behind those that made up `line`. After two dashes nothing may follow. -/
def readFrom (line : CommandLine) (pending : Pending) :
    List String → Except UsageError CommandLine
  | [] => line.settle pending
  | argument :: rest => do
    match argument.toList, pending with
    | ['-', '-'], pending =>
      match rest with
      | [] => line.settle pending
      | stray :: _ => throw (.unknownArgument stray)
    | '-' :: '-' :: text, pending =>
      let (name, value?) := splitValue text
      let (line, pending) ← line.long pending name value?
      readFrom line pending rest
    | '-' :: letter :: _, pending =>
      let (line, pending) ← line.short pending letter argument
      readFrom line pending rest
    | _, .valueOf setting => readFrom line (.value setting argument) rest
    | _, _ => throw (.unknownArgument argument)

/-- Read the arguments of the program. -/
def read (arguments : List String) : Except UsageError CommandLine := readFrom {} .nothing arguments

/-- The configuration with what the command line says put over it. -/
def override (line : CommandLine) (config : Config) : Config where
  scenarioPath := line.scenarioPath.or config.scenarioPath
  strategy := line.strategy.getD config.strategy
  search := { config.search with
    workers := line.workers.or config.search.workers
    breadthBias := line.breadthBias.getD config.search.breadthBias
    seed := line.seed.getD config.search.seed }
  timeout := line.timeout.or config.timeout
  json := config.json || line.json

/-- The configuration that results from a file and a command line, if it can be used. -/
def apply (line : CommandLine) (config : Config) : Except SettingsError Config := do
  let config := line.override config
  config.validate
  return config

end CommandLine

end StateSearch
