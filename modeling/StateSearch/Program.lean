import StateSearch.Deadline
import StateSearch.Report
import StateSearch.Settings.CommandLine

/-!
# The program

The program reads its command line, a configuration and scenarios, solves one scenario after the other
and reports on them. It fails if the outcome of some scenario is not the one that is expected.

What the program needs of the machine it runs on is a `Host`: it reads files, it can give up work that
takes too long, and it is known how long calls take on it.
-/

namespace StateSearch

/-- What the program needs, in a monad `m` of actions. -/
structure Host (m : Type → Type) where
  read : String → m Opened
  /-- Do work for so many milliseconds at most. -/
  within {α : Type} : Nat → (Unit → α) → m (Option α)
  /-- How long calls take if no clock is looked at. -/
  pace : Pace := {}

/-- The host whose files are those of a directory, and on which nothing but calls takes time. -/
def Host.of (directory : Directory) : Host Id where
  read := directory.read
  within _ work := some (work ())
  pace := .usual

/-- Why the program fails. -/
inductive RunError where
  | unreadableConfig (path : String)
  | malformedConfig (path : String)
  | settings (error : SettingsError)
  | input (error : InputError)
  /-- A scenario whose puzzle cannot be set up. -/
  | refusedScenario (name : String)
  /-- A search that came up with a path that is no solution. -/
  | wrongPath (name : String)
  /-- A search that did not come to its end. -/
  | abandoned
  /-- So many scenarios did not have the outcome that is expected. -/
  | unmet (count total : Nat)

/-- The message of an error. A search that was abandoned has left no message. -/
def RunError.message? : RunError → Option String
  | unreadableConfig path => some ("cannot read config file: " ++ path)
  | malformedConfig path => some ("error with config file: " ++ path)
  | settings error => some error.message
  | input error => some error.message
  | refusedScenario name => some ("error with scenario: " ++ name)
  | wrongPath name => some (name ++ ": solver returned an invalid path")
  | abandoned => none
  | unmet count total => some s!"{count} of {total} scenarios did not match their expectation"

/-- What the program leaves behind. -/
structure Outcome where
  exitCode : UInt32
  /-- What is printed. -/
  output : Option String := none
  /-- What is said about an error. -/
  error : Option String := none

namespace Program

def name : String := "puzzle-search"

def version : String := "0.1"

/-! ### Command line -/

/-- How a setting is written on the command line. -/
def settingHelp (setting : Setting) : String :=
  let values := match setting with
    | .strategy => " [possible values: " ++ ", ".intercalate (Strategy.all.map Strategy.name) ++ "]"
    | _ => ""
  let placeholder := (setting.name.replace "-" "_").toUpper
  s!"      --{setting.name} <{placeholder}>\n          {setting.purpose}{values}\n"

def help : String :=
  "Run the state-space solvers against bundled puzzle scenarios.\n\n" ++
    s!"Usage: {name} [OPTIONS]\n\nOptions:\n" ++ String.join (Setting.all.map settingHelp) ++
    "      --json\n          Print a JSON report instead of log lines\n" ++
    "  -h, --help\n          Print help\n  -V, --version\n          Print version"

/-- What is said about a command line that is not carried out. -/
def usageMessage : UsageError → String
  | .help | .version => ""
  | .unknownArgument argument => s!"error: unexpected argument '{argument}' found"
  | .missingValue setting =>
    s!"error: a value is required for '--{setting.name}' but none was supplied"
  | .unknownValue setting value | .malformedValue setting value =>
    s!"error: invalid value '{value}' for '--{setting.name}'"
  | .repeated name => s!"error: the argument '--{name}' cannot be used multiple times"
  | .needlessValue name => s!"error: unexpected value for '--{name}' found; no more were expected"

/-- The outcome for a command line that is not carried out. -/
def usage : UsageError → Outcome
  | .help => { exitCode := 0, output := some help }
  | .version => { exitCode := 0, output := some s!"{name} {version}" }
  | error => { exitCode := 2, error := some (usageMessage error) }

/-! ### Scenarios -/

variable {m : Type → Type} [Monad m]

/-- Search for a solution, for a limited time if the configuration says so. -/
def search {S M : Type} [DecidableEq S] [Hashable S] (host : Host m) (config : Config)
    (p : Problem Unit S M) : m (Solver × Ending M) := do
  let solver := Solver.new config.strategy config.search
  match config.timeout with
  | none =>
    let (after, _, ending) := solver.solve p ()
    return (after, ending)
  | some limit =>
    let p := { p with pace := host.pace }
    match ← host.within limit.toNat fun _ => solver.solveWithin p limit.toNat () with
    | some (after, _, ending) => return (after, ending)
    | none => return (solver.stop, .failed (.deadlineElapsed (.ofMilliseconds limit.toNat)))

/-- Solve a scenario's puzzle and report on it. The path of a solution is played once more. -/
def solve {S M : Type} [DecidableEq S] [Hashable S] [DecidableEq M] (host : Host m)
    (config : Config) (scenario : Scenario) (p : Problem Unit S M) (moveText : M → String) :
    ExceptT RunError m Report := do
  let (solver, ending) ← ExceptT.lift (search host config p)
  match ending with
  | .answered path =>
    let isWrong := path.any fun path =>
      match (p.isSolution path ()).result with
      | .ok valid => !valid
      | .error _ => true
    if isWrong then throw (.wrongPath scenario.name)
    return .ofAnswer scenario config.strategy moveText path solver.stats
  | .failed error => return .ofError scenario config.strategy error
  | .abandoned _ | .unfinished => throw .abandoned

/-- Set up the puzzle of a scenario, solve it and report on it. -/
def solveScenario (host : Host m) (config : Config) (scenario : Scenario) :
    ExceptT RunError m Report :=
  match scenario.puzzle with
  | .bridge speeds capacity folds =>
    match Puzzle.Bridge.make? speeds capacity folds with
    | .ok bridge => solve host config scenario bridge.problem.toProblem Puzzle.Crossing.text
    | .error _ => throw (.refusedScenario scenario.name)
  | .jugs jugs => solve host config scenario jugs.problem Puzzle.Pour.text

/-- The error of reports some of which are not as expected. -/
def check (reports : List Report) : Except RunError Unit :=
  let unmet := reports.countP fun report => !report.matchesExpected
  if unmet = 0 then .ok () else .error (.unmet unmet reports.length)

/-! ### Runs -/

/-- The configuration that results from the command line and the file that it names. -/
def configure (host : Host m) (line : CommandLine) : ExceptT RunError m Config := do
  let config : Config ← match line.config with
    | none => pure {}
    | some path =>
      match ← host.read path with
      | .text content =>
        match Config.ofText content with
        | .ok config => pure config
        | .error _ => throw (.malformedConfig path)
      | _ => throw (.unreadableConfig path)
  ExceptT.mk (pure ((line.apply config).mapError .settings))

/-- The scenarios that are to be solved. -/
def scenarios (host : Host m) (config : Config) : ExceptT RunError m (List Scenario) := do
  match config.scenarioPath with
  | none => return Scenario.builtin
  | some path =>
    let opened ← host.read path
    ExceptT.mk (pure ((Scenario.allOfFile path opened).mapError .input))

/-- Do what the command line says, up to the reports. -/
def execute (host : Host m) (line : CommandLine) : ExceptT RunError m (Config × List Report) := do
  let config ← configure host line
  let reports ← (← scenarios host config).mapM (solveScenario host config)
  return (config, reports)

def failure (output : Option String) : RunError → Outcome
  | .abandoned => { exitCode := 101, output }
  | error => { exitCode := 1, output, error := error.message?.map ("Error: " ++ ·) }

/-- Run the program. Reports are printed even if some of them are not as expected. -/
def run (host : Host m) (arguments : List String) : m Outcome := do
  match CommandLine.read arguments with
  | .error error => return usage error
  | .ok line =>
    match ← (execute host line).run with
    | .error error => return failure none error
    | .ok (config, reports) =>
      let output := if config.json then some (Report.text reports) else none
      match check reports with
      | .error error => return failure output error
      | .ok () => return { exitCode := 0, output }

end Program

end StateSearch
