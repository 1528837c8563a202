import StateSearch.Replay
import StateSearch.Scenario
import StateSearch.Solver
import StateSearch.Text.Json

/-!
# Reports

What came of solving a scenario, and whether it is what was expected. Reports are printed as JSON.
-/

namespace StateSearch

/-- Whether a scenario has the outcome that is expected of it, given the cost of the solution that was
found. For a scenario that must not have a solution the cost that is expected does not matter. -/
def Scenario.isMetBy (scenario : Scenario) (cost : Option Cost) : Bool :=
  if scenario.unsolvable then cost.isNone
  else
    match scenario.expectedCost with
    | some expected => cost == some expected
    | none => cost.isSome

structure Report where
  name : String
  strategy : Strategy
  /-- The moves of the solution, as texts. -/
  moves : List String := []
  /-- The cost of the solution, if one was found. -/
  cost : Option Cost := none
  expectedCost : Option Cost
  matchesExpected : Bool := false
  /-- What the search counted, if it came to its end. -/
  stats : Option Stats := none
  error : Option String := none

namespace Report

open Text

/-- A report on a search that came to its end. -/
def ofAnswer {M : Type} (scenario : Scenario) (strategy : Strategy) (moveText : M → String)
    (path : Option (Path M)) (stats : Stats) : Report where
  name := scenario.name
  strategy
  moves := path.elim [] fun path => path.moves.map moveText
  cost := path.map Path.cost
  expectedCost := scenario.expectedCost
  matchesExpected := scenario.isMetBy (path.map Path.cost)
  stats := some stats

/-- A report on a search that failed. -/
def ofError (scenario : Scenario) (strategy : Strategy) (error : SearchError) : Report where
  name := scenario.name
  strategy
  expectedCost := scenario.expectedCost
  error := some error.text

def costJson : Option Cost → Json := Json.ofOption fun cost => .number cost.toNat

/-- Statistics. No time is measured. -/
def statsJson (stats : Stats) : Json :=
  .object [("expanded", .number stats.expanded), ("generated", .number stats.generated),
    ("duplicates", .number stats.duplicates), ("cost", costJson stats.cost),
    ("time_ms", .number 0), ("workers", .number stats.workers)]

def json (report : Report) : Json :=
  .object [("name", .string report.name), ("strategy", .string report.strategy.name),
    ("solved", .bool report.cost.isSome), ("moves", .array (report.moves.map Json.string)),
    ("cost", costJson report.cost), ("expected_cost", costJson report.expectedCost),
    ("matches_expected", .bool report.matchesExpected),
    ("stats", Json.ofOption statsJson report.stats),
    ("error", Json.ofOption Json.string report.error)]

/-- Several reports as one text. -/
def text (reports : List Report) : String := (Json.array (reports.map json)).pretty

end Report

end StateSearch
