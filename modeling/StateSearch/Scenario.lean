import StateSearch.Files
import StateSearch.Puzzle.Bridge
import StateSearch.Puzzle.Pouring
import StateSearch.Settings.Config

/-!
# Scenarios

A scenario is a puzzle with a name and with what is expected of its solution. Scenarios are read from
YAML text, or they are the ones that the program knows (`Scenario.builtin`).
-/

namespace StateSearch

open Yaml

/-- A puzzle as it is described in a scenario. A bridge that is described need not be one that can be
set up. -/
inductive PuzzleSpec where
  | bridge (speeds : List Cost) (capacity : Nat) (folds : Bool)
  | jugs (jugs : Puzzle.Pouring)
  deriving DecidableEq, Repr

structure Scenario where
  name : String
  puzzle : PuzzleSpec
  /-- The cost of the best solution, if it is known and there is one. -/
  expectedCost : Option Cost := none
  /-- Whether the puzzle must turn out to have no solution. -/
  unsolvable : Bool := false
  deriving DecidableEq, Repr

namespace PuzzleSpec

/-- A whole number from 0 up to, but without, `limit`. -/
def natural (limit : Nat) : Value → Reading Nat
  | .natural value => if value < limit then return value else failure
  | .negated 0 => return 0
  | _ => failure

def bool : Value → Reading Bool
  | .bool value => return value
  | _ => failure

def speeds : Value → Reading (List Cost)
  | .sequence items => items.mapM fun item => return UInt64.ofNat (← natural UInt64.size item)
  | _ => failure

def amount (value : Value) : Reading UInt32 := UInt32.ofNat <$> natural UInt32.size value

def readBridge (fields : List (String × Value)) : Reading PuzzleSpec := do
  return .bridge (← Reading.field fields "speeds" speeds)
    (← Reading.fieldOr fields "capacity" 2 (natural UInt64.size))
    (← Reading.fieldOr fields "fold_symmetry" false bool)

def readJugs (fields : List (String × Value)) : Reading PuzzleSpec := do
  return .jugs ⟨← Reading.field fields "first" amount, ← Reading.field fields "second" amount,
    ← Reading.field fields "target" amount⟩

/-- The puzzle whose kind is told by its name or by its number. Fields of the other kind are not looked
at. -/
def read (fields : List (String × Value)) : Reading PuzzleSpec := do
  match ← Reading.field fields "puzzle" pure with
  | .text "bridge" | .natural 0 => readBridge fields
  | .text "jugs" | .natural 1 => readJugs fields
  | _ => failure

end PuzzleSpec

namespace Scenario

/-- The fields of a scenario that do not belong to its puzzle. -/
def ownFields : List String := ["name", "expected_cost", "unsolvable"]

/-- A scenario. All fields that do not belong to the scenario itself have to be values. They lie inside
of three collections: the document, the list of scenarios and the scenario. -/
def read (node : Yaml.Node Nat) : Reading Scenario := do
  let fields ← Reading.fields node
  let puzzleFields ← (fields.filter fun field => !ownFields.contains field.1).mapM fun field => do
    return (field.1, ← Reading.value (Reading.depthLimit - 3) field.2)
  return {
    name := ← Reading.field fields "name" Reading.text
    puzzle := ← PuzzleSpec.read puzzleFields
    expectedCost := ← Reading.fieldOr fields "expected_cost" none (Reading.optional Reading.word)
    unsolvable := ← Reading.fieldOr fields "unsolvable" false Reading.bool }

/-- A list of scenarios, which has a key of its own. -/
def readAll (node : Yaml.Node Nat) : Reading (List Scenario) := do
  Reading.field (← Reading.fields node) "scenarios" fun node => do
    (← Reading.items node).mapM read

/-- The scenarios that YAML text describes. -/
def allOfText (text : String) : Except InputError (List Scenario) :=
  match (Document.ofText? text).bind (Reading.run readAll) with
  | some scenarios => .ok scenarios
  | none => .error .scenarios

/-- The scenarios of the file at `path`, given what came of reading it. -/
def allOfFile (path : String) : Opened → Except InputError (List Scenario)
  | .missing => .error (.missingFile path)
  | .unreadable => .error (.scenarioFile path)
  | .text content => (allOfText content).mapError fun _ => .scenarioFile path

/-! ### Known scenarios -/

def bridge (name : String) (speeds : List Cost) (cost : Cost) : Scenario where
  name
  puzzle := .bridge speeds 2 false
  expectedCost := some cost

/-- Two containers, and the number of pours it takes, if there is a solution. -/
def jugs (name : String) (first second target : UInt32) (cost : Option Cost) : Scenario where
  name
  puzzle := .jugs ⟨first, second, target⟩
  expectedCost := cost
  unsolvable := cost.isNone

/-- Bridges and containers with known answers. -/
def builtin : List Scenario :=
  [bridge "bridge-two" [3, 8] 8, bridge "bridge-four" [1, 2, 5, 8] 15,
    bridge "bridge-four-slow" [5, 10, 20, 25] 60,
    bridge "bridge-seven" [1, 4, 5, 6, 8, 9, 12] 47,
    jugs "jugs-nine-four" 9 4 6 (some 8), jugs "jugs-empty" 0 0 0 (some 0),
    jugs "jugs-impossible" 2 2 5 none]

end Scenario

end StateSearch
