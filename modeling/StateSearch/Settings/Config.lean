import StateSearch.InputError
import StateSearch.Settings.Search
import StateSearch.Settings.Strategy
import StateSearch.Yaml.Reading

/-!
# Configurations

What a run of the program is told: where the scenarios are, how to search, how long a search may take
and how to report. A configuration is read from YAML text, in which everything may be left out.
-/

namespace StateSearch

open Yaml

structure Config where
  /-- The file that holds the scenarios. -/
  scenarioPath : Option String := none
  strategy : Strategy := .aStar
  search : SearchSettings := {}
  /-- How long a search may take, in milliseconds. -/
  timeout : Option UInt64 := none
  /-- Whether reports are printed as JSON. -/
  json : Bool := false

/-- A number of 64 bits. -/
def Yaml.Reading.word (node : Yaml.Node Nat) : Reading UInt64 :=
  UInt64.ofNat <$> Reading.natural UInt64.size node

def Strategy.read (node : Yaml.Node Nat) : Reading Strategy := do
  Reading.ofOption (Strategy.ofName? (← Reading.name node))

def SearchSettings.read (node : Yaml.Node Nat) : Reading SearchSettings := do
  let base : SearchSettings := {}
  let fields ← Reading.fields node
  return {
    workers := ← Reading.fieldOr fields "workers" base.workers
      (Reading.optional (Reading.natural UInt64.size))
    breadthBias := ← Reading.fieldOr fields "breadth_bias" base.breadthBias Reading.float
    seed := ← Reading.fieldOr fields "seed" base.seed Reading.word
    progressInterval := ←
      Reading.fieldOr fields "progress_log_interval" base.progressInterval Reading.word }

namespace Config

def read (node : Yaml.Node Nat) : Reading Config := do
  let base : Config := {}
  let fields ← Reading.fields node
  return {
    scenarioPath := ← Reading.fieldOr fields "scenario_path" base.scenarioPath
      (Reading.optional Reading.text)
    strategy := ← Reading.fieldOr fields "strategy" base.strategy Strategy.read
    search := ← Reading.fieldOr fields "search" base.search SearchSettings.read
    timeout := ← Reading.fieldOr fields "timeout_ms" base.timeout (Reading.optional Reading.word)
    json := ← Reading.fieldOr fields "json" base.json Reading.bool }

/-- The configuration that YAML text describes. -/
def ofText (text : String) : Except InputError Config :=
  match (Document.ofText? text).bind (Reading.run read) with
  | some config => .ok config
  | none => .error .config

/-- Whether a configuration can be used. The settings of the search are looked at first. -/
def validate (config : Config) : Except SettingsError Unit := do
  config.search.validate
  if config.timeout = some 0 then throw .noTime

end Config

end StateSearch
