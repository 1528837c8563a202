import StateSearch.Decimal.Shortest

/-!
# Settings of a search

How many workers there are, where new nodes go, and where random numbers come from. Only searches with
workers look at them. A number of workers that is not set is for the machine to choose.
-/

namespace StateSearch

/-- Settings shared by all searches. -/
structure SearchSettings where
  workers : Option Nat := none
  /-- The probability that a new node goes to the tail of the queue. -/
  breadthBias : Float := 1.0
  seed : UInt64 := 0
  /-- After how many expansions progress is logged. -/
  progressInterval : UInt64 := 10000

/-- Why settings are refused. -/
inductive SettingsError where
  | biasOutOfRange (bias : Float)
  | noWorkers
  | noTime

def SettingsError.message : SettingsError → String
  | biasOutOfRange bias => "Breadth bias must be within [0, 1], got " ++ Decimal.text bias
  | noWorkers => "Worker count must be at least 1"
  | noTime => "Timeout must be positive"

namespace SearchSettings

/-- Whether settings can be used. The bias is looked at first. -/
def validate (settings : SearchSettings) : Except SettingsError Unit :=
  if !(0.0 ≤ settings.breadthBias && settings.breadthBias ≤ 1.0) then
    .error (.biasOutOfRange settings.breadthBias)
  else if settings.workers = some 0 then .error .noWorkers
  else .ok ()

/-- The number of workers, where the machine would choose one. -/
def workerCount (settings : SearchSettings) : Nat := settings.workers.getD 1

end SearchSettings

/-- The nearest probability. What is no number counts as 1. -/
def clampBias (bias : Float) : Float :=
  if bias.isNaN then 1.0
  else if bias < 0.0 then 0.0
  else if bias > 1.0 then 1.0
  else bias

end StateSearch
