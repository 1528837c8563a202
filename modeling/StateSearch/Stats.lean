import StateSearch.Cost
import StateSearch.Fault

/-!
# Statistics

What a search counts while it runs. The counters of a search without workers are 64-bit words
(`Stats.increment`): counting past the largest word is a fault and never wraps around. A pool counts
in numbers without bound (`Shared`), and its counters are read into the same record at its end.
-/

namespace StateSearch

/-- The counters of one search, the cost of its path and the number of its workers. The record itself
bounds no counter: `increment` does, for the searches that count with it. -/
structure Stats where
  /-- States whose moves were looked at. -/
  expanded : Nat := 0
  /-- States that were made by applying a move. -/
  generated : Nat := 0
  /-- States that were dropped because they had been met before. -/
  duplicates : Nat := 0
  cost : Option Cost := none
  workers : Nat := 0
  deriving DecidableEq, Repr

namespace Stats

/-- The number of values of a counter. -/
def counterLimit : Nat := UInt64.size

/-- Count one more, if there is room. -/
def increment (count : Nat) : Except Fault Nat :=
  if count + 1 < counterLimit then .ok (count + 1) else .error .sumOutOfRange

theorem increment_eq_ok {count next : Nat} (h : increment count = .ok next) :
    next = count + 1 ∧ count + 1 < counterLimit := by
  unfold increment at h
  split at h
  · simp_all
  · simp at h

/-- How often a counter can still be incremented. -/
def room (count : Nat) : Nat := counterLimit - count

end Stats

end StateSearch
