import Std.Data.HashSet
import StateSearch.Problem

/-!
# Watching a problem

A watched problem answers as another one does, and keeps a log of what it is told. On request it
fails, or asks the search to stop, when it is called about certain states; and its calls can take their
time.
-/

namespace StateSearch

/-- The calls that can be made to fail or to stop the search. -/
inductive Hook where
  | isGoal
  | legalMoves
  | applyMove
  | moveCost
  | alreadySeen
  | heuristic
  | onProgress
  deriving DecidableEq, Repr

namespace Hook

def all : List Hook :=
  [isGoal, legalMoves, applyMove, moveCost, alreadySeen, heuristic, onProgress]

def name : Hook → String
  | isGoal => "is_goal"
  | legalMoves => "legal_moves"
  | applyMove => "apply_move"
  | moveCost => "move_cost"
  | alreadySeen => "already_seen"
  | heuristic => "heuristic"
  | onProgress => "on_progress"

end Hook

/-- What a call that is made to fail leaves behind. -/
inductive Payload where
  /-- A text that tells the call and the state. -/
  | telling
  /-- The same text for all calls. -/
  | fixed
  | wordless
  deriving DecidableEq, Repr

/-- What was told at the end of a search. -/
structure Finished (S : Type) where
  state : S
  length : Option Nat
  cost : Option Cost
  tries : Nat

/-- What a watched problem was told. -/
structure WatchLog (S : Type) where
  /-- The progress reports, the latest first. -/
  progress : List (S × Nat) := []
  /-- What was told at the end of searches, the latest first. -/
  finished : List (Finished S) := []

/-- The number of different states in progress reports. -/
def WatchLog.distinct {S : Type} [DecidableEq S] [Hashable S] (log : WatchLog S) : Nat :=
  (Std.HashSet.ofList (log.progress.map Prod.fst)).size

/-- What is asked of a watched problem. -/
structure Watch (S : Type) where
  /-- The states about which a call fails. -/
  failsAt : Hook → List S := fun _ => []
  payload : Payload := .telling
  /-- The states about which a call asks the search to stop. -/
  stopsAt : Hook → List S := fun _ => []
  /-- The progress report at which the search is asked to stop. -/
  stopsAfter : Option Nat := none
  /-- How long calls take. -/
  pace : Pace := {}
  /-- How a state is written in the text of a fault. -/
  render : S → String

namespace Watch

variable {S M α : Type} [DecidableEq S]

def fault (watch : Watch S) (hook : Hook) (state : S) : Fault :=
  match watch.payload with
  | .telling => .raised (hook.name ++ " failed at " ++ watch.render state)
  | .fixed => .raised "static fault"
  | .wordless => .wordless

/-- What a watched problem does at the start of a call: it asks for a stop, and then fails. -/
def enter (watch : Watch S) (hook : Hook) (state : S) : Call (WatchLog S) Unit := fun log => {
  world := log
  raisesStop := (watch.stopsAt hook).contains state
  result := if (watch.failsAt hook).contains state then .error (watch.fault hook state) else .ok () }

/-- Pass a call on to the problem that is watched. -/
def pass (call : Call Unit α) : Call (WatchLog S) α := fun log =>
  let reply := call ()
  ⟨log, reply.raisesStop, reply.result⟩

/-- Note a progress report. -/
def note (watch : Watch S) (state : S) (tries : Nat) : Call (WatchLog S) Unit := fun log => {
  world := { log with progress := (state, tries) :: log.progress }
  raisesStop := watch.stopsAfter == some tries
  result := .ok () }

/-- The problem `p` under watch. -/
def problem (watch : Watch S) (p : Problem Unit S M) : Problem (WatchLog S) S M where
  initial := p.initial
  isGoal state := do watch.enter .isGoal state; pass (p.isGoal state)
  legalMoves state := do watch.enter .legalMoves state; pass (p.legalMoves state)
  applyMove state move := do watch.enter .applyMove state; pass (p.applyMove state move)
  moveCost state move := do watch.enter .moveCost state; pass (p.moveCost state move)
  alreadySeen state := do watch.enter .alreadySeen state; pass (p.alreadySeen state)
  heuristic state := do watch.enter .heuristic state; pass (p.heuristic state)
  onProgress state tries := do
    watch.note state tries
    watch.enter .onProgress state
    pass (p.onProgress state tries)
  onFinished path state tries := fun log => {
    world := { log with
      finished := ⟨state, path.map Path.length, path.map Path.cost, tries⟩ :: log.finished }
    raisesStop := false
    result := .ok () }
  pace := watch.pace

end Watch

end StateSearch
