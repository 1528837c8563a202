import StateSearch.Solver

/-!
# Deadlines

A search that has to be done within a time limit runs in the background while a timer runs. When the
time is over the stop flag is raised and the search is not waited for.

`solveWithin` makes the run in which time passes only while the problem is called, as its pace says; as
nobody waits for a search that is late, it does not go on with it.
`Race` is about all orders in which the timer and the search can act; the search is any `Background`
task that looks at the stop flag before it goes on.
-/

namespace StateSearch

/-- A world with a clock, which counts nanoseconds. -/
structure Clocked (ω : Type) where
  world : ω
  time : Nat := 0

namespace Problem

variable {ω S M α : Type}

/-- A call that takes some time. It is not answered if `limit` has passed by then. -/
def timedCall (duration limit : Nat) (call : Call ω α) : Call (Clocked ω) α := fun clocked =>
  let time := clocked.time + duration
  if limit ≤ time then ⟨{ clocked with time }, false, .error .wordless⟩
  else
    let reply := call clocked.world
    ⟨⟨reply.world, time⟩, reply.raisesStop, reply.result⟩

/-- The problem whose calls take their time, and are not answered once `limit` has passed. -/
def timed (p : Problem ω S M) (limit : Nat) : Problem (Clocked ω) S M where
  initial := p.initial
  isGoal state := timedCall p.pace.call limit (p.isGoal state)
  legalMoves state := timedCall p.pace.call limit (p.legalMoves state)
  applyMove state move := timedCall p.pace.call limit (p.applyMove state move)
  moveCost state move := timedCall p.pace.call limit (p.moveCost state move)
  alreadySeen state := timedCall p.pace.call limit (p.alreadySeen state)
  heuristic state := timedCall p.pace.call limit (p.heuristic state)
  onProgress state tries :=
    timedCall (p.pace.call + p.pace.report) limit (p.onProgress state tries)
  onFinished path state tries := timedCall 0 limit (p.onFinished path state tries)

end Problem

namespace Solver

variable {ω S M : Type} [DecidableEq S] [Hashable S]

/-- Search for at most `limit` nanoseconds. The flag says whether the time was too short. Workers keep
a timetable of their own; other searches look at the clock of their problem. -/
def solveUntil (solver : Solver) (p : Problem ω S M) (limit : Nat) (world : ω) :
    Bool × Solver × ω × Ending M :=
  if solver.strategy.isShared then
    match solver.solve p world (some limit) with
    | (after, world, .unfinished) => (true, after, world, .unfinished)
    | result => (false, result)
  else
    let (after, clocked, ending) := solver.solve (p.timed limit) ⟨world, 0⟩
    (limit ≤ clocked.time, after, clocked.world, ending)

/-- Search for at most `limit` milliseconds. A search that runs out of time leaves the stop flag
raised. -/
def solveWithin (solver : Solver) (p : Problem ω S M) (limit : Nat) (world : ω) :
    Solver × ω × Ending M :=
  match solver.solveUntil p (1000000 * limit) world with
  | (true, after, world, _) =>
    (after.stop, world, .failed (.deadlineElapsed (.ofMilliseconds limit)))
  | (false, after, world, .abandoned fault) =>
    (after, world, .failed (.threadFailed fault.report))
  | (false, result) => result

end Solver

/-! ### Timers and tasks -/

/-- A task that runs in the background and can be asked to stop. -/
structure Background (σ : Type) where
  /-- Get ready. A search lowers the stop flag here. -/
  begin : σ → σ
  /-- Do the next piece of work, unless there is none left. -/
  advance : σ → Option σ
  isStopped : σ → Bool
  stop : σ → σ

/-- What the one who waits for a task with a time limit is told. -/
inductive Verdict where
  | inTime
  | deadlineElapsed
  deriving DecidableEq, Repr

/-- A background task, a timer, and the one who waits for either of them. -/
structure Race (σ : Type) where
  task : σ
  begun : Bool := false
  ended : Bool := false
  verdict : Option Verdict := none

namespace Race

variable {σ : Type}

/-- What can happen next. -/
inductive Event where
  /-- The task begins. -/
  | begin
  /-- The task does its next piece of work, or ends. -/
  | advance
  /-- The timer goes off. -/
  | expire
  /-- The one who waits is told that the task has ended. -/
  | deliver
  deriving DecidableEq, Repr

/-- The race after an event, if the event can happen. -/
def step (task : Background σ) (race : Race σ) : Event → Option (Race σ)
  | .begin =>
    if race.begun then none else some { race with begun := true, task := task.begin race.task }
  | .advance =>
    if race.begun && !race.ended then
      match task.advance race.task with
      | some next => some { race with task := next }
      | none => some { race with ended := true }
    else none
  | .expire =>
    if race.verdict.isSome then none
    else some { race with task := task.stop race.task, verdict := some .deadlineElapsed }
  | .deliver =>
    if race.ended && race.verdict.isNone then some { race with verdict := some .inTime } else none

/-- The race after several events, if they can happen in this order. -/
def run (task : Background σ) (race : Race σ) (events : List Event) : Option (Race σ) :=
  events.foldlM (step task) race

end Race

/-! ### Searches as tasks -/

namespace Exhaustive

variable {ω S M : Type} [DecidableEq S] [Hashable S]

/-- An exhaustive search that is under way. -/
structure Running (ω S M : Type) [DecidableEq S] [Hashable S] where
  seen : Std.HashSet S := ∅
  waiting : Deque (Node S M) := .empty
  arena : Arena ω

/-- An exhaustive search as a task whose pieces of work are its turns. It begins with the node of the
initial state in its queue. -/
def background (d : Discipline) (p : Problem ω S M) : Background (Running ω S M) where
  begin state :=
    let arena := { state.arena with stopped := false, stats := { workers := 1 } }
    match Act.inquire p p.initial (∅ : Std.HashSet S) arena with
    | .ok (_, seen) arena => { seen, waiting := Deque.empty.pushBack (.root p.initial 0), arena }
    | .error _ arena => { arena }
  advance state :=
    match turn d p state.seen state.waiting state.arena with
    | .ok (.onward seen waiting) arena => some { seen, waiting, arena }
    | _ => none
  isStopped state := state.arena.stopped
  stop state := { state with arena := { state.arena with stopped := true } }

end Exhaustive

namespace BestFirst

variable {ω S M : Type} [DecidableEq S] [Hashable S]

/-- A best-first search that is under way. -/
structure Running (ω S M : Type) [DecidableEq S] [Hashable S] where
  closed : Std.HashMap S Cost := ∅
  waiting : OpenList S M := .empty
  arena : Arena ω

/-- A best-first search as a task whose pieces of work are its turns. It begins with the node of the
initial state in its open list. -/
def background (p : Problem ω S M) : Background (Running ω S M) where
  begin state :=
    let arena := { state.arena with stopped := false, stats := { workers := 1 } }
    match Act.ask (p.heuristic p.initial) arena with
    | .ok remaining arena =>
      { waiting := OpenList.empty.push (.root p.initial remaining), arena }
    | .error _ arena => { arena }
  advance state :=
    match turn p state.closed state.waiting state.arena with
    | .ok (.onward closed waiting) arena => some { closed, waiting, arena }
    | _ => none
  isStopped state := state.arena.stopped
  stop state := { state with arena := { state.arena with stopped := true } }

end BestFirst

namespace PoolSearch

open StateSearch.Random

variable {ω S M F ρ : Type} [DecidableEq S] [Hashable S] [Frontier F (Node S M)] [Coin ρ]

/-- A search with workers that is under way. -/
structure Running (ω S M F ρ : Type) [DecidableEq S] [Hashable S] where
  arena : Arena ω
  /-- The pool, once the search has set it up. -/
  pool : Option (Pool ω S M F ρ) := none
  /-- Who has the next turn, and the turns after it. -/
  schedule : Nat → Actor

/-- A search with workers as a task whose pieces of work are the turns of the actors, in the order of the
schedule. An actor who has nothing to do is passed over. -/
def background (p : Problem ω S M) (claiming : Claiming) (workers : Nat)
    (prepare : Act ω (Pool ω S M F ρ)) : Background (Running ω S M F ρ) where
  begin state :=
    match prepare { world := state.arena.world, stats := { workers } } with
    | .ok pool arena => { state with arena, pool := some pool }
    | .error _ arena => { state with arena, pool := none }
  advance state :=
    match state.pool with
    | none => none
    | some pool =>
      if pool.outcome?.isSome then none
      else some { state with
        pool := some ((pool.step p claiming (state.schedule 0)).getD pool)
        schedule := fun k => state.schedule (k + 1) }
  isStopped state := (state.pool.map fun pool => pool.shared.stopped).getD state.arena.stopped
  stop state := { state with
    arena := { state.arena with stopped := true }
    pool := state.pool.map fun pool => { pool with shared := { pool.shared with stopped := true } } }

end PoolSearch

end StateSearch
