import StateSearch.Pool.Basic

/-!
# Timetables of a pool

Of all runs of a pool, `drive` makes the one in which calls take as long as the problem's pace says, and
nothing else takes any time. There is one processor, which makes one call at a time; but while a worker
waits for its progress report to be over, the others go on. A step that is a call is taken when the call
is over. Of several steps that are due, the one of the first worker is taken first. The one who waits
for the outcome acts when no worker does anything any more.
-/

namespace StateSearch

open StateSearch.Random

/-- How long the processor is busy before a task takes its next step. -/
def Stage.work {S M : Type} (pace : Pace) : Stage S M → Nat
  | .claim | .test _ | .list _ | .apply .. | .screen .. | .price .. | .estimate .. | .report _ =>
    pace.call
  | _ => 0

/-- How long a task then waits. -/
def Stage.rest {S M : Type} (pace : Pace) : Stage S M → Nat
  | .report _ => pace.report
  | _ => 0

/-- The time of a run, and the times at which the workers' next steps are due. -/
structure Timetable where
  now : Nat := 0
  due : List Nat
  deriving Repr

namespace Timetable

/-- The timetable after worker `index` took a step and is going to do what `phase` says. -/
def advance {S M : Type} (table : Timetable) (pace : Pace) (time index : Nat) (phase : Phase S M) :
    Timetable :=
  match phase with
  | .working _ stage =>
    let now := time + stage.work pace
    ⟨now, table.due.set index (now + stage.rest pace)⟩
  | _ => { table with now := time }

end Timetable

namespace Pool

variable {ω S M F ρ : Type} [DecidableEq S] [Hashable S] [Frontier F (Node S M)] [Coin ρ]

/-- Whether a worker has a step to take, at whatever time. -/
def canAct (worker : Worker S M ρ) (shared : Shared ω S M F) : Bool :=
  match worker.phase with
  | .idle => !shared.queue.isBlocked shared.stopped
  | phase => !Phase.isOver phase

/-- Which of these workers, which are numbered from `index`, acts next, and when. -/
def nextOf (shared : Shared ω S M F) (now index : Nat) :
    List (Worker S M ρ) → List Nat → Option (Nat × Nat)
  | worker :: workers, due :: rest =>
    if !canAct worker shared then nextOf shared now (index + 1) workers rest
    else if due ≤ now then some (index, now)
    else
      match nextOf shared now (index + 1) workers rest with
      | some (other, time) => some (if time < due then (other, time) else (index, due))
      | none => some (index, due)
  | _, _ => none

/-- How often the one who waits looks whether the search was asked to stop, in nanoseconds. -/
def pollInterval : Nat := 5000000

/-- When the one who waits takes its next step. -/
def waitingTime (now : Nat) : Waiting S M → Nat
  | .lookAtStop => (now / pollInterval + 1) * pollInterval
  | _ => now

/-- Who acts next, and when. Nobody does if everybody has ended, or has to wait for somebody else. -/
def next? (pool : Pool ω S M F ρ) (table : Timetable) : Option (Actor × Nat) :=
  match nextOf pool.shared table.now 0 pool.workers table.due with
  | some (index, time) => some (.worker index, time)
  | none =>
    match pool.waiting with
    | .ended _ => none
    | waiting =>
      if pool.workers.all fun worker => Phase.isOver worker.phase then
        some (.waiter, waitingTime table.now waiting)
      else none

/-- The timetable after an actor took a step, which led to `pool`. -/
def reschedule (pace : Pace) (table : Timetable) (actor : Actor) (time : Nat)
    (pool : Pool ω S M F ρ) : Timetable :=
  match actor with
  | .worker index =>
    pool.workers[index]?.elim table fun worker => table.advance pace time index worker.phase
  | _ => { table with now := time }

/-- Let everybody act as the timetable says until nothing is left to do. There is no result if that
takes more than so many steps, or until `limit` if there is one. -/
def drive (p : Problem ω S M) (claiming : Claiming) (limit : Option Nat) :
    Nat → Timetable → Pool ω S M F ρ → Option (Pool ω S M F ρ)
  | 0, _, _ => none
  | steps + 1, table, pool =>
    match pool.next? table with
    | none => some pool
    | some (actor, time) =>
      if limit.any (· ≤ time) then none
      else
        match pool.step p claiming actor with
        | none => none
        | some pool => drive p claiming limit steps (reschedule p.pace table actor time pool) pool

end Pool

end StateSearch
