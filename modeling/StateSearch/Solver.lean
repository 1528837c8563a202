import StateSearch.Pool.Search
import StateSearch.Search.BestFirst
import StateSearch.Search.Exhaustive
import StateSearch.SearchError
import StateSearch.Settings.Search
import StateSearch.Settings.Strategy

/-!
# Solvers

A solver searches one problem after the other. Between two searches it keeps its configuration, and
the stop flag, the counters and the faults that the last search left behind. Every search starts by
lowering the flag and clearing the rest.
-/

namespace StateSearch

/-- How a search ended. -/
inductive Ending (M : Type) where
  /-- With a path, or with the answer that there is none, or because it was stopped. -/
  | answered (path : Option (Path M))
  | failed (error : SearchError)
  /-- A call failed outside the care of any worker, and the search was abandoned. -/
  | abandoned (fault : Fault)
  /-- The search was given up because it took too long. -/
  | unfinished
  deriving Repr

/-- Something that searches, with what its last search left behind. -/
structure Solver where
  strategy : Strategy
  /-- The number of workers. Searches without workers count as having one. -/
  workers : Nat
  bias : Float
  seed : UInt64
  stopped : Bool := false
  stats : Stats := {}
  faults : List WorkerFault := []

namespace Solver

variable {ω S M : Type} [DecidableEq S] [Hashable S]

/-- A solver that has not searched yet. There is at least one worker. -/
def new (strategy : Strategy) (settings : SearchSettings) : Solver where
  strategy
  workers := max settings.workerCount 1
  bias := clampBias settings.breadthBias
  seed := settings.seed

/-- The solver with another number of workers, but at least one. -/
def withWorkers (solver : Solver) (count : Nat) : Solver :=
  { solver with workers := max count 1 }

def withBias (solver : Solver) (bias : Float) : Solver :=
  { solver with bias := clampBias bias }

/-- Raise the stop flag. -/
def stop (solver : Solver) : Solver := { solver with stopped := true }

/-- Lower the stop flag. -/
def reset (solver : Solver) : Solver := { solver with stopped := false }

/-- The order in which an exhaustive search takes its nodes. -/
def discipline? (solver : Solver) : Option Discipline :=
  match solver.strategy with
  | .depthFirst => some .depthFirst
  | .breadthFirst => some .breadthFirst
  | _ => none

/-- The coins of the solver's workers. -/
def plan (solver : Solver) : PoolSearch.Plan Random.Generator :=
  .ofSeed solver.workers solver.seed

/-- What the solver does in its arena. There is no result if workers search longer than `limit`
nanoseconds. -/
def search (solver : Solver) (p : Problem ω S M) (limit : Option Nat) :
    Act ω (Option (Option (Path M))) :=
  match solver.strategy with
  | .depthFirst => some <$> Exhaustive.solve .depthFirst p
  | .breadthFirst => some <$> Exhaustive.solve .breadthFirst p
  | .aStar => some <$> BestFirst.solve p
  | .concurrent => PoolSearch.concurrent p (.ofBias solver.bias) solver.plan limit
  | .concurrentAStar => PoolSearch.concurrentAStar p solver.plan limit

/-- How many workers the statistics of the solver's searches show. -/
def shownWorkers (solver : Solver) : Nat :=
  if solver.strategy.isShared then solver.workers else 1

/-- The arena in which the next search starts. -/
def arena (solver : Solver) (world : ω) : Arena ω where
  world
  stats := { workers := solver.shownWorkers }

/-- The solver after a search that ended in this arena. -/
def keep (solver : Solver) (arena : Arena ω) : Solver :=
  { solver with stopped := arena.stopped, stats := arena.stats, faults := arena.faults }

/-- How a search with this result ended. Without a path, the faults of workers are an error. -/
def endingOf (faults : List WorkerFault) : Option (Option (Path M)) → Ending M
  | none => .unfinished
  | some (some path) => .answered (some path)
  | some none => if faults.isEmpty then .answered none else .failed (.workerFaults faults)

/-- The solver afterwards, the world, and how the search ended, if it came to this. -/
def close (solver : Solver) :
    EStateM.Result Fault (Arena ω) (Option (Option (Path M))) → Solver × ω × Ending M
  | .ok result arena => (solver.keep arena, arena.world, endingOf arena.faults result)
  | .error fault arena => (solver.keep arena, arena.world, .abandoned fault)

/-- Search. The result is the solver afterwards, the world, and how the search ended. Workers give up
after `limit` nanoseconds, if there is a limit. -/
def trySolve (solver : Solver) (p : Problem ω S M) (world : ω) (limit : Option Nat := none) :
    Solver × ω × Ending M :=
  solver.close (solver.search p limit (solver.arena world))

/-- Take faults of workers for the answer that there is no path. -/
def forgive : Solver × ω × Ending M → Solver × ω × Ending M
  | (solver, world, .failed _) => (solver, world, .answered none)
  | result => result

/-- Search, and take faults of workers for the answer that there is no path. -/
def solve (solver : Solver) (p : Problem ω S M) (world : ω) (limit : Option Nat := none) :
    Solver × ω × Ending M :=
  forgive (solver.trySolve p world limit)

/-- Put back the bias after a search. A search that is abandoned leaves the bias it had in place. -/
def restoreBias (solver : Solver) : Solver × ω × Ending M → Solver × ω × Ending M
  | (after, world, .abandoned fault) => (after, world, .abandoned fault)
  | (after, world, ending) => ({ after with bias := solver.bias }, world, ending)

/-- Search once with another bias. -/
def solveWithBias (solver : Solver) (p : Problem ω S M) (bias : Float) (world : ω) :
    Solver × ω × Ending M :=
  solver.restoreBias ((solver.withBias bias).solve p world)

end Solver

end StateSearch
