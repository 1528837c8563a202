import StateSearch.Pool.Timetable
import StateSearch.Search.Arena

/-!
# Searching with a pool

The two searches with workers. `concurrent` claims states when they are generated and keeps its nodes
in a queue; `concurrentAStar` claims states when they are taken and keeps its nodes in an open list.
Each of them sets up a pool (`prepare`), lets it run, and reads off the result (`finish`). Which run
is made is of no concern to the setting up and the reading off.
-/

namespace StateSearch.PoolSearch

open Act StateSearch.Random

variable {ω S M F ρ : Type} [DecidableEq S] [Hashable S] [Frontier F (Node S M)] [Coin ρ]

/-- What the pool and the search that set it up need to know. -/
structure Plan (ρ : Type) where
  /-- The coin for the first node. -/
  first : ρ
  /-- The coins of the workers. -/
  coins : List ρ

/-- The coins for so many workers. The first worker's generator and the one for the first node have
the same seed. -/
def Plan.ofSeed (workers : Nat) (seed : UInt64) : Plan Generator where
  first := .ofSeed seed
  coins := (List.range workers).map fun index => .ofSeed (seed + UInt64.ofNat index)

/-- A pool with a first node in its queue. -/
def seeded (plan : Plan ρ) (frontier : F) (root : Node S M) (seen : Std.HashSet S) :
    Act ω (Pool ω S M F ρ) := fun arena =>
  let (queue, _) := WorkQueue.seed { frontier } root plan.first
  .ok (Pool.start { world := arena.world, stopped := arena.stopped, queue, seen } plan.coins) arena

/-- Set up the pool of a search that claims states when they are generated. -/
def prepareConcurrent (p : Problem ω S M) (placement : Placement) (plan : Plan ρ) :
    Act ω (Pool ω S M (BiasedDeque S M) ρ) := do
  let (_, seen) ← inquire p p.initial (∅ : Std.HashSet S)
  seeded plan { placement } (.root p.initial 0) seen

/-- Set up the pool of a search that claims states when they are taken. -/
def prepareAStar (p : Problem ω S M) (plan : Plan ρ) :
    Act ω (Pool ω S M (OpenList S M) ρ) := do
  let remaining ← ask (p.heuristic p.initial)
  seeded plan .empty (.root p.initial remaining) ∅

/-- Take over what the pool did to the arena. -/
def adopt (pool : Pool ω S M F ρ) : Act ω Unit :=
  modify fun arena => {
    world := pool.shared.world
    stopped := pool.shared.stopped
    stats := { arena.stats with
      expanded := pool.shared.expanded
      generated := pool.shared.generated
      duplicates := pool.shared.duplicates }
    faults := pool.shared.faults.reverse }

/-- Read off the result of a pool that found `goal`. -/
def finish (p : Problem ω S M) (pool : Pool ω S M F ρ) (goal : Option (Node S M)) :
    Act ω (Option (Path M)) := do
  adopt pool
  conclude p goal

/-- How many steps a run may take. Nobody lives to see the end of it. -/
def stepLimit : Nat := UInt64.size / 4

/-- Let a pool run to its end and read off its result. There is no result if it does not end, or not
before `limit`. -/
def run (p : Problem ω S M) (claiming : Claiming) (limit : Option Nat) (pool : Pool ω S M F ρ) :
    Act ω (Option (Option (Path M))) :=
  match pool.drive p claiming limit stepLimit ⟨0, pool.workers.map fun _ => 0⟩ with
  | none => return none
  | some pool =>
    match pool.outcome? with
    | none => return none
    | some goal => some <$> finish p pool goal

/-- Search with workers that claim states when they are generated, for `limit` nanoseconds at most. -/
def concurrent (p : Problem ω S M) (placement : Placement) (plan : Plan ρ) (limit : Option Nat) :
    Act ω (Option (Option (Path M))) := do
  run p .whenGenerated limit (← prepareConcurrent p placement plan)

/-- Search with workers that claim states when they are taken, for `limit` nanoseconds at most. -/
def concurrentAStar (p : Problem ω S M) (plan : Plan ρ) (limit : Option Nat) :
    Act ω (Option (Option (Path M))) := do
  run p .whenTaken limit (← prepareAStar p plan)

end StateSearch.PoolSearch
