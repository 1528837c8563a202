import StateSearch.Pool.Search
import StateSearch.Proofs.Act
import StateSearch.Proofs.Pool.Steps

/-!
# How runs of a pool begin and end

Both searches with workers begin with a fresh pool, whose queue holds one node and whose workers have
done nothing yet (`isFresh_of_prepareConcurrent`, `isFresh_of_prepareAStar`). A run has ended when
everybody has. The result is read off what the one who waited was told (`path_of_finish`). The run that a
timetable makes is one of the runs in which the actors take their steps in any order
(`exists_follow_of_drive`).
-/

namespace StateSearch

open StateSearch.Random LawfulFrontier

variable {ω S M F ρ : Type} [DecidableEq S] [Hashable S] {p : Problem ω S M} {claiming : Claiming}
  {goal : Option (Node S M)}

namespace Pool

variable {pool : Pool ω S M F ρ} {root : Node S M}

theorem ended_of_outcome? (h : pool.outcome? = some goal) :
    pool.waiting = .ended goal ∧ ∀ w ∈ pool.workers, Phase.isOver w.phase = true := by
  unfold outcome? at h
  split at h
  · rename_i hw
    split at h
    · rename_i hall
      cases h
      exact ⟨hw, List.all_eq_true.1 hall⟩
    · cases h
  · cases h

variable [Frontier F (Node S M)]

/-- Nobody has done anything yet, and only `root` waits. -/
structure IsFresh [LawfulFrontier F (Node S M)] (root : Node S M) (pool : Pool ω S M F ρ) : Prop where
  sound : Sound pool.shared.queue.frontier
  nodes : nodes pool.shared.queue.frontier = [root]
  inFlight : pool.shared.queue.inFlight = 0
  outstanding : pool.shared.queue.outstanding = 1
  layer : pool.shared.queue.layer = none
  closed : pool.shared.queue.closed = false
  slot : pool.shared.slot = {}
  faults : pool.shared.faults = []
  idle : ∀ w ∈ pool.workers, w.phase = .idle
  waiting : pool.waiting = .poll

theorem isFresh_start [LawfulFrontier F (Node S M)] [Coin ρ] {frontier : F} (hs : Sound frontier)
    (he : LawfulFrontier.nodes frontier = []) (world : ω) (stopped : Bool) (seen : Std.HashSet S)
    (coin : ρ) (coins : List ρ) :
    (Pool.start { world, stopped, queue := (WorkQueue.seed { frontier } root coin).1, seen }
      coins).IsFresh root := by
  have hs' : Sound ({ frontier } : WorkQueue F).frontier := hs
  have hperm := WorkQueue.nodes_seed hs' root coin
  rw [he] at hperm
  refine ⟨WorkQueue.sound_seed hs' root coin, List.perm_singleton.1 hperm, rfl, rfl, rfl,
    rfl, rfl, rfl, fun w hw => ?_, rfl⟩
  obtain ⟨_, _, rfl⟩ := List.mem_map.1 hw
  rfl

theorem exists_follow_of_drive [Coin ρ] {limit : Option Nat} {steps : Nat} {table : Timetable}
    {final : Pool ω S M F ρ} (h : pool.drive p claiming limit steps table = some final) :
    ∃ actors, pool.follow p claiming actors = final := by
  induction steps generalizing table pool with
  | zero => cases h
  | succ steps ih =>
    rw [drive] at h
    split at h
    · cases h
      exact ⟨[], rfl⟩
    · rename_i actor time _
      split at h
      · cases h
      · split at h
        · cases h
        · rename_i next hs
          obtain ⟨actors, rfl⟩ := ih h
          refine ⟨actor :: actors, ?_⟩
          show ((pool.step p claiming actor).getD pool).follow p claiming actors = _
          rw [hs]
          rfl

end Pool

namespace PoolSearch

open Act

variable {plan : Plan ρ} {arena middle after : Arena ω}

/-- The result of a pool is the path to the goal that it found. -/
theorem path_of_finish {pool : Pool ω S M F ρ} {path : Option (Path M)}
    (h : finish p pool goal arena = .ok path after) : path = goal.map Node.toPath := by
  obtain ⟨_, _, -, h⟩ := of_bind_eq_ok h
  obtain ⟨_, _, -, h⟩ := of_bind_eq_ok h
  obtain ⟨_, _, -, h⟩ := of_bind_eq_ok h
  obtain ⟨_, _, -, h⟩ := of_bind_eq_ok h
  cases h
  rfl

theorem exists_finish (p : PureProblem S M) (pool : Pool ω S M F ρ) (goal : Option (Node S M))
    (arena : Arena ω) :
    ∃ after, finish p.toProblem pool goal arena = .ok (goal.map Node.toPath) after :=
  ⟨_, rfl⟩

variable [Coin ρ]

theorem isFresh_of_prepareConcurrent {placement : Placement}
    {pool : Pool ω S M (BiasedDeque S M) ρ}
    (h : prepareConcurrent p placement plan arena = .ok pool middle) :
    pool.IsFresh (.root p.initial 0) ∧ ∃ query world known,
      (p.alreadySeen p.initial world).result = .ok query ∧
      query.run (∅ : Std.HashSet S) = (.ok known, pool.shared.seen) := by
  obtain ⟨⟨known, seen⟩, between, hi, h⟩ := of_bind_eq_ok h
  obtain ⟨query, hanswer, hrun⟩ := inquire_eq_ok hi
  cases h
  exact ⟨Pool.isFresh_start trivial rfl _ _ _ plan.first _, query, arena.world, known, hanswer, hrun⟩

theorem isFresh_of_prepareAStar {pool : Pool ω S M (OpenList S M) ρ}
    (h : prepareAStar p plan arena = .ok pool middle) :
    ∃ remaining world, (p.heuristic p.initial world).result = .ok remaining ∧
      pool.IsFresh (.root p.initial remaining) ∧ pool.shared.seen = ∅ := by
  obtain ⟨remaining, between, hq, h⟩ := of_bind_eq_ok h
  cases h
  exact ⟨remaining, arena.world, ask_eq_ok hq,
    Pool.isFresh_start OpenList.Sound.empty rfl _ _ _ plan.first _, rfl⟩

theorem length_of_prepareConcurrent {placement : Placement} {pool : Pool ω S M (BiasedDeque S M) ρ}
    (h : prepareConcurrent p placement plan arena = .ok pool middle) :
    pool.workers.length = plan.coins.length := by
  obtain ⟨_, _, -, h⟩ := of_bind_eq_ok h
  cases h
  exact List.length_map _

theorem length_of_prepareAStar {pool : Pool ω S M (OpenList S M) ρ}
    (h : prepareAStar p plan arena = .ok pool middle) : pool.workers.length = plan.coins.length := by
  obtain ⟨_, _, -, h⟩ := of_bind_eq_ok h
  cases h
  exact List.length_map _

/-- The path that a search with workers returns leads to the goal that some run of its pool found. -/
theorem exists_outcome_of_run [Frontier F (Node S M)] {limit : Option Nat} {pool : Pool ω S M F ρ}
    {result : Option (Path M)} (h : run p claiming limit pool arena = .ok (some result) after) :
    ∃ actors goal, (pool.follow p claiming actors).outcome? = some goal ∧
      finish p (pool.follow p claiming actors) goal arena = .ok result after := by
  unfold run at h
  cases hd : pool.drive p claiming limit stepLimit ⟨0, pool.workers.map fun _ => 0⟩ with
  | none => rw [hd] at h; cases h
  | some final =>
    obtain ⟨actors, rfl⟩ := Pool.exists_follow_of_drive hd
    cases ho : (pool.follow p claiming actors).outcome? with
    | none => simp only [hd, ho] at h; cases h
    | some goal =>
      simp only [hd, ho] at h
      change (finish p _ goal >>= fun path => pure (some path)) arena = _ at h
      obtain ⟨path, between, hf, h⟩ := of_bind_eq_ok h
      cases h
      exact ⟨actors, goal, ho, hf⟩

end PoolSearch

/-! ### An example -/

namespace Junction

/-- The coin of somebody who does not toss one. -/
instance : Coin Unit := ⟨fun _ coin => (true, coin)⟩

/-- The shared state of workers who begin at the start, with this frontier and these states seen. -/
def shared {F : Type} [Frontier F (Node Junction Junction)] (frontier : F) (estimate : Cost)
    (seen : Std.HashSet Junction) : Shared Unit Junction Junction F where
  world := ()
  queue := (WorkQueue.seed { frontier } (.root start estimate) ()).1
  seen

/-- Two workers who expand the junctions level by level. -/
def levels : Pool Unit Junction Junction (BiasedDeque Junction Junction) Unit :=
  Pool.start (shared { placement := .tail } 0 (SeenSet.insert (∅ : Std.HashSet Junction) start).2)
    [(), ()]

/-- Two workers take turns for long enough, and then somebody looks what they found. -/
def turns : List Actor :=
  (List.replicate 120 [Actor.worker 0, .worker 1]).flatten ++ [.waiter, .waiter]

end Junction

end StateSearch
