import StateSearch.Proofs.Notices
import StateSearch.Proofs.Pool.Quiet
import StateSearch.Proofs.Pool.Solitude

/-!
# Sessions with a solver

A solver is used again and again: it searches, it is told to stop, its flag is lowered. A session is any chain
of such uses (`Solver.Session`), and in it a search may end in every way, also by being abandoned half-way or
before it could start. All that the next search has of the past is the configuration, which no session changes. If
no other worker is there, the next search comes to one result only, and this is what it would be without the
session, down to the calls that the problem gets (`Solver.nothing_carried_over`).
-/

namespace StateSearch

open StateSearch.Random Act

variable {ω ω' S M F ρ : Type}

/-! ### The calls of a search -/

inductive Question (S M : Type) where
  | isGoal (s : S)
  | legalMoves (s : S)
  | applyMove (s : S) (m : M)
  | moveCost (s : S) (m : M)
  | alreadySeen (s : S)
  | heuristic (s : S)
  | onProgress (s : S) (tries : Nat)
  | onFinished (path : Option (Path M)) (s : S) (tries : Nat)

namespace Problem

/-- The problem with a list of the calls that it got, the earliest first. -/
def traced (p : Problem ω S M) : Problem (ω × List (Question S M)) S M where
  initial := p.initial
  isGoal s := (p.isGoal s).noting [.isGoal s]
  legalMoves s := (p.legalMoves s).noting [.legalMoves s]
  applyMove s m := (p.applyMove s m).noting [.applyMove s m]
  moveCost s m := (p.moveCost s m).noting [.moveCost s m]
  alreadySeen s := (p.alreadySeen s).noting [.alreadySeen s]
  heuristic s := (p.heuristic s).noting [.heuristic s]
  onProgress s tries := (p.onProgress s tries).noting [.onProgress s tries]
  onFinished path s tries := (p.onFinished path s tries).noting [.onFinished path s tries]
  pace := p.pace

theorem like_traced (p : Problem ω S M) : p.traced.Like Prod.fst true p where
  initial := rfl
  isGoal s := (p.isGoal s).like_noting _
  legalMoves s := (p.legalMoves s).like_noting _
  applyMove s m := (p.applyMove s m).like_noting _
  moveCost s m := (p.moveCost s m).like_noting _
  alreadySeen s := (p.alreadySeen s).like_noting _
  heuristic s := (p.heuristic s).like_noting _
  onProgress s tries := (p.onProgress s tries).like_noting _
  onFinished path s tries := (p.onFinished path s tries).like_noting _
  pace := rfl

theorem NeverStops.traced {p : Problem ω S M} (h : p.NeverStops) : p.traced.NeverStops where
  isGoal s world := h.isGoal s world.1
  legalMoves s world := h.legalMoves s world.1
  applyMove s m world := h.applyMove s m world.1
  moveCost s m world := h.moveCost s m world.1
  alreadySeen s world := h.alreadySeen s world.1
  heuristic s world := h.heuristic s world.1
  onProgress s tries world := h.onProgress s tries world.1
  onFinished path s tries world := h.onFinished path s tries world.1

end Problem

/-! ### One order of the steps -/

variable [DecidableEq S] [Hashable S] [Frontier F (Node S M)] [Coin ρ] {p : Problem ω S M} {p' : Problem ω' S M}
  {claiming : Claiming} {view : ω → ω'} {arena : Arena ω} {actors actors' : List Actor}

namespace PoolSearch

/-- What becomes of a pool that is set up in `arena` and whose actors take their steps in this order, if then
everybody has ended. -/
def upshot? (p : Problem ω S M) (claiming : Claiming) (prepare : Act ω (Pool ω S M F ρ)) (arena : Arena ω)
    (actors : List Actor) : Option (Upshot ω M) :=
  match prepare arena with
  | .error fault after => some (.error fault after)
  | .ok pool middle => (pool.follow p claiming actors).outcome?.map fun goal =>
      (some <$> finish p (pool.follow p claiming actors) goal) middle

variable {prepare : Act ω (Pool ω S M F ρ)} {prepare' : Act ω' (Pool ω' S M F ρ)}
  {outcome outcome' : Upshot ω M}

theorem ends_of_upshot? (h : upshot? p claiming prepare arena actors = some outcome) :
    Ends p claiming prepare arena outcome := by
  unfold upshot? at h
  cases hprepare : prepare arena with
  | error fault after =>
    rw [hprepare] at h
    cases h
    exact .unprepared hprepare
  | ok pool middle =>
    simp only [hprepare, Option.map_eq_some_iff] at h
    obtain ⟨goal, hend, rfl⟩ := h
    exact .finished hprepare actors hend

theorem upshot?_through (h : p.Like view true p')
    (hprepare : Like view true (Pool.through view <$> prepare) prepare') (arena : Arena ω) (actors : List Actor) :
    (upshot? p claiming prepare arena actors).map (through view true) =
      upshot? p' claiming prepare' (arena.through view true) actors := by
  have hset := hprepare arena
  change through view true (EStateM.map _ prepare arena) = _ at hset
  unfold EStateM.map at hset
  unfold upshot?
  rw [← hset]
  cases prepare arena with
  | error fault after => rfl
  | ok pool middle =>
    have hfinish (goal : Option (Node S M)) :=
      Like.map some (finish_like h (pool.follow p claiming actors) goal) middle
    simp only [through, Pool.follow_through h]
    show Option.map _ (Option.map _ (pool.follow p claiming actors).outcome?) =
      Option.map _ (pool.follow p claiming actors).outcome?
    rw [Option.map_map]
    exact congrArg (Option.map · _) (funext hfinish)

theorem unstopped_of_upshot? (hp : p.NeverStops)
    (hprepare : wp prepare (fun pool _ => pool.shared.stopped = false)
      (fun _ after => after.stopped = false) arena)
    (hactors : .outsider ∉ actors) (h : upshot? p claiming prepare arena actors = some outcome) :
    (arenaAfter outcome).stopped = false := by
  unfold upshot? at h
  unfold wp at hprepare
  cases hset : prepare arena with
  | error fault after =>
    rw [hset] at h hprepare
    cases h
    exact hprepare
  | ok pool middle =>
    simp only [hset, Option.map_eq_some_iff] at h hprepare
    obtain ⟨goal, -, rfl⟩ := h
    rw [stopped_finish, hp.onFinished, Bool.or_false, Pool.stopped_follow hp hactors, hprepare]

omit [Frontier F (Node S M)] [Coin ρ] in
theorem finish_congr {pool pool' : Pool ω S M F ρ} (h : pool.shared = pool'.shared) (p : Problem ω S M)
    (goal : Option (Node S M)) : finish p pool goal = finish p pool' goal := by
  unfold finish adopt
  rw [h]

/-- With one worker the order of the steps does not matter, if the flag is down in the end. -/
theorem eq_of_upshot? [LawfulFrontier F (Node S M)]
    (hprepare : ∀ pool middle, prepare arena = .ok pool middle → pool.Solitary)
    (hactors : .outsider ∉ actors) (hactors' : .outsider ∉ actors')
    (h : upshot? p claiming prepare arena actors = some outcome)
    (h' : upshot? p claiming prepare arena actors' = some outcome')
    (hopen : (arenaAfter outcome').stopped = false) : outcome = outcome' := by
  unfold upshot? at h h'
  cases hset : prepare arena with
  | error fault after =>
    rw [hset] at h h'
    exact Option.some.inj (h.symm.trans h')
  | ok pool middle =>
    simp only [hset, Option.map_eq_some_iff] at h h'
    obtain ⟨goal, hend, rfl⟩ := h
    obtain ⟨goal', hend', rfl⟩ := h'
    rw [stopped_finish, Bool.or_eq_false_iff] at hopen
    obtain ⟨hshared, rfl⟩ := (hprepare pool middle hset).eq_of_outcome? hactors hactors' hend hend' hopen.1
    rw [finish_congr hshared]

variable {placement : Placement} {plan : Plan ρ}

omit [Frontier F (Node S M)] in
theorem solitary_of_prepareConcurrent (hone : plan.coins.length = 1) (pool : Pool ω S M (BiasedDeque S M) ρ)
    (middle : Arena ω) (h : prepareConcurrent p placement plan arena = .ok pool middle) : pool.Solitary :=
  (isFresh_of_prepareConcurrent h).1.solitary ((length_of_prepareConcurrent h).trans hone)

theorem solitary_of_prepareAStar (hone : plan.coins.length = 1) (pool : Pool ω S M (OpenList S M) ρ)
    (middle : Arena ω) (h : prepareAStar p plan arena = .ok pool middle) : pool.Solitary := by
  obtain ⟨_, _, -, hfresh, -⟩ := isFresh_of_prepareAStar h
  exact hfresh.solitary ((length_of_prepareAStar h).trans hone)

end PoolSearch

namespace Solver

/-- What a search comes to whose actors take their steps in this order, if it is over then. A search without
workers has no other actors. -/
def upshot? (solver : Solver) (p : Problem ω S M) (actors : List Actor) (arena : Arena ω) :
    Option (Upshot ω M) :=
  match solver.strategy with
  | .concurrent => PoolSearch.upshot? p .whenGenerated
      (PoolSearch.prepareConcurrent p (.ofBias solver.bias) solver.plan) arena actors
  | .concurrentAStar => PoolSearch.upshot? p .whenTaken (PoolSearch.prepareAStar p solver.plan) arena actors
  | _ => some (solver.search p none arena)

def played? (solver : Solver) (p : Problem ω S M) (world : ω) (actors : List Actor) :
    Option (Solver × ω × Ending M) :=
  (solver.upshot? p actors (solver.arena world)).map solver.close

variable {solver used : Solver} {world : ω} {result fresh : Solver × ω × Ending M}

theorem leaves_of_played? (h : solver.played? p world actors = some result) :
    solver.Leaves p (.answer p.initial) world result := by
  obtain ⟨outcome, hupshot, rfl⟩ := Option.map_eq_some_iff.1 h
  refine .of_ends ?_
  unfold upshot? search at hupshot
  cases hstrategy : solver.strategy <;> rw [hstrategy] at hupshot
  case concurrent => exact .concurrent (PoolSearch.ends_of_upshot? hupshot)
  case concurrentAStar => exact .concurrentAStar (PoolSearch.ends_of_upshot? hupshot)
  all_goals cases hupshot
  · exact .depthFirst
  · exact .breadthFirst
  · exact .aStar

theorem upshot?_through (h : p.Like view true p') (solver : Solver) (actors : List Actor) (arena : Arena ω) :
    (solver.upshot? p actors arena).map (through view true) =
      solver.upshot? p' actors (arena.through view true) := by
  have hsearch := search_like h solver none arena
  unfold upshot?
  cases solver.strategy with
  | concurrent => exact PoolSearch.upshot?_through h (PoolSearch.prepareConcurrent_like h _ _) arena actors
  | concurrentAStar => exact PoolSearch.upshot?_through h (PoolSearch.prepareAStar_like h _) arena actors
  | _ => exact congrArg some hsearch

/-- What is left of a result if the calls that the problem got are forgotten. -/
def untraced : Solver × (ω × List (Question S M)) × Ending M → Solver × ω × Ending M
  | (solver, world, ending) => (solver, world.1, ending)

theorem untraced_played? (solver : Solver) (p : Problem ω S M) (world : ω) (actors : List Actor) :
    (solver.played? p.traced (world, []) actors).map untraced = solver.played? p world actors := by
  have hthrough : _ = solver.upshot? p actors (solver.arena world) :=
    upshot?_through p.like_traced solver actors (solver.arena (world, []))
  unfold played?
  rw [← hthrough, Option.map_map, Option.map_map]
  exact congrArg (Option.map · _) (funext fun outcome => (close_through Prod.fst solver outcome).symm)

theorem stopped_close (solver : Solver) (outcome : Upshot ω M) :
    (solver.close outcome).1.stopped = (arenaAfter outcome).stopped := by
  cases outcome <;> rfl

/-- With one worker a search comes to one result only, if in one order of the steps no stop is asked for. -/
theorem eq_of_played? (hone : solver.strategy.isShared = true → solver.workers = 1)
    {actors actors' : List Actor} (hactors : .outsider ∉ actors) (hactors' : .outsider ∉ actors')
    (hquiet : p.NeverStops ∨ fresh.1.stopped = false) (h : solver.played? p world actors = some result)
    (h' : solver.played? p world actors' = some fresh) : result = fresh := by
  obtain ⟨outcome, hupshot, rfl⟩ := Option.map_eq_some_iff.1 h
  obtain ⟨outcome', hupshot', rfl⟩ := Option.map_eq_some_iff.1 h'
  rw [stopped_close] at hquiet
  congr 1
  unfold upshot? at hupshot hupshot'
  have hcoins (hshared : solver.strategy.isShared = true) : solver.plan.coins.length = 1 := by
    simp [plan, PoolSearch.Plan.ofSeed, hone hshared]
  cases hstrategy : solver.strategy <;> simp only [hstrategy] at hupshot hupshot' hcoins
  case concurrent =>
    have hopen : (arenaAfter outcome').stopped = false := hquiet.elim (fun hp =>
      PoolSearch.unstopped_of_upshot? hp (PoolSearch.unstopped_prepareConcurrent hp rfl) hactors' hupshot') id
    exact PoolSearch.eq_of_upshot? (PoolSearch.solitary_of_prepareConcurrent (hcoins rfl)) hactors hactors'
      hupshot hupshot' hopen
  case concurrentAStar =>
    have hopen : (arenaAfter outcome').stopped = false := hquiet.elim (fun hp =>
      PoolSearch.unstopped_of_upshot? hp (PoolSearch.unstopped_prepareAStar hp rfl) hactors' hupshot') id
    exact PoolSearch.eq_of_upshot? (PoolSearch.solitary_of_prepareAStar (hcoins rfl)) hactors hactors'
      hupshot hupshot' hopen
  all_goals exact Option.some.inj (hupshot.symm.trans hupshot')

/-! ### Sessions -/

/-- One use of the solver. A search may end in every way in which it can end, whoever takes part in it. -/
inductive Proceeds : Solver → Solver → Prop
  | stop (solver : Solver) : Proceeds solver solver.stop
  | reset (solver : Solver) : Proceeds solver solver.reset
  | tried {ω S M : Type} [DecidableEq S] [Hashable S] {solver : Solver} {p : Problem ω S M} {first : Call ω S}
      {world : ω} {result : Solver × ω × Ending M} (h : solver.Leaves p first world result) :
    Proceeds solver result.1
  | solved {ω S M : Type} [DecidableEq S] [Hashable S] {solver : Solver} {p : Problem ω S M} {first : Call ω S}
      {world : ω} {result : Solver × ω × Ending M} (h : solver.Leaves p first world result) :
    Proceeds solver (forgive result).1
  /-- A search with another bias that was not abandoned. -/
  | biased {ω S M : Type} [DecidableEq S] [Hashable S] {solver : Solver} {p : Problem ω S M} {first : Call ω S}
      {world : ω} {bias : Float} {result : Solver × ω × Ending M} (hconcurrent : solver.strategy = .concurrent)
      (h : (solver.withBias bias).Leaves p first world result)
      (hreturned : ∀ fault, result.2.2 ≠ .abandoned fault) :
    Proceeds solver (solver.restoreBias (forgive result)).1

abbrev Session : Solver → Solver → Prop := Relation.ReflTransGen Proceeds

theorem Leaves.exists_close {first : Call ω S} (h : solver.Leaves p first world result) :
    ∃ outcome : Upshot ω M, result = solver.close outcome := by
  cases h with
  | unbegun => exact ⟨_, rfl⟩
  | begun => exact ⟨_, rfl⟩

omit [DecidableEq S] [Hashable S] in
theorem exists_keep_of_close (solver : Solver) (outcome : Upshot ω M) :
    ∃ arena : Arena Unit, (solver.close outcome).1 = solver.keep arena := by
  cases outcome with
  | ok _ arena | error _ arena => exact ⟨⟨(), arena.stopped, arena.stats, arena.faults⟩, rfl⟩

omit [DecidableEq S] [Hashable S] in
theorem forgive_fst (result : Solver × ω × Ending M) : (forgive result).1 = result.1 := by
  obtain ⟨after, world, ending⟩ := result
  cases ending <;> rfl

theorem Proceeds.exists_keep (h : Proceeds solver used) : ∃ arena : Arena Unit, used = solver.keep arena := by
  cases h with
  | stop => exact ⟨⟨(), true, solver.stats, solver.faults⟩, rfl⟩
  | reset => exact ⟨⟨(), false, solver.stats, solver.faults⟩, rfl⟩
  | tried h =>
    obtain ⟨outcome, rfl⟩ := h.exists_close
    exact exists_keep_of_close solver outcome
  | solved h =>
    obtain ⟨outcome, rfl⟩ := h.exists_close
    rw [forgive_fst]
    exact exists_keep_of_close solver outcome
  | @biased ω S M _ _ _ p first world bias result _ h hreturned =>
    obtain ⟨outcome, rfl⟩ := h.exists_close
    cases outcome with
    | ok result arena =>
      obtain ⟨ending, hrestore, -⟩ := restoreBias_ok solver bias result arena
      rw [hrestore]
      exact ⟨⟨(), arena.stopped, arena.stats, arena.faults⟩, rfl⟩
    | error fault arena => exact absurd rfl (hreturned fault)

/-- All that a session changes is what the last search left behind. -/
theorem Session.exists_keep (h : Session solver used) : ∃ arena : Arena Unit, used = solver.keep arena := by
  induction h with
  | refl => exact ⟨⟨(), solver.stopped, solver.stats, solver.faults⟩, rfl⟩
  | tail _ hlast ih =>
    obtain ⟨arena, rfl⟩ := ih
    obtain ⟨arena', rfl⟩ := hlast.exists_keep
    exact ⟨arena', rfl⟩

theorem played?_keep (solver : Solver) (arena : Arena Unit) (p : Problem ω S M) (world : ω)
    (actors : List Actor) : (solver.keep arena).played? p world actors = solver.played? p world actors := by
  have hclose : (solver.keep arena).close = (solver.close : Upshot ω M → Solver × ω × Ending M) := by
    funext outcome
    cases outcome <;> rfl
  unfold played?
  rw [hclose]
  rfl

/-- Whatever the solver was used for, its next search is the one that it would have done before, with the same
calls. With one worker, and if no stop is asked for, this does not depend on the order of the steps either: the
path or the error, the counters, the faults and the calls are the same. -/
theorem nothing_carried_over (hsession : Session solver used)
    (hone : solver.strategy.isShared = true → solver.workers = 1) (p : Problem ω S M) (world : ω) :
    (∀ limit, used.trySolve p world limit = solver.trySolve p world limit ∧
      used.solve p world limit = solver.solve p world limit) ∧
    (∀ actors, used.played? p.traced (world, []) actors = solver.played? p.traced (world, []) actors ∧
      (used.played? p.traced (world, []) actors).map untraced = used.played? p world actors) ∧
    ∀ actors actors' result fresh, .outsider ∉ actors → .outsider ∉ actors' →
      p.NeverStops ∨ fresh.1.stopped = false →
      used.played? p.traced (world, []) actors = some result →
      solver.played? p.traced (world, []) actors' = some fresh → result = fresh := by
  obtain ⟨arena, rfl⟩ := hsession.exists_keep
  refine ⟨fun limit => ?_, fun actors => ⟨?_, untraced_played? _ p world actors⟩, ?_⟩
  · have htry := trySolve_keep solver arena p world limit
    exact ⟨htry, congrArg forgive htry⟩
  · exact played?_keep solver arena p.traced (world, []) actors
  · intro actors actors' result fresh hactors hactors' hquiet h h'
    rw [played?_keep] at h
    exact eq_of_played? hone hactors hactors' (hquiet.imp_left Problem.NeverStops.traced) h h'

end Solver

namespace Junction

def lone : Solver := { pair with workers := 1 }

/-- The solver has a search behind it that was abandoned, one with a fault, and a call for a stop. It finds the
way through the middle as if it were new. -/
theorem nothing_carried_over_lone : ∃ used fresh, Solver.Session lone used ∧
    (lone.strategy.isShared = true → lone.workers = 1) ∧ used.stopped = true ∧ used.faults.length = 1 ∧
    used.trySolve detour.toProblem () = lone.trySolve detour.toProblem () ∧
    lone.played? detour.toProblem.traced ((), []) turns = some fresh ∧
      fresh.2.2 = .answered (some ⟨[middle, finish], 6⟩) ∧
    used.played? detour.toProblem.traced ((), []) turns = some fresh ∧
    ∀ actors result, .outsider ∉ actors →
      used.played? detour.toProblem.traced ((), []) actors = some result → result = fresh := by
  have hprepare : PoolSearch.prepareConcurrent barred (.ofBias lone.bias) lone.plan (lone.arena ()) =
      .error .wordless (lone.arena ()) := rfl
  have hbarred : lone.Leaves barred (.answer start) () (lone.trySolve barred ()) :=
    .of_ends (.concurrent (.unprepared hprepare))
  have hwashout : ((lone.trySolve barred ()).1.played? washout.toProblem () turns).map
      (fun result => result.1.faults.length) = some 1 := by decide +kernel
  obtain ⟨faulty, hfaulty, hfaults⟩ := Option.map_eq_some_iff.1 hwashout
  have hdetour : (lone.played? detour.toProblem.traced ((), []) turns).map (fun result =>
      match result.2.2 with
      | .answered path => path
      | _ => none) = some (some ⟨[middle, finish], 6⟩) := by decide +kernel
  obtain ⟨fresh, hfresh, hpath⟩ := Option.map_eq_some_iff.1 hdetour
  have hsession : Solver.Session lone faulty.1.stop :=
    ((Relation.ReflTransGen.single (.tried hbarred)).tail (.tried (Solver.leaves_of_played? hfaulty))).tail
      (.stop _)
  have hone : lone.strategy.isShared = true → lone.workers = 1 := fun _ => rfl
  obtain ⟨htry, hplayed, hsame⟩ := Solver.nothing_carried_over hsession hone detour.toProblem ()
  have hquiet : .outsider ∉ turns := by decide
  refine ⟨_, fresh, hsession, hone, rfl, hfaults, (htry none).1, hfresh, ?_, ?_, ?_⟩
  · split at hpath
    · rw [← hpath]
      assumption
    · cases hpath
  · exact (hplayed turns).1.trans hfresh
  · exact fun actors result hactors h =>
      hsame actors turns result fresh hactors hquiet (.inl detour.neverStops_toProblem) h hfresh

end Junction

end StateSearch
