import StateSearch.Proofs.Pool.Failures

/-!
# All the ways in which a search can end

`Ends p arena strategy outcome` lists what a search of `p` can come to that starts in `arena`: a result, or a
fault in the care of no worker. For the searches with workers these are all orders in which the actors can
take their steps. The search of a solver is one of them, unless it is given up (`Solver.ends_or_unfinished`).
A problem may also have to be called for its initial state before the search can start (`Solver.Leaves`).

A solver that searches once with another bias puts its own bias back when the search is over, however it
ended, but not when it was abandoned, because the call for the initial state failed, or the question about it, or
the last report (`bias_after_solveWithBias`). From then on the solver goes by the other bias.
-/

namespace StateSearch

open StateSearch.Random Act

variable {ω S M : Type} [DecidableEq S] [Hashable S]

/-- What a search comes to. -/
abbrev Upshot (ω M : Type) : Type := EStateM.Result Fault (Arena ω) (Option (Option (Path M)))

namespace PoolSearch

variable {F ρ : Type} [Frontier F (Node S M)] [Coin ρ]

/-- What becomes of a pool that is set up in `arena` and run by any actors. -/
inductive Ends (p : Problem ω S M) (claiming : Claiming) (prepare : Act ω (Pool ω S M F ρ))
    (arena : Arena ω) : Upshot ω M → Prop
  | unprepared {fault : Fault} {after : Arena ω} (h : prepare arena = .error fault after) :
    Ends p claiming prepare arena (.error fault after)
  | finished {pool : Pool ω S M F ρ} {middle : Arena ω} {goal : Option (Node S M)}
      (hprepare : prepare arena = .ok pool middle) (actors : List Actor)
      (hend : (pool.follow p claiming actors).outcome? = some goal) :
    Ends p claiming prepare arena ((some <$> finish p (pool.follow p claiming actors) goal) middle)

variable {p : Problem ω S M} {claiming : Claiming} {prepare : Act ω (Pool ω S M F ρ)} {arena : Arena ω}

/-- A pool that keeps to its timetable ends in one of these ways, or it is given up. -/
theorem ends_or_unfinished (p : Problem ω S M) (claiming : Claiming) (limit : Option Nat)
    (prepare : Act ω (Pool ω S M F ρ)) (arena : Arena ω) :
    Ends p claiming prepare arena ((prepare >>= run p claiming limit) arena) ∨
      ∃ pool middle, prepare arena = .ok pool middle ∧
        (prepare >>= run p claiming limit) arena = .ok none middle := by
  show Ends p claiming prepare arena (EStateM.bind prepare (run p claiming limit) arena) ∨
    ∃ pool middle, prepare arena = .ok pool middle ∧
      EStateM.bind prepare (run p claiming limit) arena = .ok none middle
  unfold EStateM.bind
  cases hprepare : prepare arena with
  | error fault after => exact .inl (.unprepared hprepare)
  | ok pool middle =>
    simp only [run]
    cases hdrive : pool.drive p claiming limit stepLimit ⟨0, pool.workers.map fun _ => 0⟩ with
    | none => exact .inr ⟨pool, middle, rfl, rfl⟩
    | some final =>
      obtain ⟨actors, rfl⟩ := Pool.exists_follow_of_drive hdrive
      cases hend : (pool.follow p claiming actors).outcome? with
      | none => exact .inr ⟨pool, middle, rfl, by simp only [hend]; rfl⟩
      | some goal =>
        simp only [hend]
        exact .inl (.finished hprepare actors hend)

/-- The faults of workers are in their own care. What remains is the preparation and the last report. -/
theorem Ends.of_error {fault : Fault} {after : Arena ω}
    (h : Ends p claiming prepare arena (.error fault after)) :
    prepare arena = .error fault after ∨
      ∃ path s count world, (p.onFinished path s count world).result = .error fault := by
  generalize houtcome : (EStateM.Result.error fault after : Upshot ω M) = outcome at h
  cases h with
  | unprepared hprepare =>
    cases houtcome
    exact .inl hprepare
  | @finished pool middle goal hprepare actors hend =>
    refine .inr ⟨goal.map Node.toPath, goal.elim p.initial Node.state, ?_⟩
    have hreport : wp (finish p (pool.follow p claiming actors) goal) _ _ middle := wp_finish _ _ _
    change _ = EStateM.map some (finish p _ goal) middle at houtcome
    unfold wp at hreport
    unfold EStateM.map at houtcome
    split at houtcome <;> cases houtcome
    rename_i hfinish
    rw [hfinish] at hreport
    exact hreport

theorem keeps_stats_prepareConcurrent (p : Problem ω S M) (placement : Placement) (plan : Plan ρ) :
    Keeps Arena.stats (prepareConcurrent p placement plan) :=
  .bind (.inquire_stats _ _ _) fun _ _ => rfl

theorem keeps_stats_prepareAStar (p : Problem ω S M) (plan : Plan ρ) :
    Keeps Arena.stats (prepareAStar p plan) :=
  .bind (.ask_stats _) fun _ _ => rfl

end PoolSearch

/-- What a search of `p` by this strategy can come to that starts in `arena`. The searches with workers may
have any coins, as many workers as there are coins, and any placement. -/
inductive Ends (p : Problem ω S M) (arena : Arena ω) : Strategy → Upshot ω M → Prop
  | depthFirst : Ends p arena .depthFirst ((some <$> Exhaustive.solve .depthFirst p) arena)
  | breadthFirst : Ends p arena .breadthFirst ((some <$> Exhaustive.solve .breadthFirst p) arena)
  | aStar : Ends p arena .aStar ((some <$> BestFirst.solve p) arena)
  | concurrent {ρ : Type} [Coin ρ] {placement : Placement} {plan : PoolSearch.Plan ρ} {outcome : Upshot ω M}
      (h : PoolSearch.Ends p .whenGenerated (PoolSearch.prepareConcurrent p placement plan) arena outcome) :
    Ends p arena .concurrent outcome
  | concurrentAStar {ρ : Type} [Coin ρ] {plan : PoolSearch.Plan ρ} {outcome : Upshot ω M}
      (h : PoolSearch.Ends p .whenTaken (PoolSearch.prepareAStar p plan) arena outcome) :
    Ends p arena .concurrentAStar outcome

namespace Solver

variable {solver : Solver} {p : Problem ω S M} {first : Call ω S} {bias : Float} {world : ω}

/-- A search that is given up has counted nothing by then. -/
theorem ends_or_unfinished (solver : Solver) (p : Problem ω S M) (limit : Option Nat) (arena : Arena ω) :
    Ends p arena solver.strategy (solver.search p limit arena) ∨
      ∃ after, solver.search p limit arena = .ok none after ∧ after.stats = arena.stats := by
  unfold search
  cases solver.strategy with
  | depthFirst => exact .inl .depthFirst
  | breadthFirst => exact .inl .breadthFirst
  | aStar => exact .inl .aStar
  | concurrent =>
    exact (PoolSearch.ends_or_unfinished p _ limit _ arena).imp .concurrent fun ⟨_, after, hprepare, h⟩ =>
      ⟨after, h, (PoolSearch.keeps_stats_prepareConcurrent p _ _).of_eq_ok hprepare⟩
  | concurrentAStar =>
    exact (PoolSearch.ends_or_unfinished p _ limit _ arena).imp .concurrentAStar fun ⟨_, after, hprepare, h⟩ =>
      ⟨after, h, (PoolSearch.keeps_stats_prepareAStar p _).of_eq_ok hprepare⟩

/-- What a search by the solver can come to: the solver afterwards, the world, and how the search ended. It begins
with the call `first`, for the initial state. -/
inductive Leaves (solver : Solver) (p : Problem ω S M) (first : Call ω S) (world : ω) :
    Solver × ω × Ending M → Prop
  /-- Not even the initial state could be told. -/
  | unbegun {fault : Fault} {after : Arena ω} (hfirst : ask first (solver.arena world) = .error fault after) :
    Leaves solver p first world (solver.close (.error fault after))
  | begun {middle : Arena ω} {outcome : Upshot ω M} (hfirst : ask first (solver.arena world) = .ok p.initial middle)
      (h : Ends p middle solver.strategy outcome) : Leaves solver p first world (solver.close outcome)

/-- Where nothing has to be done to tell the initial state, the search is all that there is. -/
theorem Leaves.of_ends {outcome : Upshot ω M} (h : Ends p (solver.arena world) solver.strategy outcome) :
    solver.Leaves p (.answer p.initial) world (solver.close outcome) :=
  .begun rfl h

/-! ### Searching once with another bias -/

/-- The first question of a search, about the initial state. -/
def question (p : Problem ω S M) : Act ω (Bool × Std.HashSet S) := inquire p p.initial ∅

/-- The search cannot start: the call for the initial state fails, or the question about it. -/
inductive Unstarted (solver : Solver) (p : Problem ω S M) (first : Call ω S) (world : ω) (fault : Fault) : Prop
  | untold {after : Arena ω} (hfirst : ask first (solver.arena world) = .error fault after)
  | unasked {middle after : Arena ω} (hfirst : ask first (solver.arena world) = .ok p.initial middle)
      (hquestion : question p middle = .error fault after)

/-- What the solver looks like when a search with another bias is over. -/
structure KeepsBias (solver : Solver) (p : Problem ω S M) (first : Call ω S) (bias : Float) (world : ω)
    (result : Solver × ω × Ending M) : Prop where
  /-- Every later search goes by the solver's own bias, and does what it would have done before. -/
  returned : (∀ fault, result.2.2 ≠ .abandoned fault) → result.1.bias = solver.bias ∧
    ∀ {ω' S' M' : Type} [DecidableEq S'] [Hashable S'] (q : Problem ω' S' M') (world : ω') (limit : Option Nat),
      result.1.trySolve q world limit = solver.trySolve q world limit
  /-- An abandoned search leaves the other bias. -/
  abandoned : ∀ fault, result.2.2 = .abandoned fault → result.1.bias = clampBias bias
  /-- It is abandoned only if it could not start, or if the last report failed. -/
  reason : ∀ fault, result.2.2 = .abandoned fault → solver.Unstarted p first world fault ∨
    ∃ path s count world, (p.onFinished path s count world).result = .error fault
  unstarted : ∀ fault, solver.Unstarted p first world fault → result.2.2 = .abandoned fault

/-- A solver that has searched is the same solver for the next search. -/
theorem trySolve_keep (solver : Solver) (arena : Arena ω) {ω' S' M' : Type} [DecidableEq S'] [Hashable S']
    (q : Problem ω' S' M') (world : ω') (limit : Option Nat) :
    (solver.keep arena).trySolve q world limit = solver.trySolve q world limit := by
  have hsearch : (solver.keep arena).search q limit = solver.search q limit := rfl
  have harena : (solver.keep arena).arena world = solver.arena world := rfl
  unfold trySolve
  rw [hsearch, harena]
  cases solver.search q limit (solver.arena world) <;> rfl

/-- A search with another bias comes back with the solver's own one, unless it failed. -/
theorem restoreBias_ok (solver : Solver) (bias : Float) (result : Option (Option (Path M))) (arena : Arena ω) :
    ∃ ending, solver.restoreBias (forgive ((solver.withBias bias).close (.ok result arena))) =
      (solver.keep arena, arena.world, ending) ∧ ∀ fault, ending ≠ .abandoned fault := by
  rcases result with _ | _ | path
  · exact ⟨.unfinished, rfl, fun _ h => by cases h⟩
  · refine ⟨.answered none, ?_, fun _ h => by cases h⟩
    simp only [close, endingOf]
    split <;> rfl
  · exact ⟨.answered (some path), rfl, fun _ h => by cases h⟩

theorem keepsBias {outcome : Upshot ω M}
    (hreason : ∀ fault after, outcome = .error fault after → solver.Unstarted p first world fault ∨
      ∃ path s count world, (p.onFinished path s count world).result = .error fault)
    (hunstarted : ∀ fault, solver.Unstarted p first world fault → ∃ after, outcome = .error fault after) :
    solver.KeepsBias p first bias world (solver.restoreBias (forgive ((solver.withBias bias).close outcome))) := by
  cases outcome with
  | ok result arena =>
    obtain ⟨ending, hrestore, hreturned⟩ := restoreBias_ok solver bias result arena
    rw [hrestore]
    exact ⟨fun _ => ⟨rfl, fun q world limit => trySolve_keep solver arena q world limit⟩,
      fun fault h => absurd h (hreturned fault), fun fault h => absurd h (hreturned fault),
      fun fault h => absurd (hunstarted fault h) nofun⟩
  | error fault arena =>
    refine ⟨fun h => absurd rfl (h fault), fun _ _ => rfl, fun fault' h => ?_, fun fault' h => ?_⟩
    · cases h
      exact hreason fault arena rfl
    · obtain ⟨after, h⟩ := hunstarted fault' h
      cases h
      rfl

variable {ρ : Type} [Coin ρ] {placement : Placement} {plan : PoolSearch.Plan ρ}
  {arena middle after : Arena ω} {fault : Fault} {outcome : Upshot ω M}

/-- Setting up the pool fails only where its first call does. -/
theorem prepareConcurrent_eq_error_iff : PoolSearch.prepareConcurrent p placement plan arena =
    .error fault after ↔ question p arena = .error fault after := by
  show EStateM.bind (question p) _ arena = _ ↔ _
  unfold EStateM.bind
  cases question p arena with
  | ok result middle => exact iff_of_false nofun nofun
  | error fault' after' => exact ⟨fun h => by cases h; rfl, fun h => by cases h; rfl⟩

theorem keepsBias_of_unbegun (hfirst : ask first (solver.arena world) = .error fault after) :
    solver.KeepsBias p first bias world
      (solver.restoreBias (forgive ((solver.withBias bias).close (.error fault after)))) := by
  refine keepsBias (fun fault' after' houtcome => ?_) fun fault' hunstarted => ⟨after, ?_⟩
  · cases houtcome
    exact .inl (.untold hfirst)
  · cases hunstarted with
    | untold h =>
      cases hfirst.symm.trans h
      rfl
    | unasked h => cases hfirst.symm.trans h

theorem keepsBias_of_begun (hfirst : ask first (solver.arena world) = .ok p.initial middle)
    (hends : Ends p middle .concurrent outcome) : solver.KeepsBias p first bias world
      (solver.restoreBias (forgive ((solver.withBias bias).close outcome))) := by
  cases hends with
  | @concurrent _ _ placement plan _ hends =>
    refine keepsBias (fun fault after houtcome => ?_) fun fault hunstarted => ?_
    · rw [houtcome] at hends
      exact hends.of_error.imp_left fun h => .unasked hfirst (prepareConcurrent_eq_error_iff.1 h)
    · cases hunstarted with
      | untold h => cases hfirst.symm.trans h
      | @unasked _ after h hquestion =>
        cases hfirst.symm.trans h
        have hprepare : PoolSearch.prepareConcurrent p placement plan middle = .error fault after :=
          prepareConcurrent_eq_error_iff.2 hquestion
        cases hends with
        | unprepared h =>
          cases h.symm.trans hprepare
          exact ⟨after, rfl⟩
        | finished h => cases h.symm.trans hprepare

/-- In whatever order the workers take their steps and whatever their tasks come to: after a search with
another bias that was not abandoned, the solver has its own bias again. It is abandoned only if a call fails
that no worker makes, and then the solver keeps the other bias. -/
theorem bias_after_solveWithBias (hconcurrent : solver.strategy = .concurrent) (p : Problem ω S M)
    (bias : Float) (world : ω) :
    (∀ first result, (solver.withBias bias).Leaves p first world result →
      solver.KeepsBias p first bias world (solver.restoreBias (forgive result))) ∧
    solver.KeepsBias p (.answer p.initial) bias world (solver.solveWithBias p bias world) := by
  have hstrategy : (solver.withBias bias).strategy = .concurrent := hconcurrent
  have hanswer : ask (.answer p.initial) (solver.arena world) = .ok p.initial (solver.arena world) := rfl
  constructor
  · intro first result h
    cases h with
    | unbegun hfirst => exact keepsBias_of_unbegun hfirst
    | begun hfirst hends =>
      rw [hstrategy] at hends
      exact keepsBias_of_begun hfirst hends
  · have hsearch : (solver.withBias bias).search p none = PoolSearch.prepareConcurrent p
        (.ofBias (solver.withBias bias).bias) solver.plan >>= PoolSearch.run p .whenGenerated none := by
      unfold search
      rw [hstrategy]
      rfl
    unfold solveWithBias solve trySolve
    rw [hsearch]
    rcases PoolSearch.ends_or_unfinished p .whenGenerated none (PoolSearch.prepareConcurrent p
        (.ofBias (solver.withBias bias).bias) solver.plan) (solver.arena world) with
      hends | ⟨pool, middle, hprepare, hunfinished⟩
    · exact keepsBias_of_begun hanswer (.concurrent hends)
    · refine keepsBias (fun fault after houtcome => ?_) fun fault hunstarted => ?_
      · cases hunfinished.symm.trans houtcome
      · cases hunstarted with
        | untold h => cases hanswer.symm.trans h
        | unasked h hquestion =>
          cases hanswer.symm.trans h
          cases hprepare.symm.trans (prepareConcurrent_eq_error_iff.2 hquestion)

end Solver

namespace Junction

/-- Nobody can say whether a junction was met before. -/
def barred : Problem Unit Junction Junction :=
  { detour.toProblem with alreadySeen := fun _ => .fail .wordless }

/-- Two workers who expand the junctions level by level. -/
def pair : Solver where
  strategy := .concurrent
  workers := 2
  bias := 1
  seed := 42

/-- The bias is put back after a search that came to an answer, and not after one that could not begin. -/
theorem bias_after_barred :
    pair.strategy = .concurrent ∧
    (∃ result, (pair.withBias 0.5).Leaves detour.toProblem (.answer start) () result ∧
      (pair.restoreBias (Solver.forgive result)).2.2 = .answered (some ⟨[middle, finish], 6⟩) ∧
      (pair.restoreBias (Solver.forgive result)).1.bias = pair.bias) ∧
    (pair.solveWithBias barred 0.5 ()).2.2 = .abandoned .wordless ∧
      (pair.solveWithBias barred 0.5 ()).1.bias = clampBias 0.5 := by
  have hanswered : ∃ outcome, Ends detour.toProblem ((pair.withBias 0.5).arena ()) .concurrent outcome ∧
      ∃ after, outcome = .ok (some (some ⟨[middle, finish], 6⟩)) after := by
    have hprepare : PoolSearch.prepareConcurrent detour.toProblem .tail ⟨(), [(), ()]⟩
        ((pair.withBias 0.5).arena ()) = .ok levels ((pair.withBias 0.5).arena ()) := rfl
    have hend : ((levels.follow detour.toProblem .whenGenerated turns).outcome?.map
        (Option.map Node.toPath)) = some (some ⟨[middle, finish], 6⟩) := by decide +kernel
    obtain ⟨goal, hgoal, hpath⟩ := Option.map_eq_some_iff.1 hend
    obtain ⟨after, hfinish⟩ := PoolSearch.exists_finish detour
      (levels.follow detour.toProblem .whenGenerated turns) goal ((pair.withBias 0.5).arena ())
    refine ⟨_, .concurrent (.finished hprepare turns hgoal), after, ?_⟩
    show EStateM.map some (PoolSearch.finish _ _ _) _ = _
    unfold EStateM.map
    rw [hfinish, hpath]
  obtain ⟨outcome, hends, after, rfl⟩ := hanswered
  have hconcurrent : pair.strategy = .concurrent := rfl
  have hleaves : (pair.withBias 0.5).Leaves detour.toProblem (.answer start) () _ := .of_ends hends
  have hdetour := (Solver.bias_after_solveWithBias hconcurrent detour.toProblem 0.5 ()).1 _ _ hleaves
  have hbarred := (Solver.bias_after_solveWithBias hconcurrent barred 0.5 ()).2
  have habandoned := hbarred.unstarted .wordless (.unasked rfl rfl)
  exact ⟨hconcurrent, ⟨_, hleaves, rfl, (hdetour.returned fun _ => nofun).1⟩, habandoned,
    hbarred.abandoned _ habandoned⟩

end Junction

end StateSearch
