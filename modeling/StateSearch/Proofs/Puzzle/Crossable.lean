import StateSearch.Proofs.FoldedDecision
import StateSearch.Proofs.Puzzle.Representative
import StateSearch.Proofs.Puzzle.Shuttle

/-!
# Which bridges the searches find a way over

Each search finds out whether everybody can get across, and that is known beforehand
(`Bridge.solvable_iff_crossable`). Main statement: `Bridge.answered_iff_crossable`.

Only for A* there is an exception. What a way costs is cut off at the largest cost. Where no way costs less, A*
does not see which one is better until it is across, and expands states again, each time a cheaper way to them
turns up. It still comes to a way (`BestFirst.exists_course_folded`), but its counters may come to their end before.
-/

namespace StateSearch.Puzzle.Bridge

open PoolSearch

variable {ω ρ : Type} {bridge : Bridge}

theorem foldable_problem (bridge : Bridge) : bridge.problem.Foldable bridge.recorded bridge.states where
  folds := bridge.folds_problem
  consistent := bridge.consistent_problem
  confines := bridge.confines_states
  initial := bridge.initial_mem_states
  few := by
    have hefforts := bridge.efforts_states_le
    have hlimit : stepLimit = 2 ^ 62 := rfl
    omega

/-- The bridge holds two, no way over it costs less than the largest cost, and A* does find one, but counts further
than its counters go. -/
def Overcounts (bridge : Bridge) (world : ω) : Prop :=
  2 ≤ bridge.capacity ∧
    (∀ crossings cost, bridge.problem.rules.Solves ⟨crossings, cost⟩ → cost = Cost.largest) ∧
    ∃ ns goal after, BestFirst.Course bridge.problem .deaf ∅ (BestFirst.seedling bridge.problem) (.single world) ns
      (some goal) after ∧ ¬ after.stats.Fits

theorem aStar_optimum_or_overcounts (bridge : Bridge) (world : ω) :
    (∃ path final, BestFirst.solve bridge.problem.toProblem (.single world) = .ok path final ∧ final.faults = [] ∧
      bridge.problem.IsOptimum path) ∨
    bridge.Overcounts world ∧
      ∃ final, BestFirst.solve bridge.problem.toProblem (.single world) = .error .sumOutOfRange final := by
  have h := bridge.foldable_problem
  have hfresh := Arena.isFresh_single world
  by_cases hone : bridge.capacity = 1
  · obtain ⟨path, final, hsolve, hfaults, hright, -⟩ :=
      h.exists_bestFirst_eq hfresh fun _ _ _ hcourse _ => nodup_of_single_file hone hcourse
    exact .inl ⟨path, final, hsolve, hfaults, hright⟩
  by_cases hlargest : ∀ crossings cost, bridge.problem.rules.Solves ⟨crossings, cost⟩ → cost = Cost.largest
  · refine (BestFirst.optimum_or_error h world).imp_right fun herror => ⟨?_, herror⟩
    have hpos := bridge.capacity_pos
    have hcapacity : 2 ≤ bridge.capacity := by omega
    obtain ⟨ns, goal, after, hcourse, hiff, hsolve⟩ :=
      BestFirst.exists_course_folded h .deaf (rfl : (Arena.single world).stopped = false)
    obtain ⟨goal, rfl⟩ := Option.isSome_iff_exists.1 (hiff.2 (bridge.solvable_iff_crossable.2 (.inr hcapacity)))
    refine ⟨hcapacity, hlargest, ns, goal, after, hcourse, fun hfits => ?_⟩
    obtain ⟨final, herror⟩ := herror
    obtain ⟨final', hok⟩ := hsolve hfits
    rw [PureProblem.observed_deaf, herror] at hok
    cases hok
  · push Not at hlargest
    obtain ⟨crossings, cost, hsolves, hcost⟩ := hlargest
    obtain ⟨path, final, hsolve, hfaults, hright, -⟩ :=
      h.exists_bestFirst_eq hfresh fun _ _ _ hcourse hright =>
        hcourse.nodup_of_cheap h.folds h.consistent hright hsolves hcost
    exact .inl ⟨path, final, hsolve, hfaults, hright⟩

/-- Every solver answers with a path if and only if there is nobody to take over or the bridge holds two. Those
whose workers could be several do so with one. Only A* may be abandoned instead, if no way over the bridge costs
less than the largest cost, and a counter comes to its end while it looks for one. Where a worker searches, and
somebody waits for it, in whatever order they take their steps and wherever the worker places its nodes, that is
also what it finds out. -/
theorem answered_iff_crossable [Random.Coin ρ] (bridge : Bridge) :
    (∀ (solver : Solver) (world : ω), (solver.strategy.isShared = true → solver.workers = 1) →
      (∃ path, (solver.solve bridge.problem.toProblem world).2.2 = .answered path ∧
        (solver.trySolve bridge.problem.toProblem world).2.2 = .answered path ∧
        (path.isSome = true ↔ bridge.Crossable)) ∨
      solver.strategy = .aStar ∧ bridge.Overcounts world ∧
        (solver.solve bridge.problem.toProblem world).2.2 = .abandoned .sumOutOfRange ∧
        (solver.trySolve bridge.problem.toProblem world).2.2 = .abandoned .sumOutOfRange) ∧
    (∀ (o : Observer ω BridgeState Crossing) (arena : Arena ω), arena.stopped = false →
      ∃ ns goal after,
        BestFirst.Course bridge.problem o ∅ (BestFirst.seedling bridge.problem) arena ns goal after ∧
        (goal.isSome = true ↔ bridge.Crossable) ∧
        (after.stats.Fits → ∃ final, BestFirst.solve (bridge.problem.observed o) arena =
          .ok (goal.map Node.toPath) final)) ∧
    ∀ (plan : Plan ρ) (coin : ρ) (world : ω), plan.coins = [coin] →
      (∀ placement, ∃ pool, prepareConcurrent bridge.problem.toProblem placement plan (.single world) =
          .ok pool (.single world) ∧
        Decides bridge.problem.toProblem .whenGenerated pool (.single world) bridge.Crossable) ∧
      ∃ pool, prepareAStar bridge.problem.toProblem plan (.single world) = .ok pool (.single world) ∧
        Decides bridge.problem.toProblem .whenTaken pool (.single world) bridge.Crossable := by
  have h := bridge.foldable_problem
  rw [← solvable_iff_crossable]
  refine ⟨fun solver world hone => ?_, fun o arena hopen => BestFirst.exists_course_folded h o hopen,
    fun plan coin world hcoins => ⟨fun placement => ?_, ?_⟩⟩
  · by_cases hstrategy : solver.strategy = .aStar
    · have hsearch : solver.search bridge.problem.toProblem none =
          (some <$> BestFirst.solve bridge.problem.toProblem : Act ω _) := by
        unfold Solver.search
        rw [hstrategy]
      rcases bridge.aStar_optimum_or_overcounts world with
        ⟨path, final, hsolve, hfaults, hright⟩ | ⟨hover, final, herror⟩
      · refine .inl (Solver.exists_answered ?_)
        rw [Solver.arena_eq_single hone, hsearch]
        exact .of_ok hsolve hfaults hright.isSome_iff
      · have habandoned : solver.search bridge.problem.toProblem none (solver.arena world) =
            .error .sumOutOfRange final := by
          rw [Solver.arena_eq_single hone, hsearch]
          show EStateM.map some _ _ = _
          unfold EStateM.map
          rw [herror]
        exact .inr ⟨hstrategy, hover, Solver.abandoned_of_error habandoned⟩
    · exact .inl (Solver.exists_answered (Solver.search_answers_folded h hone hstrategy world))
  · obtain ⟨pool, hprepare, hdecides, -⟩ := exists_decides_whenGenerated h placement hcoins world
    exact ⟨pool, hprepare, hdecides⟩
  · obtain ⟨pool, hprepare, hdecides, -⟩ := exists_decides_whenTaken h hcoins world
    exact ⟨pool, hprepare, hdecides⟩

end StateSearch.Puzzle.Bridge
