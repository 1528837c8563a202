import StateSearch.Proofs.CutShort
import StateSearch.Proofs.Decision
import StateSearch.Proofs.Pool.FoldedAStar
import StateSearch.Proofs.Pool.FoldedQueue

/-!
# Every search of a single worker decides a folded problem

If a problem folds few states into fewer (`PureProblem.Foldable`), each of the searches finds out whether it can be
solved, as long as those with workers have just one: the exhaustive ones (`Exhaustive.answers_folded`), and those
with a worker, wherever it puts its nodes (`PoolSearch.exists_decides_whenGenerated`,
`PoolSearch.exists_decides_whenTaken`). A* even finds a best path, unless it expands states so often that a counter
comes to its end (`BestFirst.optimum_or_error`).
-/

namespace StateSearch

open Act PoolSearch StateSearch.Random LawfulFrontier

variable {ω S M F ρ : Type} [DecidableEq S] [Hashable S] {q : PureProblem S M} {rep : S → S} {states : List S}
  {world : ω}

theorem Exhaustive.answers_folded (h : q.Foldable rep states) (d : Discipline) (world : ω) :
    (some <$> solve d q.toProblem).Answers q.Solvable (.single world) := by
  obtain ⟨path, final, hsolve, hfaults, hiff, -⟩ := h.exists_exhaustive_eq (Arena.isFresh_single world) d
  exact .of_ok hsolve hfaults hiff

/-! ### A* -/

namespace BestFirst

/-- The search comes to its end, if its counters do not come to theirs. -/
theorem exists_course_folded (h : q.Foldable rep states) (o : Observer ω S M) {arena : Arena ω}
    (hopen : arena.stopped = false) :
    ∃ ns goal after, Course q o ∅ (seedling q) arena ns goal after ∧ (goal.isSome = true ↔ q.Solvable) ∧
      (after.stats.Fits → ∃ final, solve (q.observed o) arena = .ok (goal.map Node.toPath) final) := by
  have hfinite := h.finite.image rep
  have I := Inv.start q
  obtain ⟨ns, goal, after, hcourse⟩ := exists_course o h.folds.record
    (fun s hs => hfinite.mem_toFinset.2 ⟨s, hs, rfl⟩) ∅ (seedling q) I.sound I.fair arena
  have hright := (hcourse.isOptimum h.folds h.consistent (.start q rep)).isSome_iff
  rw [Option.isSome_map] at hright
  refine ⟨ns, goal, after, hcourse, hright, fun hfits => ?_⟩
  obtain ⟨final, hconclude, -⟩ := exists_conclude_eq o goal after
  exact ⟨final, (hcourse.solve_eq hopen hfits).trans hconclude⟩

theorem optimum_or_error (h : q.Foldable rep states) (world : ω) :
    (∃ path final, solve q.toProblem (.single world) = .ok path final ∧ final.faults = [] ∧ q.IsOptimum path) ∨
      ∃ final, solve q.toProblem (.single world) = .error .sumOutOfRange final := by
  have hright : wp (solve q.toProblem) (fun path _ => q.IsOptimum path) Overflow (.single world) :=
    solve_folded h.folds h.consistent rfl
  unfold wp at hright
  cases hsolve : solve q.toProblem (.single world) with
  | ok path final =>
    simp only [hsolve] at hright
    exact .inl ⟨path, final, rfl, faults_of_solve hsolve, hright⟩
  | error fault final =>
    simp only [hsolve] at hright
    obtain ⟨rfl, -⟩ := hright
    exact .inr ⟨final, rfl⟩

end BestFirst

/-! ### Searches with a worker -/

namespace PoolSearch

variable [Coin ρ] {plan : Plan ρ} {coin : ρ}

section

variable [Frontier F (Node S M)] {p : Problem ω S M} {claiming : Claiming} {pool : Pool ω S M F ρ}
  {arena final : Arena ω} {path : Option (Path M)} {solvable : Prop}

theorem decides_of_lands (h : Lands p claiming pool arena path final) (hfaults : final.faults = [])
    (hiff : path.isSome = true ↔ solvable) (hends : ∀ schedule, Pool.Fair pool.workers.length schedule →
      ∃ k goal, (pool.played p claiming schedule k).outcome? = some goal) :
    Decides p claiming pool arena solvable :=
  ⟨fun actors goal hactors hout => .of_ok (h.result actors goal hactors hout) hfaults hiff, hends⟩

/-- What the pool comes to in any order, it comes to on its timetable. -/
theorem Decides.run_answers (h : Decides p claiming pool arena solvable)
    (hdrive : ∃ actors goal, .outsider ∉ actors ∧
      pool.drive p claiming none stepLimit ⟨0, pool.workers.map fun _ => 0⟩ =
        some (pool.follow p claiming actors) ∧ (pool.follow p claiming actors).outcome? = some goal) :
    (run p claiming none pool).Answers solvable arena := by
  obtain ⟨actors, goal, hactors, hdrive, hout⟩ := hdrive
  rw [run_eq hdrive hout]
  exact h.result actors goal hactors hout

end

theorem exists_decides_whenGenerated (h : q.Foldable rep states) (placement : Placement)
    (hcoins : plan.coins = [coin]) (world : ω) :
    ∃ pool, prepareConcurrent q.toProblem placement plan (.single world) = .ok pool (.single world) ∧
      Decides q.toProblem .whenGenerated pool (.single world) q.Solvable ∧
      (concurrent q.toProblem placement plan none).Answers q.Solvable (.single world) := by
  obtain ⟨pool, path, final, hprepare, hlands, hfaults, hsolvable⟩ : ∃ pool path final,
      prepareConcurrent q.toProblem placement plan (.single world) = .ok pool (.single world) ∧
        Lands q.toProblem .whenGenerated pool (.single world) path final ∧ final.faults = [] ∧
        (path.isSome = true ↔ q.Solvable) := exists_lands_folded h.folds h.finite placement plan hcoins
  have hfresh := (isFresh_of_prepareConcurrent hprepare).1
  have hrespects := q.follows_rules (ω := ω).respects
  have hone : pool.workers.length = 1 := (length_of_prepareConcurrent hprepare).trans (congrArg _ hcoins)
  have hne : pool.workers ≠ [] := List.ne_nil_of_length_pos (hone ▸ Nat.one_pos)
  have hdecides : Decides q.toProblem .whenGenerated pool (.single world) q.Solvable :=
    decides_of_lands hlands hfaults hsolvable fun _ hfair =>
      hfresh.exists_outcome_folded hrespects h.records h.confines h.initial hne hfair
  have hfew := h.few
  refine ⟨pool, hprepare, hdecides, ?_⟩
  unfold Answers concurrent
  rw [bind_eq hprepare]
  exact hdecides.run_answers
    (hfresh.exists_drive_folded hrespects h.records h.confines h.initial hne (by omega))

theorem exists_decides_whenTaken (h : q.Foldable rep states) (hcoins : plan.coins = [coin]) (world : ω) :
    ∃ pool, prepareAStar q.toProblem plan (.single world) = .ok pool (.single world) ∧
      Decides q.toProblem .whenTaken pool (.single world) q.Solvable ∧
      (concurrentAStar q.toProblem plan none).Answers q.Solvable (.single world) := by
  have hclasses : ∀ s, q.Reachable s → rep s ∈ h.finite.toFinset.image rep := fun s hs =>
    Finset.mem_image_of_mem rep (h.finite.mem_toFinset.2 hs)
  obtain ⟨goal, after, hsearch, hright⟩ := OneByOne.exists_optimum .deaf h.folds h.consistent hclasses
    (.start q rep) (Arena.single world)
  obtain ⟨final, hconclude, -⟩ := exists_conclude_eq .deaf goal after
  have hfaults : final.faults = [] := by
    rw [(Keeps.conclude_faults _ _).of_eq_ok hconclude]
    exact hsearch.precedes.faults
  obtain ⟨pool, middle, hprepare, hlands⟩ : ∃ pool middle,
      prepareAStar q.toProblem plan (.single world) = .ok pool middle ∧
        Lands q.toProblem .whenTaken pool middle (goal.map Node.toPath) final :=
    hsearch.lands plan hcoins hconclude
  obtain ⟨remaining, -, -, hfresh, -⟩ := isFresh_of_prepareAStar hprepare
  have hrespects := q.follows_rules (ω := ω).respects
  have hone : pool.workers.length = 1 := (length_of_prepareAStar hprepare).trans (congrArg _ hcoins)
  obtain rfl : middle = .single world := by
    obtain ⟨_, _, hask, hpool⟩ := of_bind_eq_ok hprepare
    cases (ask_answer _).symm.trans hask
    cases hpool
    rfl
  have hne : pool.workers ≠ [] := List.ne_nil_of_length_pos (hone ▸ Nat.one_pos)
  have hdecides : Decides q.toProblem .whenTaken pool (.single world) q.Solvable :=
    decides_of_lands hlands hfaults hright.isSome_iff fun _ hfair =>
      hfresh.exists_outcome_whenTaken hrespects h.records h.confines h.initial hne hfair
  have hfew := h.few
  refine ⟨pool, hprepare, hdecides, ?_⟩
  unfold Answers concurrentAStar
  rw [bind_eq hprepare]
  exact hdecides.run_answers
    (hfresh.exists_drive_whenTaken hrespects h.initial hne h.records h.confines (by omega))

end PoolSearch

/-! ### Solvers -/

namespace Solver

variable {solver : Solver}

theorem arena_eq_single (hone : solver.strategy.isShared = true → solver.workers = 1) (world : ω) :
    solver.arena world = .single world := by
  unfold arena shownWorkers
  split
  · rename_i hshared
    rw [hone hshared]
    rfl
  · rfl

theorem abandoned_of_error {p : Problem ω S M} {fault : Fault} {final : Arena ω}
    (h : solver.search p none (solver.arena world) = .error fault final) :
    (solver.solve p world).2.2 = .abandoned fault ∧ (solver.trySolve p world).2.2 = .abandoned fault := by
  unfold solve trySolve
  rw [h]
  exact ⟨rfl, rfl⟩

/-- Every solver but A* comes to an answer. -/
theorem search_answers_folded (h : q.Foldable rep states)
    (hone : solver.strategy.isShared = true → solver.workers = 1) (hstrategy : solver.strategy ≠ .aStar)
    (world : ω) : (solver.search q.toProblem none).Answers q.Solvable (solver.arena world) := by
  rw [arena_eq_single hone]
  have hcoins : solver.strategy.isShared = true → solver.plan.coins = [.ofSeed (solver.seed + 0)] := by
    intro hshared
    rw [plan, hone hshared]
    rfl
  unfold search
  cases hsolver : solver.strategy with
  | depthFirst => exact Exhaustive.answers_folded h .depthFirst world
  | breadthFirst => exact Exhaustive.answers_folded h .breadthFirst world
  | aStar => exact absurd hsolver hstrategy
  | concurrent =>
    obtain ⟨-, -, -, hanswers⟩ := exists_decides_whenGenerated h (.ofBias solver.bias)
      (hcoins (by rw [hsolver]; rfl)) world
    exact hanswers
  | concurrentAStar =>
    obtain ⟨-, -, -, hanswers⟩ := exists_decides_whenTaken h (hcoins (by rw [hsolver]; rfl)) world
    exact hanswers

end Solver

end StateSearch
