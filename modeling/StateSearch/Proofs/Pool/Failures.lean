import StateSearch.Proofs.Pool.Termination
import StateSearch.Solver

/-!
# Failing tasks

What a search with workers answers when some of its calls fail, for workers who claim states when they
generate them. If nobody asks it to stop, it answers with a path if and only if some route to a goal keeps
clear of the states that its failing tasks took along (`finish_finds_iff`).

It is not enough that no call fails on any state of a route. In `Junction.washout` a task on the bypass
fails after it has claimed the finish, and the finish is not found by way of the middle either.
-/

namespace StateSearch

open StateSearch.Random Act

namespace PoolSearch

variable {ω S M ρ : Type} [DecidableEq S] [Hashable S] {p : Problem ω S M} {rules : Rules S M}
  {arena middle : Arena ω}

/-- What the pool did is taken over, and reading off the result fails only if telling the problem about it
does. -/
theorem wp_finish_arena {F : Type} (p : Problem ω S M) (pool : Pool ω S M F ρ)
    (goal : Option (Node S M)) :
    wp (finish p pool goal) (fun path after => path = goal.map Node.toPath ∧
        after.faults = pool.shared.faults.reverse ∧ after.stats.expanded = pool.shared.expanded)
      (fun fault _ => ∃ count world, (p.onFinished (goal.map Node.toPath)
        (goal.elim p.initial Node.state) count world).result = .error fault) arena := by
  unfold finish conclude
  simp only [wp_bind]
  refine wp_ask _ (fun _ _ _ _ => ⟨rfl, rfl, rfl⟩) fun fault _ _ h => ⟨_, _, h⟩

theorem wp_finish {F : Type} (p : Problem ω S M) (pool : Pool ω S M F ρ) (goal : Option (Node S M)) :
    wp (finish p pool goal) (fun path _ => path = goal.map Node.toPath)
      (fun fault _ => ∃ count world, (p.onFinished (goal.map Node.toPath)
        (goal.elim p.initial Node.state) count world).result = .error fault) arena :=
  (wp_finish_arena p pool goal).mono fun _ _ h => h.1

omit [DecidableEq S] [Hashable S] in
theorem answered_iff_isSome (faults : List WorkerFault) (goal : Option (Node S M)) :
    (∃ found, Solver.endingOf faults (some (goal.map Node.toPath)) = .answered (some found)) ↔
      goal.isSome = true := by
  cases goal with
  | none =>
    simp only [Option.map_none, Solver.endingOf]
    split <;> simp
  | some n => simp [Solver.endingOf]

variable [Coin ρ] {plan : Plan ρ} {placement : Placement} {pool : Pool ω S M (BiasedDeque S M) ρ}

theorem fresh_of_prepareConcurrent (hp : p.Respects rules) (hplain : p.Plain)
    (hprepare : prepareConcurrent p placement plan arena = .ok pool middle) :
    pool.IsFresh (.root rules.initial 0) ∧ ∀ s, s ∈ pool.shared.seen ↔ s = rules.initial := by
  obtain ⟨hfresh, query, world, known, hq, hrun⟩ := isFresh_of_prepareConcurrent hprepare
  obtain rfl := hplain _ _ _ hq
  have hseen : ((SeenQuery.record p.initial).run (∅ : Std.HashSet S)).2 = pool.shared.seen :=
    congrArg Prod.snd hrun
  rw [← hp.initial]
  refine ⟨hfresh, fun s => ?_⟩
  rw [← hseen]
  simp only [SeenQuery.record, SeenQuery.run, SeenSet.insert, Std.HashSet.containsThenInsert_snd,
    Std.HashSet.mem_insert, beq_iff_eq, Std.HashSet.not_mem_empty, or_false]
  exact eq_comm

/-- In whatever order the steps are taken, a search that nobody stopped answers with a path if and only if
some route to a goal keeps clear of the lost states. Only states on which a call fails, and states one move
from these, can be lost. If the states are finitely many and everybody has a turn again and again, then
the search ends. -/
theorem finish_finds_iff (hp : p.Respects rules) (hplain : p.Plain)
    (hprepare : prepareConcurrent p placement plan arena = .ok pool middle) :
    (∀ actors goal, (pool.follow p .whenGenerated actors).outcome? = some goal →
      (pool.follow p .whenGenerated actors).shared.stopped = false →
      wp (finish p (pool.follow p .whenGenerated actors) goal)
        (fun path after =>
          (∃ found, Solver.endingOf after.faults (some path) = .answered (some found)) ↔
            ∃ s, rules.Within (fun s => s ∉ pool.lost p actors) s ∧ rules.isGoal s = .ok true)
        (fun fault _ => ∃ count world, (p.onFinished (goal.map Node.toPath)
          (goal.elim p.initial Node.state) count world).result = .error fault) middle) ∧
    (∀ actors, ∀ s ∈ pool.lost p actors, p.Endangers rules s) ∧
    ∀ states : List S, rules.initial ∈ states →
      (∀ s ∈ states, ∀ m t, rules.IsLegal s m → rules.applyMove s m = .ok t → t ∈ states) →
      plan.coins ≠ [] → ∀ schedule, Pool.Fair plan.coins.length schedule →
        ∃ k goal, (pool.played p .whenGenerated schedule k).outcome? = some goal := by
  obtain ⟨hfresh, hseen⟩ := fresh_of_prepareConcurrent hp hplain hprepare
  have hgenuine : pool.Carries p rules (Node.Genuine rules) .whenGenerated := hfresh.carries (.root 0)
  have htraced := fun actors => (Pool.Traced.of_isFresh hfresh rfl hseen).follow hp hplain
    hfresh.orderly hgenuine actors
  refine ⟨fun actors goal hend hstop => ?_, fun actors => (htraced actors).2, ?_⟩
  · have horderly : (pool.follow p .whenGenerated actors).Orderly := hfresh.orderly.follow actors
    have hcarries := hgenuine.follow hp (inherited_genuine p rules _) actors
    refine (wp_finish p _ goal).mono ?_
    rintro _ after rfl
    rw [answered_iff_isSome]
    exact (htraced actors).1.isSome_iff horderly hcarries hstop hend
  · intro states hinitial hclosed hcoins schedule hfair
    have hlength := length_of_prepareConcurrent hprepare
    refine hfresh.exists_outcome hp hplain hclosed hinitial (fun hnil => hcoins ?_) ?_
    · rw [← List.length_eq_zero_iff, ← hlength, hnil]
      rfl
    · rwa [hlength]

end PoolSearch

namespace Junction

/-- Two ways lead to the finish. What the move from the bypass costs cannot be told. -/
def washout : Rules Junction Junction where
  initial := start
  isGoal s := .ok (s == finish)
  legalMoves s := .ok (match s with
    | start => [bypass, middle]
    | bypass | middle => [finish]
    | finish => [])
  applyMove _ m := .ok m
  moveCost s _ := if s = bypass then .error .wordless else .ok 1

/-- Two workers and the one who waits have their turns in a circle. -/
def circle (k : Nat) : Actor :=
  match k % 3 with
  | 0 => .worker 0
  | 1 => .worker 1
  | _ => .waiter

theorem fair_circle : Pool.Fair 2 circle where
  worker index hindex k := by
    refine ⟨3 * k + index, by omega, ?_⟩
    unfold circle
    rw [Nat.mul_add_mod]
    match index, hindex with
    | 0, _ => rfl
    | 1, _ => rfl
  waiter k := by
    refine ⟨3 * k + 2, by omega, ?_⟩
    unfold circle
    rw [Nat.mul_add_mod]
    rfl

theorem washout_step_start : washout.Step start middle middle 1 := ⟨⟨_, rfl, by decide⟩, rfl, rfl⟩

theorem washout_step_middle : washout.Step middle finish finish 1 := ⟨⟨_, rfl, by decide⟩, rfl, rfl⟩

theorem not_fails_washout {s : Junction} (hs : s ≠ bypass) :
    ¬ (washout.toProblem : Problem Unit _ _).Fails washout s := by
  rintro (h | h | ⟨-, h⟩ | ⟨-, -, h⟩ | ⟨-, h⟩ | h)
  case moveCost =>
    rw [washout.follows_toProblem.moveCost] at h
    simp [washout, hs] at h
  all_goals cases h

/-- The way by the middle leads to the finish, and no call fails on it. Nobody finds the finish. -/
theorem finish_finds_iff_washout :
    (washout.Route start [middle, finish] finish 2 ∧
      ∀ s ∈ [start, middle, finish], ¬ (washout.toProblem : Problem Unit _ _).Fails washout s) ∧
    (levels.follow washout.toProblem .whenGenerated turns).outcome? = some none ∧
    (∃ after, PoolSearch.finish washout.toProblem (levels.follow washout.toProblem .whenGenerated turns)
        none { world := () } = .ok none after ∧
      ((∃ found, Solver.endingOf after.faults (some none) =
          (.answered (some found) : Ending Junction)) ↔
        ∃ s, washout.Within (fun s => s ∉ [bypass, finish]) s ∧ washout.isGoal s = .ok true)) ∧
    (∀ s ∈ [bypass, finish], (washout.toProblem : Problem Unit _ _).Endangers washout s) ∧
    ∃ k goal, (levels.played washout.toProblem .whenGenerated circle k).outcome? = some goal := by
  have hprepare : PoolSearch.prepareConcurrent washout.toProblem .tail ⟨(), [(), ()]⟩
      { world := () } = .ok levels { world := () } := rfl
  obtain ⟨hfinds, hlost, hends⟩ := PoolSearch.finish_finds_iff washout.follows_toProblem.respects
    washout.plain_toProblem hprepare
  have hrun : levels.lost washout.toProblem turns = [bypass, finish] ∧
      ((levels.follow washout.toProblem .whenGenerated turns).outcome?.map (Option.map Node.toPath)) =
        some none ∧
      (levels.follow washout.toProblem .whenGenerated turns).shared.stopped = false := by
    decide +kernel
  obtain ⟨goal, hgoal, hnone⟩ := Option.map_eq_some_iff.1 hrun.2.1
  obtain rfl := Option.map_eq_none_iff.1 hnone
  refine ⟨⟨?_, ?_⟩, hgoal, ⟨_, rfl, ?_⟩, ?_, ?_⟩
  · exact (Rules.Route.stay.snoc washout_step_start).snoc washout_step_middle
  · intro s hs
    refine not_fails_washout ?_
    rintro rfl
    exact absurd hs (by decide)
  · rw [← hrun.1]
    exact (hfinds turns none hgoal hrun.2.2).of_eq_ok rfl
  · rw [← hrun.1]
    exact hlost turns
  · refine hends [start, bypass, middle, finish] (by decide) ?_ (by decide) circle fair_circle
    intro s _ m t _ _
    cases t <;> decide

end Junction

end StateSearch
