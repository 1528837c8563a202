import StateSearch.Proofs.Agreement
import StateSearch.Proofs.Exhaustive.Course
import StateSearch.Proofs.Pool.Driving
import StateSearch.Proofs.Pool.Expansions
import StateSearch.Proofs.Pool.Quiet

/-!
# Whether there is a solution

A search answers with a path if and only if a goal can be reached, if the problem is to it one of functions
that records states as they are, and of few states (`Problem.Modest`).

For searches with workers this is so in whatever order the steps are taken (`PoolSearch.Decides`). As long as
nobody asks for a stop, no call fails, no task is given up and no fault is reported (`Pool.Calm`).
-/

namespace StateSearch

open Act StateSearch.Random LawfulFrontier

variable {ω S M F ρ : Type} [DecidableEq S] [Hashable S] {q : PureProblem S M} {claiming : Claiming}

/-! ### Pools that nobody disturbs -/

namespace Pool

variable [Frontier F (Node S M)] {pool next : Pool ω S M F ρ} {past : History S M} {actor : Actor}

/-- Nothing has failed. -/
structure Blameless (pool : Pool ω S M F ρ) : Prop where
  faults : pool.shared.faults = []
  blameless : ∀ w ∈ pool.workers, ∀ n fault, w.phase ≠ .blame n fault

/-- Nobody has asked for a stop, and nothing has failed. -/
structure Calm (pool : Pool ω S M F ρ) : Prop where
  stopped : pool.shared.stopped = false
  faults : pool.shared.faults = []
  blameless : ∀ w ∈ pool.workers, ∀ n fault, w.phase ≠ .blame n fault

variable [Coin ρ]

/-- No call of such a problem fails. -/
theorem Blameless.step (h : pool.Blameless) (hformed : ∀ w ∈ pool.workers, w.phase.Formed claiming)
    (hs : pool.step q.toProblem claiming actor = some next) : next.Blameless := by
  obtain ⟨shared, workers, waiting⟩ := pool
  rcases step_cases hs with ⟨before, w, after, w', shared', rfl, hw, hacts, rfl⟩ |
    ⟨waiting', shared', rfl, hwaits, rfl⟩ | ⟨rfl, rfl⟩
  · obtain rfl : workers = _ := hw
    have hphase := hformed w (by simp)
    have hblameless := h.blameless w (by simp)
    suffices hnext : shared'.faults = [] ∧ ∀ n fault, w'.phase ≠ .blame n fault from
      ⟨hnext.1, forall_mem_replace h.blameless (fun _ h => h) hnext.2⟩
    generalize w.phase = phase at hacts hphase hblameless
    cases hacts with
    | @task n stage progress shared'' ht =>
      have hfailed := Stage.Formed.isFailed_step (q := q) hphase shared
      rw [ht] at hfailed
      refine ⟨(Stage.frame_of_step_eq ht).faults.trans h.faults, fun m fault => ?_⟩
      cases progress with
      | failed => cases hfailed
      | _ => nofun
    | blamed => exact absurd rfl (hblameless _ _)
    | @completed n children exhausted queue coin' hc =>
      refine ⟨h.faults, fun m fault => ?_⟩
      cases exhausted <;> nofun
    | _ => exact ⟨h.faults, nofun⟩
  · cases hwaits <;> exact ⟨h.faults, h.blameless⟩
  · exact ⟨h.faults, h.blameless⟩

theorem Calm.step (h : pool.Calm) (hformed : ∀ w ∈ pool.workers, w.phase.Formed claiming)
    (hactor : actor ≠ .outsider) (hs : pool.step q.toProblem claiming actor = some next) : next.Calm := by
  obtain ⟨hfaults, hblameless⟩ := Blameless.step ⟨h.faults, h.blameless⟩ hformed hs
  exact ⟨(stopped_eq_of_step q.neverStops_toProblem hactor hs).trans h.stopped, hfaults, hblameless⟩

variable [LawfulFrontier F (Node S M)]

theorem Calm.follow (hrecord : q.alreadySeen = .record) (hwatched : Watched q claiming past pool)
    (h : pool.Calm) {actors : List Actor} (hactors : .outsider ∉ actors) :
    (pool.follow q.toProblem claiming actors).Calm := by
  induction actors generalizing pool past with
  | nil => exact h
  | cons actor actors ih =>
    rw [List.mem_cons, not_or] at hactors
    show (((pool.step q.toProblem claiming actor).getD pool).follow q.toProblem claiming actors).Calm
    cases hs : pool.step q.toProblem claiming actor with
    | none => exact ih hwatched h hactors.2
    | some next =>
      exact ih (hwatched.step hrecord hs) (h.step hwatched.charted.formed (Ne.symm hactors.1) hs) hactors.2

/-- Nothing fails either if somebody asks for a stop. -/
theorem Blameless.follow (hrecord : q.alreadySeen = .record) (hwatched : Watched q claiming past pool)
    (h : pool.Blameless) (actors : List Actor) : (pool.follow q.toProblem claiming actors).Blameless := by
  induction actors generalizing pool past with
  | nil => exact h
  | cons actor actors ih =>
    show (((pool.step q.toProblem claiming actor).getD pool).follow q.toProblem claiming actors).Blameless
    cases hs : pool.step q.toProblem claiming actor with
    | none => exact ih hwatched h
    | some next => exact ih (hwatched.step hrecord hs) (h.step hwatched.charted.formed hs)

/-- What is known of a pool that a search with workers begins with. -/
structure Begins (q : PureProblem S M) (claiming : Claiming) (pool : Pool ω S M F ρ) : Prop where
  fresh : ∃ remaining, pool.IsFresh (.root q.initial remaining)
  watched : pool.Watched q claiming []
  calm : pool.Calm

theorem begins_start {frontier : F} (hs : Sound frontier) (he : nodes frontier = [])
    {seen : Std.HashSet S} {remaining : Cost}
    (hseen : ∀ s, s ∈ seen ↔ s ∈ claiming.states [(.root q.initial remaining : Node S M)]) (world : ω)
    (coin : ρ) (coins : List ρ) :
    (Pool.start { world, queue := (WorkQueue.seed { frontier } (.root q.initial remaining) coin).1, seen }
      coins).Begins q claiming := by
  have hfresh : (Pool.start _ coins).IsFresh (.root q.initial remaining) :=
    isFresh_start hs he world false seen coin coins
  refine ⟨⟨remaining, hfresh⟩, .of_isFresh hfresh rfl hseen, rfl, hfresh.faults, fun w hw n fault => ?_⟩
  rw [hfresh.idle w hw]
  nofun

end Pool

/-! ### Few states -/

/-- States that are alike are recorded as one, and there are so few that no search runs out of steps. -/
structure PureProblem.Foldable (q : PureProblem S M) (rep : S → S) (states : List S) : Prop where
  folds : q.Folds rep
  consistent : q.Consistent
  confines : q.rules.Confines rep states
  initial : q.initial ∈ states
  few : 2 * q.rules.efforts states + 11 < PoolSearch.stepLimit

namespace PureProblem.Foldable

variable {rep : S → S} {states : List S} (h : q.Foldable rep states)
include h

omit [DecidableEq S] [Hashable S] in
theorem finite : {s | q.Reachable s}.Finite :=
  (List.finite_toSet states).subset fun _ hs => h.confines.mem_of_reachable h.initial hs

omit [DecidableEq S] [Hashable S] in
theorem records : (q.toProblem : Problem ω S M).Records rep := by
  intro s world query hquery
  cases hquery
  exact h.folds.record s

omit [DecidableEq S] [Hashable S] in
theorem room : 1 + q.rules.efforts states < Stats.counterLimit := by
  have hfew := h.few
  unfold PoolSearch.stepLimit at hfew
  unfold Stats.counterLimit
  omega

end PureProblem.Foldable

/-- To a search the problem is one of functions that records states as they are, with so few states that none is
counted too far. A* expands none of them twice. -/
structure Problem.Modest (p : Problem ω S M) (q : PureProblem S M) (states : List S) : Prop where
  agrees : p.Agrees q
  record : q.alreadySeen = .record
  consistent : q.Consistent
  confines : q.rules.Confines id states
  initial : q.initial ∈ states
  few : 2 * q.rules.efforts states + 11 < PoolSearch.stepLimit
  once : ∀ {arena after : Arena ω} {ns : List (Node S M)} {goal : Option (Node S M)},
    BestFirst.Course q .deaf ∅ (BestFirst.seedling q) arena ns goal after → (ns.map Node.state).Nodup

theorem Problem.Modest.foldable {p : Problem ω S M} {states : List S} (hp : p.Modest q states) :
    q.Foldable id states :=
  ⟨q.folds_id hp.record, hp.consistent, hp.confines, hp.initial, hp.few⟩

/-- The search comes to an answer, a path if and only if this is so, and nobody reports a fault. -/
def Act.Answers (act : Act ω (Option (Option (Path M)))) (solvable : Prop) (arena : Arena ω) : Prop :=
  ∃ path final, act arena = .ok (some path) final ∧ final.faults = [] ∧ (path.isSome = true ↔ solvable)

omit [DecidableEq S] [Hashable S] in
theorem Act.Answers.of_ok {act : Act ω (Option (Path M))} {path : Option (Path M)} {arena final : Arena ω}
    {solvable : Prop} (h : act arena = .ok path final) (hfaults : final.faults = [])
    (hiff : path.isSome = true ↔ solvable) : (some <$> act).Answers solvable arena := by
  refine ⟨path, final, ?_, hfaults, hiff⟩
  show EStateM.map some act arena = _
  unfold EStateM.map
  rw [h]

variable {p : Problem ω S M} {states : List S} {arena : Arena ω}

/-! ### Searches with workers -/

namespace Pool

variable [Frontier F (Node S M)] [LawfulFrontier F (Node S M)] [Coin ρ] {pool : Pool ω S M F ρ}

namespace Begins

theorem exists_drive (h : pool.Begins q claiming) (hp : p.Modest q states) (hone : pool.workers.length = 1) :
    ∃ actors goal, .outsider ∉ actors ∧
      pool.drive q.toProblem claiming none PoolSearch.stepLimit ⟨0, pool.workers.map fun _ => 0⟩ =
        some (pool.follow q.toProblem claiming actors) ∧
      (pool.follow q.toProblem claiming actors).outcome? = some goal := by
  obtain ⟨remaining, hfresh⟩ := h.fresh
  have hrespects := q.follows_rules (ω := ω).respects
  have hplain : (q.toProblem : Problem ω S M).Plain := PureProblem.plain_toProblem hp.record
  have hne : pool.workers ≠ [] := List.ne_nil_of_length_pos (hone ▸ Nat.one_pos)
  have hfew := hp.few
  cases claiming with
  | whenGenerated =>
    exact hfresh.exists_drive_whenGenerated hrespects hp.initial hne hplain hp.confines.closed (by omega)
  | whenTaken =>
    exact hfresh.exists_drive_whenTaken hrespects hp.initial hne hplain.records hp.confines (by omega)

theorem exists_outcome (h : pool.Begins q claiming) (hp : p.Modest q states) (hne : pool.workers ≠ [])
    {schedule : Nat → Actor} (hfair : Fair pool.workers.length schedule) :
    ∃ k goal, (pool.played q.toProblem claiming schedule k).outcome? = some goal := by
  obtain ⟨remaining, hfresh⟩ := h.fresh
  have hrespects := q.follows_rules (ω := ω).respects
  have hplain : (q.toProblem : Problem ω S M).Plain := PureProblem.plain_toProblem hp.record
  cases claiming with
  | whenGenerated => exact hfresh.exists_outcome hrespects hplain hp.confines.closed hp.initial hne hfair
  | whenTaken =>
    exact hfresh.exists_outcome_whenTaken hrespects hplain.records hp.confines hp.initial hne hfair

/-- What the pool comes to is right. -/
theorem answers (h : pool.Begins q claiming) (hrecord : q.alreadySeen = .record) {actors : List Actor}
    {goal : Option (Node S M)} (hactors : .outsider ∉ actors)
    (hout : (pool.follow q.toProblem claiming actors).outcome? = some goal) (arena : Arena ω) :
    (some <$> PoolSearch.finish q.toProblem (pool.follow q.toProblem claiming actors) goal).Answers
      q.Solvable arena := by
  have hcalm := h.calm.follow hrecord h.watched hactors
  obtain ⟨final, hfinish⟩ :=
    PoolSearch.exists_finish q (pool.follow q.toProblem claiming actors) goal arena
  obtain ⟨-, hfaults, -⟩ := (PoolSearch.wp_finish_arena q.toProblem _ goal).of_eq_ok hfinish
  refine .of_ok hfinish ?_ ?_
  · rw [hfaults, hcalm.faults]
    rfl
  · rw [Option.isSome_map]
    exact (h.watched.follow hrecord actors).isSome_iff hout hcalm.stopped

end Begins

end Pool

namespace PoolSearch

variable [Coin ρ] {plan : Plan ρ}

/-- As long as nobody asks the pool to stop, it answers with a path if and only if this is so. It does end if
everybody has a turn again and again. -/
structure Decides (p : Problem ω S M) (claiming : Claiming) [Frontier F (Node S M)]
    (pool : Pool ω S M F ρ) (arena : Arena ω) (solvable : Prop) : Prop where
  result : ∀ actors goal, .outsider ∉ actors → (pool.follow p claiming actors).outcome? = some goal →
    (some <$> finish p (pool.follow p claiming actors) goal).Answers solvable arena
  ends : ∀ schedule, Pool.Fair pool.workers.length schedule →
    ∃ k goal, (pool.played p claiming schedule k).outcome? = some goal

section

variable [Frontier F (Node S M)] [LawfulFrontier F (Node S M)] {pool : Pool ω S M F ρ}

theorem decides_of_begins (hp : p.Modest q states) (h : pool.Begins q claiming) (hne : pool.workers ≠ []) :
    Decides p claiming pool arena q.Solvable := by
  have hfollow : ∀ actors, pool.follow p claiming actors = pool.follow q.toProblem claiming actors :=
    Pool.follow_eq_of_agrees hp.agrees h.watched.carries
  refine ⟨fun actors goal hactors hout => ?_, fun schedule hfair => ?_⟩
  · rw [hfollow] at hout ⊢
    rw [finish_eq_of_agrees hp.agrees]
    exact h.answers hp.record hactors hout arena
  · obtain ⟨k, goal, hout⟩ := h.exists_outcome hp hne hfair
    exact ⟨k, goal, (congrArg Pool.outcome? (hfollow _)).trans hout⟩

theorem run_answers (hp : p.Modest q states) (h : pool.Begins q claiming) (hone : pool.workers.length = 1) :
    (run p claiming none pool).Answers q.Solvable arena := by
  obtain ⟨actors, goal, hactors, hdrive, hout⟩ := h.exists_drive hp hone
  rw [run_eq_of_agrees hp.agrees h.watched.carries, run_eq hdrive hout]
  exact h.answers hp.record hactors hout arena

end

theorem exists_prepareConcurrent (hp : p.Modest q states) (placement : Placement) (plan : Plan ρ)
    (hopen : arena.stopped = false) :
    ∃ pool, prepareConcurrent p placement plan arena = .ok pool arena ∧ pool.Begins q .whenGenerated ∧
      pool.workers.length = plan.coins.length := by
  have hinquire : inquire (q.toProblem : Problem ω S M) q.initial (∅ : Std.HashSet S) arena =
      .ok (false, (∅ : Std.HashSet S).insert q.initial) arena :=
    inquire_eq (o := .deaf) (by rw [hp.record, SeenQuery.run_record, Std.HashSet.contains_empty])
  have hseen : ∀ s, s ∈ (∅ : Std.HashSet S).insert q.initial ↔
      s ∈ Claiming.whenGenerated.states [(.root q.initial 0 : Node S M)] := by
    intro s
    rw [Std.HashSet.mem_insert, beq_iff_eq]
    simp [Claiming.states, Node.root, eq_comm]
  obtain ⟨world, stopped, stats, faults⟩ := arena
  obtain rfl : stopped = false := hopen
  have hsound : Sound ({ placement } : BiasedDeque S M) := trivial
  refine ⟨_, ?_, Pool.begins_start hsound rfl hseen world plan.first plan.coins, List.length_map _⟩
  rw [prepareConcurrent_eq_of_agrees hp.agrees]
  exact bind_eq hinquire

theorem exists_prepareAStar (hp : p.Modest q states) (plan : Plan ρ) (hopen : arena.stopped = false) :
    ∃ pool, prepareAStar p plan arena = .ok pool arena ∧ pool.Begins q .whenTaken ∧
      pool.workers.length = plan.coins.length := by
  have hseen : ∀ s, s ∈ (∅ : Std.HashSet S) ↔
      s ∈ Claiming.whenTaken.states [(.root q.initial (q.heuristic q.initial) : Node S M)] :=
    fun s => iff_of_false Std.HashSet.not_mem_empty List.not_mem_nil
  obtain ⟨world, stopped, stats, faults⟩ := arena
  obtain rfl : stopped = false := hopen
  refine ⟨_, ?_, Pool.begins_start OpenList.Sound.empty rfl hseen world plan.first plan.coins,
    List.length_map _⟩
  rw [prepareAStar_eq_of_agrees hp.agrees]
  exact bind_eq (ask_answer _)

theorem concurrent_answers (hp : p.Modest q states) (placement : Placement) (hone : plan.coins.length = 1)
    (hopen : arena.stopped = false) : (concurrent p placement plan none).Answers q.Solvable arena := by
  obtain ⟨pool, hprepare, hbegins, hlength⟩ := exists_prepareConcurrent hp placement plan hopen
  unfold Answers concurrent
  rw [bind_eq hprepare]
  exact run_answers hp hbegins (hlength.trans hone)

theorem concurrentAStar_answers (hp : p.Modest q states) (hone : plan.coins.length = 1)
    (hopen : arena.stopped = false) : (concurrentAStar p plan none).Answers q.Solvable arena := by
  obtain ⟨pool, hprepare, hbegins, hlength⟩ := exists_prepareAStar hp plan hopen
  unfold Answers concurrentAStar
  rw [bind_eq hprepare]
  exact run_answers hp hbegins (hlength.trans hone)

end PoolSearch

/-! ### All searches -/

/-- Nothing has been counted yet, nobody has asked for a stop, and nobody has reported a fault. -/
structure Arena.IsFresh (arena : Arena ω) : Prop where
  stopped : arena.stopped = false
  stats : arena.stats.expanded = 0 ∧ arena.stats.generated = 0 ∧ arena.stats.duplicates = 0
  faults : arena.faults = []

/-- The arena of a search that works alone. -/
def Arena.single (world : ω) : Arena ω where
  world
  stats := { workers := 1 }

theorem Arena.isFresh_single (world : ω) : (Arena.single world).IsFresh :=
  ⟨rfl, ⟨rfl, rfl, rfl⟩, rfl⟩

namespace PureProblem.Foldable

variable {rep : S → S} (h : q.Foldable rep states)
include h

theorem exists_exhaustive_eq (harena : arena.IsFresh) (d : Discipline) :
    ∃ path final, Exhaustive.solve d q.toProblem arena = .ok path final ∧ final.faults = [] ∧
      (path.isSome = true ↔ q.Solvable) ∧ q.CountsOnce rep final.stats.expanded := by
  have hroom := h.room
  obtain ⟨path, final, hsolve, hfaults, hiff, hcount⟩ := Exhaustive.exists_solve_eq h.folds h.confines h.initial
    (by omega) harena.stopped harena.stats d
  exact ⟨path, final, hsolve, hfaults.trans harena.faults, hiff, hcount⟩

theorem exists_bestFirst_eq (harena : arena.IsFresh)
    (hnodup : ∀ ns goal after, BestFirst.Course q .deaf ∅ (BestFirst.seedling q) arena ns goal after →
      q.IsOptimum (goal.map Node.toPath) → (ns.map fun n => rep n.state).Nodup) :
    ∃ path final, BestFirst.solve q.toProblem arena = .ok path final ∧ final.faults = [] ∧
      q.IsOptimum path ∧ q.CountsOnce rep final.stats.expanded := by
  obtain ⟨path, final, hsolve, hfaults, hright⟩ := BestFirst.exists_solve_eq h.folds h.consistent h.confines
    h.initial h.room harena.stopped harena.stats hnodup
  exact ⟨path, final, hsolve, hfaults.trans harena.faults, hright⟩

end PureProblem.Foldable

theorem Exhaustive.solve_answers (hp : p.Modest q states) (d : Discipline) (harena : arena.IsFresh) :
    (some <$> solve d p).Answers q.Solvable arena := by
  obtain ⟨path, final, hsolve, hfaults, hiff, -⟩ := hp.foldable.exists_exhaustive_eq harena d
  rw [solve_eq_of_agrees hp.agrees]
  exact .of_ok hsolve hfaults hiff

theorem BestFirst.solve_answers (hp : p.Modest q states) (harena : arena.IsFresh) :
    (some <$> solve p).Answers q.Solvable arena := by
  obtain ⟨path, final, hsolve, hfaults, hright, -⟩ :=
    hp.foldable.exists_bestFirst_eq harena fun ns goal after hcourse _ => hp.once hcourse
  rw [solve_eq_of_agrees hp.agrees]
  exact .of_ok hsolve hfaults (PureProblem.IsOptimum.isSome_iff hright)

namespace Solver

variable {solver : Solver} {world : ω} {solvable : Prop}

theorem search_answers (hp : p.Modest q states)
    (hone : solver.strategy.isShared = true → solver.workers = 1) :
    (solver.search p none).Answers q.Solvable (solver.arena world) := by
  have hfresh : (solver.arena world).IsFresh := ⟨rfl, ⟨rfl, rfl, rfl⟩, rfl⟩
  have hcoins : solver.plan.coins.length = solver.workers := by simp [plan, PoolSearch.Plan.ofSeed]
  unfold search
  cases hstrategy : solver.strategy with
  | depthFirst => exact Exhaustive.solve_answers hp .depthFirst hfresh
  | breadthFirst => exact Exhaustive.solve_answers hp .breadthFirst hfresh
  | aStar => exact BestFirst.solve_answers hp hfresh
  | concurrent =>
    exact PoolSearch.concurrent_answers hp _ (hcoins.trans (hone (by rw [hstrategy]; rfl))) rfl
  | concurrentAStar =>
    exact PoolSearch.concurrentAStar_answers hp (hcoins.trans (hone (by rw [hstrategy]; rfl))) rfl

/-- A solver whose search comes to an answer gives it, whether or not it is asked for faults. -/
theorem exists_answered (h : (solver.search p none).Answers solvable (solver.arena world)) :
    ∃ path, (solver.solve p world).2.2 = .answered path ∧ (solver.trySolve p world).2.2 = .answered path ∧
      (path.isSome = true ↔ solvable) := by
  obtain ⟨path, final, hsearch, hfaults, hiff⟩ := h
  have hending : endingOf final.faults (some path) = .answered path := by
    rw [hfaults]
    cases path <;> rfl
  have htry : solver.trySolve p world = (solver.keep final, final.world, .answered path) := by
    unfold trySolve close
    rw [hsearch]
    simp only [hending]
  refine ⟨path, ?_, by rw [htry], hiff⟩
  unfold solve forgive
  rw [htry]

end Solver

end StateSearch
