import StateSearch.Program
import StateSearch.Proofs.BestFirst
import StateSearch.Proofs.Exhaustive
import StateSearch.Proofs.Pool.Nodes

/-!
# Paths that are returned are solutions

`Returns p path strategy` lists all the ways in which a search can come to return a path: for the
searches with workers, these are all orders in which the actors can take their steps. Whatever the
heuristic, the costs and the answers about seen states, such a path is a solution, and both checks of a
path confirm it (`returned_path_is_solution`). So the program, which checks each path before it reports
it, never finds a wrong one.
-/

namespace StateSearch

open StateSearch.Random Act

variable {ω S M : Type} {rules : Rules S M} {p : Problem ω S M}

namespace BestFirst

variable {waiting : OpenList S M} {arena : Arena ω} {n : Node S M}

/-- An open list of genuine nodes. -/
structure Genuine (rules : Rules S M) (waiting : OpenList S M) : Prop where
  sound : waiting.Sound
  nodes : ∀ n ∈ waiting.toList, n.Genuine rules

theorem Genuine.push (h : Genuine rules waiting) (hn : n.Genuine rules) :
    Genuine rules (waiting.push n) := by
  refine ⟨h.sound.push n, fun n' hn' => ?_⟩
  rcases List.mem_cons.1 ((OpenList.toList_push h.sound n).mem_iff.1 hn') with rfl | hn'
  · exact hn
  · exact h.nodes n' hn'

variable [DecidableEq S] [Hashable S] {closed : Std.HashMap S Cost}

theorem wp_explore_genuine (hp : p.Respects rules) (hn : n.Genuine rules) {moves : List M}
    (hm : ∀ m ∈ moves, rules.IsLegal n.state m) (hw : Genuine rules waiting) :
    wp (explore p n closed moves waiting) (fun waiting _ => Genuine rules waiting)
      (fun _ _ => True) arena := by
  induction moves generalizing waiting arena with
  | nil => exact hw
  | cons m rest ih =>
    have hrest : ∀ m ∈ rest, rules.IsLegal n.state m := fun m hm' => hm m (List.mem_cons_of_mem _ hm')
    simp only [explore, wp_bind]
    refine wp_ask _ (fun t _ _ ht => ?_) fun _ _ _ _ => trivial
    refine wp_countGenerated (fun _ => ?_) fun _ => trivial
    refine wp_ask _ (fun c _ _ hc => ?_) fun _ _ _ _ => trivial
    split
    · rw [wp_bind]
      exact wp_countDuplicate (fun _ => ih hrest hw) fun _ => trivial
    · rw [wp_bind]
      refine wp_ask _ (fun remaining _ _ _ => ih hrest (hw.push ?_)) fun _ _ _ _ => trivial
      exact hn.child ⟨hm m (List.mem_cons_self ..), hp.applyMove ht, hp.moveCost hc⟩ remaining

theorem wp_turn_genuine (hp : p.Respects rules) (hw : Genuine rules waiting) :
    wp (turn p closed waiting) (fun result after => result.Ends
      (fun _ waiting _ => Genuine rules waiting) (fun goal _ => ∀ n ∈ goal, n.Solves rules) after)
      (fun _ _ => True) arena := by
  have hnone : ∀ n ∈ (none : Option (Node S M)), n.Solves rules := nofun
  refine wp_turn_taken (fun _ => hnone) (fun _ => hnone) fun n rest ht _ => ?_
  have hmem := fun c => (OpenList.toList_of_pop? ht).mem_iff (a := c)
  have hn := hw.nodes n ((hmem n).2 (List.mem_cons_self ..))
  have hrest : Genuine rules rest :=
    ⟨hw.sound.of_pop? ht, fun c hc => hw.nodes c ((hmem c).2 (List.mem_cons_of_mem _ hc))⟩
  rw [claim, wp_bind]
  apply wp_of_forall_ok
  rintro ⟨known, closed'⟩ after -
  cases known with
  | true =>
    simp only [if_true, wp_bind]
    exact wp_countDuplicate (fun _ => hrest) fun _ => trivial
  | false =>
    simp only [Bool.false_eq_true, if_false, BestFirst.expand, wp_bind]
    refine wp_countExpanded (fun _ => ?_) fun _ => trivial
    refine wp_ask _ (fun reached _ _ hr => ?_) fun _ _ _ _ => trivial
    split
    · rename_i hreached
      intro n' hn'
      cases hn'
      exact ⟨hn, hp.isGoal (hreached ▸ hr)⟩
    · rw [wp_bind]
      refine wp_ask _ (fun moves _ _ hm => ?_) fun _ _ _ _ => trivial
      rw [wp_bind]
      refine (wp_explore_genuine hp hn (fun m hm' => ⟨moves, hp.legalMoves hm, hm'⟩) hrest).mono ?_
      intro waiting' after hwaiting
      rw [wp_bind]
      exact wp_ask _ (fun _ _ _ _ => hwaiting) fun _ _ _ _ => trivial

end BestFirst

namespace Problem

/-- A call that is not answered in time still gives no wrong answer. -/
theorem result_of_timedCall {α : Type} {duration limit : Nat} {call : Call ω α} {clocked : Clocked ω}
    {value : α} (h : (timedCall duration limit call clocked).result = .ok value) :
    (call clocked.world).result = .ok value := by
  unfold timedCall at h
  dsimp only at h
  split at h
  · cases h
  · exact h

theorem Respects.timed (hp : p.Respects rules) (limit : Nat) : (p.timed limit).Respects rules where
  initial := hp.initial
  isGoal h := hp.isGoal (result_of_timedCall h)
  legalMoves h := hp.legalMoves (result_of_timedCall h)
  applyMove h := hp.applyMove (result_of_timedCall h)
  moveCost h := hp.moveCost (result_of_timedCall h)

end Problem

/-! ### All ways of returning a path -/

variable {path : Path M} {arena after : Arena ω}

theorem path_of_conclude {goal : Option (Node S M)} {result : Option (Path M)}
    (h : conclude p goal arena = .ok result after) : result = goal.map Node.toPath := by
  obtain ⟨_, _, -, h⟩ := of_bind_eq_ok h
  obtain ⟨_, _, -, h⟩ := of_bind_eq_ok h
  obtain ⟨_, _, -, h⟩ := of_bind_eq_ok h
  cases h
  rfl

theorem Rules.solves_of_eq_map {goal : Option (Node S M)} (hg : ∀ n ∈ goal, n.Solves rules)
    (h : some path = goal.map Node.toPath) : rules.Solves path := by
  obtain ⟨n, rfl, rfl⟩ := Option.map_eq_some_iff.1 h.symm
  exact (hg n rfl).toPath

variable [DecidableEq S] [Hashable S]

/-- A search of `p` by this strategy can return `path`. The searches with workers may have any coins,
as many workers as there are coins, and any placement, and their actors may act in any order. -/
inductive Returns (p : Problem ω S M) (path : Path M) : Strategy → Prop
  | depthFirst {arena after : Arena ω}
      (h : Exhaustive.solve .depthFirst p arena = .ok (some path) after) : Returns p path .depthFirst
  | breadthFirst {arena after : Arena ω}
      (h : Exhaustive.solve .breadthFirst p arena = .ok (some path) after) :
    Returns p path .breadthFirst
  | aStar {arena after : Arena ω} (h : BestFirst.solve p arena = .ok (some path) after) :
    Returns p path .aStar
  | concurrent {ρ : Type} [Coin ρ] {placement : Placement} {plan : PoolSearch.Plan ρ}
      {arena middle after : Arena ω} {pool : Pool ω S M (BiasedDeque S M) ρ}
      {goal : Option (Node S M)}
      (hprepare : PoolSearch.prepareConcurrent p placement plan arena = .ok pool middle)
      (actors : List Actor) (hend : (pool.follow p .whenGenerated actors).outcome? = some goal)
      (h : PoolSearch.finish p (pool.follow p .whenGenerated actors) goal middle =
        .ok (some path) after) : Returns p path .concurrent
  | concurrentAStar {ρ : Type} [Coin ρ] {plan : PoolSearch.Plan ρ} {arena middle after : Arena ω}
      {pool : Pool ω S M (OpenList S M) ρ} {goal : Option (Node S M)}
      (hprepare : PoolSearch.prepareAStar p plan arena = .ok pool middle)
      (actors : List Actor) (hend : (pool.follow p .whenTaken actors).outcome? = some goal)
      (h : PoolSearch.finish p (pool.follow p .whenTaken actors) goal middle =
        .ok (some path) after) : Returns p path .concurrentAStar

theorem Exhaustive.solves_of_solve {d : Discipline} (hp : p.Respects rules)
    (h : Exhaustive.solve d p arena = .ok (some path) after) : rules.Solves path := by
  obtain ⟨⟨known, seen⟩, between, -, h⟩ := of_bind_eq_ok h
  obtain ⟨goal, between', hrun, h⟩ := of_bind_eq_ok h
  refine Rules.solves_of_eq_map ?_ (path_of_conclude h)
  refine (Exhaustive.wp_run_solves hp fun c hc => ?_).of_eq_ok hrun
  rw [Deque.toList_pushBack, Deque.toList_empty, List.nil_append] at hc
  rw [List.mem_singleton.1 hc, hp.initial]
  exact .root 0

theorem BestFirst.solves_of_solve (hp : p.Respects rules)
    (h : BestFirst.solve p arena = .ok (some path) after) : rules.Solves path := by
  obtain ⟨remaining, between, -, h⟩ := of_bind_eq_ok h
  obtain ⟨goal, between', hrun, h⟩ := of_bind_eq_ok h
  refine Rules.solves_of_eq_map ?_ (path_of_conclude h)
  refine (BestFirst.wp_run (fun _ _ _ h => BestFirst.wp_turn_genuine hp h) ?_).of_eq_ok hrun
  have hempty : BestFirst.Genuine rules (OpenList.empty : OpenList S M) :=
    ⟨.empty, fun n hn => by simp [OpenList.empty, OpenList.toList] at hn⟩
  rw [hp.initial]
  exact hempty.push (.root remaining)

/-- What a pool of genuine nodes found is a solution. -/
theorem Pool.Carries.solves_of_finish {F ρ : Type} [Frontier F (Node S M)]
    [LawfulFrontier F (Node S M)] {claiming : Claiming} {pool : Pool ω S M F ρ}
    {goal : Option (Node S M)} (hg : pool.Carries p rules (Node.Genuine rules) claiming)
    (hend : pool.outcome? = some goal)
    (h : PoolSearch.finish p pool goal arena = .ok (some path) after) : rules.Solves path := by
  refine Rules.solves_of_eq_map (fun n hn => ?_) (PoolSearch.path_of_finish h)
  obtain ⟨hgenuine, hgoal⟩ := hg.of_outcome? (hend.trans (congrArg some hn))
  exact ⟨hgenuine, hgoal⟩

theorem Returns.solves {strategy : Strategy} (hp : p.Respects rules)
    (h : Returns p path strategy) : rules.Solves path := by
  cases h with
  | depthFirst h => exact Exhaustive.solves_of_solve hp h
  | breadthFirst h => exact Exhaustive.solves_of_solve hp h
  | aStar h => exact BestFirst.solves_of_solve hp h
  | concurrent hprepare actors hend h =>
    have hfresh := (PoolSearch.isFresh_of_prepareConcurrent hprepare).1
    have hcarries : Pool.Carries p rules (Node.Genuine rules) .whenGenerated _ :=
      hfresh.carries (by rw [hp.initial]; exact .root 0)
    exact (hcarries.follow hp (inherited_genuine p rules _) actors).solves_of_finish hend h
  | concurrentAStar hprepare actors hend h =>
    obtain ⟨remaining, -, -, hfresh, -⟩ := PoolSearch.isFresh_of_prepareAStar hprepare
    have hcarries : Pool.Carries p rules (Node.Genuine rules) .whenTaken _ :=
      hfresh.carries (by rw [hp.initial]; exact .root remaining)
    exact (hcarries.follow hp (inherited_genuine p rules _) actors).solves_of_finish hend h

/-! ### Solvers -/

namespace Solver

variable {solver : Solver} {limit : Option Nat} {world : ω}

theorem returns_of_search
    (h : solver.search p limit arena = .ok (some (some path)) after) :
    Returns p path solver.strategy := by
  unfold search at h
  cases hs : solver.strategy with
  | depthFirst =>
    simp only [hs] at h
    obtain ⟨_, _, hr, h⟩ := of_bind_eq_ok h
    cases h
    exact .depthFirst hr
  | breadthFirst =>
    simp only [hs] at h
    obtain ⟨_, _, hr, h⟩ := of_bind_eq_ok h
    cases h
    exact .breadthFirst hr
  | aStar =>
    simp only [hs] at h
    obtain ⟨_, _, hr, h⟩ := of_bind_eq_ok h
    cases h
    exact .aStar hr
  | concurrent =>
    simp only [hs] at h
    obtain ⟨pool, middle, hprepare, h⟩ := of_bind_eq_ok h
    obtain ⟨actors, goal, hend, h⟩ := PoolSearch.exists_outcome_of_run h
    exact .concurrent hprepare actors hend h
  | concurrentAStar =>
    simp only [hs] at h
    obtain ⟨pool, middle, hprepare, h⟩ := of_bind_eq_ok h
    obtain ⟨actors, goal, hend, h⟩ := PoolSearch.exists_outcome_of_run h
    exact .concurrentAStar hprepare actors hend h

theorem returns_of_trySolve (h : (solver.trySolve p world limit).2.2 = .answered (some path)) :
    Returns p path solver.strategy := by
  unfold trySolve close at h
  split at h
  · rename_i result after hr
    rcases result with _ | _ | path'
    · cases h
    · simp only [endingOf] at h
      split at h <;> cases h
    · cases h
      exact returns_of_search hr
  · cases h

theorem returns_of_solve (h : (solver.solve p world limit).2.2 = .answered (some path)) :
    Returns p path solver.strategy := by
  unfold solve forgive at h
  split at h
  · cases h
  · exact returns_of_trySolve h

theorem solves_of_solveWithin {limit : Nat} (hp : p.Respects rules)
    (h : (solver.solveWithin p limit world).2.2 = .answered (some path)) : rules.Solves path := by
  have huntil : (solver.solveUntil p (1000000 * limit) world).2.2.2 = .answered (some path) := by
    unfold solveWithin at h
    split at h
    · cases h
    · cases h
    · rename_i heq
      rw [heq]
      exact h
  unfold solveUntil at huntil
  split at huntil
  · split at huntil
    · cases huntil
    · exact (returns_of_solve huntil).solves hp
  · exact (returns_of_solve huntil).solves (hp.timed _)

end Solver

/-! ### The program -/

/-- What the host gives back of work that it did is what the work comes to. -/
def Host.Honest (host : Host Id) : Prop :=
  ∀ (α : Type) (limit : Nat) (work : Unit → α) (result : α),
    host.within limit work = some result → result = work ()

namespace Program

variable {p : Problem Unit S M} {host : Host Id} {config : Config} {scenario : Scenario}

theorem solves_of_search (hhost : host.Honest) (hp : p.Respects rules)
    (h : (search host config p).2 = .answered (some path)) : rules.Solves path := by
  unfold search at h
  cases ht : config.timeout with
  | none =>
    simp only [ht] at h
    exact (Solver.returns_of_solve h).solves hp
  | some limit =>
    simp only [ht] at h
    have hp' : { p with pace := host.pace }.Respects rules :=
      ⟨hp.initial, hp.isGoal, hp.legalMoves, hp.applyMove, hp.moveCost⟩
    cases hw : host.within limit.toNat fun _ =>
        (Solver.new config.strategy config.search).solveWithin { p with pace := host.pace }
          limit.toNat () with
    | none =>
      simp only [bind, pure, hw] at h
      cases h
    | some result =>
      simp only [bind, pure, hw] at h
      rw [hhost _ _ _ _ hw] at h
      exact Solver.solves_of_solveWithin hp' h

/-- No path was found wrong. -/
def Clean {α : Type} (act : ExceptT RunError Id α) : Prop :=
  ∀ name, act ≠ .error (.wrongPath name)

theorem clean_pure {α : Type} (value : α) : Clean (pure value) := fun _ h => nomatch h

theorem clean_throw {α : Type} {error : RunError} (h : ∀ name, error ≠ .wrongPath name) :
    Clean (throw error : ExceptT RunError Id α) := by
  intro name heq
  cases heq
  exact h name rfl

theorem clean_lift {α : Type} (value : Id α) : Clean (liftM value) := fun _ h => nomatch h

theorem clean_mapError {α ε : Type} {f : ε → RunError} (h : ∀ error name, f error ≠ .wrongPath name)
    (result : Except ε α) : Clean (ExceptT.mk (pure (result.mapError f))) := by
  intro name heq
  cases result with
  | ok value => cases heq
  | error error => exact h error name (Except.error.inj heq)

theorem Clean.bind {α β : Type} {act : ExceptT RunError Id α} {next : α → ExceptT RunError Id β}
    (h : Clean act) (hn : ∀ value, Clean (next value)) : Clean (act >>= next) := by
  intro name heq
  change ExceptT.bindCont next act = _ at heq
  cases act with
  | ok value => exact hn value name heq
  | error error =>
    cases heq
    exact h name rfl

theorem Clean.mapM {α β : Type} {f : α → ExceptT RunError Id β} (h : ∀ value, Clean (f value))
    (values : List α) : Clean (values.mapM f) := by
  induction values with
  | nil =>
    rw [List.mapM_nil]
    exact clean_pure _
  | cons value values ih =>
    rw [List.mapM_cons]
    exact (h value).bind fun result => ih.bind fun results => clean_pure _

variable [DecidableEq M]

theorem clean_solve (hhost : host.Honest) (hp : p.Follows rules) (moveText : M → String) :
    Clean (solve host config scenario p moveText) := by
  intro name h
  rcases hs : search host config p with ⟨solver, ending⟩
  simp only [solve, bind, ExceptT.bind, ExceptT.mk, ExceptT.bindCont, ExceptT.lift, Functor.map, hs]
    at h
  cases ending with
  | answered path =>
    cases path with
    | none =>
      simp only [Option.any_none, Bool.false_eq_true, if_false] at h
      cases h
    | some path =>
      have hpath := solves_of_search hhost hp.respects (congrArg Prod.snd hs)
      have hsolution := Problem.isSolution_of_solves hp hpath ()
      simp only [Option.any_some, hsolution, Bool.not_true, Bool.false_eq_true, if_false] at h
      cases h
  | failed error => cases h
  | abandoned fault => cases h
  | unfinished => cases h

/-- The rules of pouring. -/
def pouringRules (jugs : Puzzle.Pouring) : Rules Puzzle.Contents Puzzle.Pour where
  initial := (0, 0)
  isGoal contents := .ok (jugs.isGoal contents)
  legalMoves := jugs.pours
  applyMove := jugs.pour
  moveCost _ _ := .ok 1

theorem follows_pouringRules (jugs : Puzzle.Pouring) :
    (jugs.problem : Problem ω _ _).Follows (pouringRules jugs) where
  initial := rfl
  isGoal _ _ := rfl
  legalMoves _ _ := Call.result_ofExcept _ _
  applyMove _ _ _ := Call.result_ofExcept _ _
  moveCost _ _ _ := rfl

theorem clean_solveScenario (hhost : host.Honest) (scenario : Scenario) :
    Clean (solveScenario host config scenario) := by
  unfold solveScenario
  cases scenario.puzzle with
  | bridge speeds capacity folds =>
    simp only
    split
    · exact clean_solve hhost (PureProblem.follows_rules _) _
    · exact clean_throw fun _ => nofun
  | jugs jugs => exact clean_solve hhost (follows_pouringRules jugs) _

theorem clean_configure (host : Host Id) (line : CommandLine) : Clean (configure host line) := by
  have happly : ∀ config : Config,
      Clean (ExceptT.mk (pure ((line.apply config).mapError .settings))) :=
    fun config => clean_mapError (fun _ _ h => by cases h) _
  unfold configure
  cases line.config with
  | none => exact (clean_pure _).bind happly
  | some path =>
    refine Clean.bind (clean_lift _) fun opened => ?_
    cases opened with
    | text content =>
      simp only
      split
      · exact (clean_pure _).bind happly
      · exact Clean.bind (clean_throw fun _ => nofun) happly
    | missing => exact Clean.bind (clean_throw fun _ => nofun) happly
    | unreadable => exact Clean.bind (clean_throw fun _ => nofun) happly

theorem clean_scenarios (host : Host Id) (config : Config) : Clean (scenarios host config) := by
  unfold scenarios
  cases config.scenarioPath with
  | none => exact clean_pure _
  | some path => exact (clean_lift _).bind fun opened => clean_mapError (fun _ _ h => by cases h) _

theorem clean_execute (hhost : host.Honest) (line : CommandLine) : Clean (execute host line) := by
  refine (clean_configure host line).bind fun config => ?_
  refine (clean_scenarios host config).bind fun scenarios => ?_
  exact (Clean.mapM (clean_solveScenario hhost) scenarios).bind fun reports => clean_pure _

end Program

/-- Every path that a search returns is legal, ends in a goal and costs what it claims, and the program
never finds a wrong one. -/
theorem returned_path_is_solution :
    (∀ {ω S M : Type} [DecidableEq S] [Hashable S] [DecidableEq M] {p : Problem ω S M}
      {rules : Rules S M} {strategy : Strategy} {path : Path M},
      p.Follows rules → Returns p path strategy → rules.Solves path ∧ ∀ world,
        (p.isSolution path world).result = .ok true ∧
        ∃ goal, (p.replay path.moves world).result = .ok (some goal) ∧
          rules.isGoal goal = .ok true) ∧
    ∀ {host : Host Id}, host.Honest → ∀ (line : CommandLine) (name : String),
      Program.execute host line ≠ .error (.wrongPath name) := by
  refine ⟨fun hp h => ?_, fun hhost line => Program.clean_execute hhost line⟩
  have hsolves := h.solves hp.respects
  refine ⟨hsolves, fun world => ⟨Problem.isSolution_of_solves hp hsolves world, ?_⟩⟩
  obtain ⟨goal, route, hgoal⟩ := hsolves
  exact ⟨goal, Problem.replay_of_route hp route world, hgoal⟩

namespace Junction

theorem returns_levels :
    Returns (detour.toProblem : Problem Unit _ _) ⟨[middle, finish], 6⟩ .concurrent := by
  have hprepare : PoolSearch.prepareConcurrent detour.toProblem .tail ⟨(), [(), ()]⟩
      { world := () } = .ok levels { world := () } := rfl
  have hend : ((levels.follow detour.toProblem .whenGenerated turns).outcome?.map
      (Option.map Node.toPath)) = some (some ⟨[middle, finish], 6⟩) := by decide +kernel
  obtain ⟨goal, hgoal, hpath⟩ := Option.map_eq_some_iff.1 hend
  obtain ⟨after, hfinish⟩ := PoolSearch.exists_finish detour
    (levels.follow detour.toProblem .whenGenerated turns) goal { world := () }
  rw [hpath] at hfinish
  exact .concurrent hprepare turns hgoal hfinish

theorem returned_path_is_solution_levels :
    (detour.rules.Solves ⟨[middle, finish], 6⟩ ∧ ∀ world : Unit,
      (detour.toProblem.isSolution ⟨[middle, finish], 6⟩ world).result = .ok true ∧
      ∃ goal, (detour.toProblem.replay [middle, finish] world).result = .ok (some goal) ∧
        detour.rules.isGoal goal = .ok true) ∧
    ∀ (line : CommandLine) (name : String),
      Program.execute (Host.of { files := [] }) line ≠ .error (.wrongPath name) :=
  ⟨returned_path_is_solution.1 detour.follows_rules returns_levels,
    returned_path_is_solution.2 fun _ _ _ _ h => (Option.some.inj h).symm⟩

end Junction

end StateSearch
