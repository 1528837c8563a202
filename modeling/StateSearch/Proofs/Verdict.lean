import StateSearch.Proofs.Puzzle.Crossable
import StateSearch.Proofs.Puzzle.Measuring

/-!
# The program tells the truth

A search for a path of least cost that is given the time it needs, by A* or by a single worker, answers with
the cost of a best solution, or finds out that there is none. So what the program reports on a scenario is what is
true of its puzzle (`Program.solveScenario_cases`), and its verdict on all of them is right (`Program.verdict`).

The exception is that of A* on a bridge where the counters may come to their end (`Bridge.Overcounts`). Then the
program has no verdict.
-/

namespace StateSearch

open Act PoolSearch

/-! ### What is expected, and what is true -/

namespace PuzzleSpec

/-- The puzzle can be set up. -/
def Accepted : PuzzleSpec → Prop
  | .bridge speeds capacity folds => ∃ bridge, Puzzle.Bridge.make? speeds capacity folds = .ok bridge
  | .jugs _ => True

/-- Some legal moves solve the puzzle at this cost. -/
def HasSolution : PuzzleSpec → Cost → Prop
  | .bridge speeds capacity folds, cost => ∃ bridge, Puzzle.Bridge.make? speeds capacity folds = .ok bridge ∧
      ∃ crossings, bridge.problem.rules.Solves ⟨crossings, cost⟩
  | .jugs pouring, cost => ∃ pours, (Program.pouringRules pouring).Solves ⟨pours, cost⟩

/-- This is what the best solution costs, if there is one. -/
def IsLeast (puzzle : PuzzleSpec) : Option Cost → Prop
  | none => ∀ cost, ¬ puzzle.HasSolution cost
  | some cost => puzzle.HasSolution cost ∧ ∀ other, puzzle.HasSolution other → cost ≤ other

/-- A bridge on which A* counts further than its counters go. -/
def Overruns : PuzzleSpec → Prop
  | .bridge speeds capacity folds =>
    ∃ bridge, Puzzle.Bridge.make? speeds capacity folds = .ok bridge ∧ bridge.Overcounts ()
  | .jugs _ => False

end PuzzleSpec

namespace Scenario

/-- What is expected of the scenario is true. If there must be no solution, it does not matter what one should
cost. -/
def Holds (scenario : Scenario) : Prop :=
  if scenario.unsolvable then ∀ cost, ¬ scenario.puzzle.HasSolution cost
  else match scenario.expectedCost with
    | some expected => scenario.puzzle.HasSolution expected ∧
        ∀ cost, scenario.puzzle.HasSolution cost → expected ≤ cost
    | none => ∃ cost, scenario.puzzle.HasSolution cost

open Classical in
/-- The number of scenarios of which something is expected that is not true. -/
noncomputable def unmet (scenarios : List Scenario) : Nat :=
  scenarios.countP fun scenario => ¬ scenario.Holds

/-- Given the cost of the best solution, the expectation is met just if it is true. -/
theorem isMetBy_iff {scenario : Scenario} {cost : Option Cost} (h : scenario.puzzle.IsLeast cost) :
    scenario.isMetBy cost = true ↔ scenario.Holds := by
  unfold isMetBy Holds
  cases scenario.unsolvable with
  | true =>
    cases cost with
    | none => exact iff_of_true rfl h
    | some cost =>
      simp only [if_true, Option.isNone_some, Bool.false_eq_true, false_iff, not_forall, not_not]
      exact ⟨cost, h.1⟩
  | false =>
    simp only [Bool.false_eq_true, if_false]
    cases scenario.expectedCost with
    | none =>
      cases cost with
      | none => exact iff_of_false Bool.false_ne_true (not_exists.2 h)
      | some cost => exact iff_of_true rfl ⟨cost, h.1⟩
    | some expected =>
      cases cost with
      | none => exact iff_of_false (by simp) fun hleast => h expected hleast.1
      | some cost =>
        simp only [beq_iff_eq, Option.some.injEq]
        constructor
        · rintro rfl
          exact h
        · rintro ⟨hsolution, hleast⟩
          exact UInt64.le_antisymm (h.2 _ hsolution) (hleast _ h.1)

end Scenario

theorem PureProblem.IsBest.solves {S M : Type} {q : PureProblem S M} {path : Path M} (h : q.IsBest path) :
    q.rules.Solves path := by
  obtain ⟨goal, route, hgoal⟩ := h.route
  exact ⟨goal, route, congrArg Except.ok hgoal⟩

/-- The cost of a right answer is what the best solution costs. -/
theorem PuzzleSpec.isLeast_of_isOptimum {S M : Type} {puzzle : PuzzleSpec} {q : PureProblem S M}
    (hsolutions : ∀ cost, puzzle.HasSolution cost ↔ ∃ moves, q.rules.Solves ⟨moves, cost⟩)
    {path : Option (Path M)} (h : q.IsOptimum path) : puzzle.IsLeast (path.map Path.cost) := by
  cases path with
  | none =>
    intro cost hcost
    obtain ⟨moves, goal, route, hgoal⟩ := (hsolutions cost).1 hcost
    exact h ⟨goal, ⟨_, _, route⟩, Except.ok.inj hgoal⟩
  | some path =>
    refine ⟨(hsolutions _).2 ⟨path.moves, h.solves⟩, fun cost hcost => ?_⟩
    obtain ⟨moves, goal, route, hgoal⟩ := (hsolutions cost).1 hcost
    exact h.least _ _ _ route (Except.ok.inj hgoal)

variable {S M : Type} [DecidableEq S] [Hashable S]

namespace Solver

variable {ω : Type} {solver : Solver} {p : Problem ω S M} {world : ω} {limit : Option Nat} {final : Arena ω}

theorem solve_of_ok {path : Option (Path M)}
    (h : solver.search p limit (solver.arena world) = .ok (some path) final) :
    solver.solve p world limit = (solver.keep final, final.world, .answered path) := by
  unfold solve trySolve forgive close
  rw [h]
  cases path with
  | none => cases hfaults : final.faults.isEmpty <;> simp [endingOf, hfaults]
  | some path => rfl

theorem solve_of_error {fault : Fault} (h : solver.search p limit (solver.arena world) = .error fault final) :
    solver.solve p world limit = (solver.keep final, final.world, .abandoned fault) := by
  unfold solve trySolve forgive close
  rw [h]

end Solver

namespace Program

variable {host : Host Id} {config : Config} {scenario : Scenario} {p : Problem Unit S M} {q : PureProblem S M}
  {rep : S → S} {states : List S} {path : Option (Path M)} {solver : Solver}

/-! ### Searches -/

theorem search_eq_of_solve {ending : Ending M} (htimeout : config.timeout = none)
    (h : (Solver.new config.strategy config.search).solve p () = (solver, (), ending)) :
    search host config p = (solver, ending) := by
  unfold search
  rw [htimeout]
  simp only [h]
  rfl

theorem search_aStar (hstrategy : config.strategy = .aStar) :
    (Solver.new config.strategy config.search).search p none
      ((Solver.new config.strategy config.search).arena ()) = (some <$> BestFirst.solve p) (.single ()) := by
  rw [hstrategy]
  rfl

theorem search_worker (hstrategy : config.strategy = .concurrentAStar)
    (hworkers : config.search.workerCount ≤ 1) : (Solver.new config.strategy config.search).search p none
      ((Solver.new config.strategy config.search).arena ()) =
        concurrentAStar p (.ofSeed 1 config.search.seed) none (.single ()) := by
  have hone : max config.search.workerCount 1 = 1 := Nat.max_eq_right hworkers
  rw [hstrategy]
  unfold Solver.new
  rw [hone]
  rfl

section

variable (hp : p.Agrees q) (hstrategy : config.strategy = .aStar) (htimeout : config.timeout = none)
include hp hstrategy htimeout

theorem exists_search_eq_of_ok {final : Arena Unit} (h : BestFirst.solve q.toProblem (.single ()) = .ok path final) :
    ∃ solver, search host config p = (solver, .answered path) := by
  rw [← BestFirst.solve_eq_of_agrees hp] at h
  have hsearch : (some <$> BestFirst.solve p) (.single ()) = .ok (some path) final := by
    show EStateM.map some (BestFirst.solve p) _ = _
    unfold EStateM.map
    rw [h]
  exact ⟨_, search_eq_of_solve htimeout (Solver.solve_of_ok ((search_aStar hstrategy).trans hsearch))⟩

theorem exists_search_eq_of_error {fault : Fault} {final : Arena Unit}
    (h : BestFirst.solve q.toProblem (.single ()) = .error fault final) :
    ∃ solver, search host config p = (solver, .abandoned fault) := by
  rw [← BestFirst.solve_eq_of_agrees hp] at h
  have hsearch : (some <$> BestFirst.solve p) (.single ()) = .error fault final := by
    show EStateM.map some (BestFirst.solve p) _ = _
    unfold EStateM.map
    rw [h]
  exact ⟨_, search_eq_of_solve htimeout (Solver.solve_of_error ((search_aStar hstrategy).trans hsearch))⟩

end

theorem exists_search_eq_of_worker (hp : p.Agrees q) (h : q.Foldable rep states)
    (hstrategy : config.strategy = .concurrentAStar) (hworkers : config.search.workerCount ≤ 1)
    (htimeout : config.timeout = none) :
    ∃ solver path, search host config p = (solver, .answered path) ∧ q.IsOptimum path := by
  have hfew := h.few
  obtain ⟨pool, middle, path, final, hprepare, hlands, hpath⟩ : ∃ pool middle path final,
      prepareAStar q.toProblem (.ofSeed 1 config.search.seed) (.single ()) = .ok pool middle ∧
        Lands q.toProblem .whenTaken pool middle path final ∧ q.IsOptimum path :=
    single_worker_optimum h.folds h.consistent h.finite config.search.seed
  have hone : pool.workers.length = 1 := length_of_prepareAStar hprepare
  have hsearch := concurrentAStar_eq q.follows_rules.respects h.records h.confines h.initial
    (List.ne_nil_of_length_pos (Nat.lt_of_lt_of_eq Nat.one_pos hone.symm)) (by omega) hprepare hlands
  rw [← concurrentAStar_eq_of_agrees hp] at hsearch
  have hsolve := Solver.solve_of_ok ((search_worker hstrategy hworkers).trans hsearch)
  exact ⟨_, path, search_eq_of_solve htimeout hsolve, hpath⟩

section

variable [DecidableEq M] {moveText : M → String}

theorem solve_of_answered {rules : Rules S M} (hp : p.Follows rules)
    (hsearch : search host config p = (solver, .answered path))
    (hsolves : ∀ found, path = some found → rules.Solves found) :
    solve host config scenario p moveText =
      .ok (.ofAnswer scenario config.strategy moveText path solver.stats) := by
  simp only [solve, bind, ExceptT.bind, ExceptT.mk, ExceptT.bindCont, ExceptT.lift, Functor.map, hsearch]
  cases path with
  | none =>
    simp only [Option.any_none, Bool.false_eq_true, if_false]
    rfl
  | some found =>
    have hvalid := Problem.isSolution_of_solves hp (hsolves found rfl) ()
    simp only [Option.any_some, hvalid, Bool.not_true, Bool.false_eq_true, if_false]
    rfl

theorem solve_of_abandoned {fault : Fault} (hsearch : search host config p = (solver, .abandoned fault)) :
    solve host config scenario p moveText = .error .abandoned := by
  simp only [solve, bind, ExceptT.bind, ExceptT.mk, ExceptT.bindCont, ExceptT.lift, Functor.map, hsearch]
  rfl

end

/-! ### Puzzles -/

theorem hasSolution_jugs {jugs : Puzzle.Pouring} {cost : Cost} :
    (PuzzleSpec.jugs jugs).HasSolution cost ↔ ∃ pours, jugs.tame.rules.Solves ⟨pours, cost⟩ :=
  exists_congr fun _ => jugs.agrees_tame.solves_iff (follows_pouringRules jugs) ()

theorem hasSolution_bridge {speeds : List Cost} {capacity : Nat} {folds : Bool} {bridge : Puzzle.Bridge}
    {cost : Cost} (hbridge : Puzzle.Bridge.make? speeds capacity folds = .ok bridge) :
    (PuzzleSpec.bridge speeds capacity folds).HasSolution cost ↔
      ∃ crossings, bridge.problem.rules.Solves ⟨crossings, cost⟩ := by
  constructor
  · rintro ⟨other, hother, hcost⟩
    cases hbridge.symm.trans hother
    exact hcost
  · exact fun hcost => ⟨bridge, hbridge, hcost⟩

section

variable (hstrategy : config.strategy = .aStar ∨
    config.strategy = .concurrentAStar ∧ config.search.workerCount ≤ 1)
  (htimeout : config.timeout = none)
include hstrategy htimeout

theorem exists_search_jugs (host : Host Id) (jugs : Puzzle.Pouring) : ∃ solver path,
    search host config jugs.problem = (solver, .answered path) ∧ jugs.tame.IsOptimum path := by
  have h : (jugs.problem : Problem Unit _ _).Modest jugs.tame jugs.states := jugs.modest
  rcases hstrategy with hstrategy | ⟨hstrategy, hworkers⟩
  · obtain ⟨path, final, hsolve, -, hright, -⟩ :=
      h.foldable.exists_bestFirst_eq (Arena.isFresh_single ()) fun _ _ _ hcourse _ => h.once hcourse
    obtain ⟨solver, hsearch⟩ := exists_search_eq_of_ok h.agrees hstrategy htimeout hsolve
    exact ⟨solver, path, hsearch, hright⟩
  · exact exists_search_eq_of_worker h.agrees h.foldable hstrategy hworkers htimeout

theorem search_bridge_cases (host : Host Id) (bridge : Puzzle.Bridge) :
    (∃ solver path, search host config bridge.problem.toProblem = (solver, .answered path) ∧
      bridge.problem.IsOptimum path) ∨
    config.strategy = .aStar ∧ bridge.Overcounts () ∧
      ∃ solver, search host config bridge.problem.toProblem = (solver, .abandoned .sumOutOfRange) := by
  have hagrees := bridge.problem.agrees_toProblem (ω := Unit)
  rcases hstrategy with hstrategy | ⟨hstrategy, hworkers⟩
  · rcases bridge.aStar_optimum_or_overcounts () with ⟨path, final, hsolve, -, hright⟩ | ⟨hover, final, hsolve⟩
    · obtain ⟨solver, hsearch⟩ := exists_search_eq_of_ok hagrees hstrategy htimeout hsolve
      exact .inl ⟨solver, path, hsearch, hright⟩
    · exact .inr ⟨hstrategy, hover, exists_search_eq_of_error hagrees hstrategy htimeout hsolve⟩
  · exact .inl (exists_search_eq_of_worker hagrees bridge.foldable_problem hstrategy hworkers htimeout)

/-! ### Scenarios -/

/-- What is reported on a scenario is the truth about it. -/
theorem solveScenario_cases (host : Host Id) (haccepted : scenario.puzzle.Accepted) :
    (∃ report, solveScenario host config scenario = .ok report ∧
      (report.matchesExpected = true ↔ scenario.Holds)) ∨
    config.strategy = .aStar ∧ scenario.puzzle.Overruns ∧
      solveScenario host config scenario = .error .abandoned := by
  unfold solveScenario
  cases hpuzzle : scenario.puzzle with
  | jugs jugs =>
    obtain ⟨solver, path, hsearch, hright⟩ := exists_search_jugs hstrategy htimeout host jugs
    have hsolves : ∀ found, path = some found → (pouringRules jugs).Solves found := by
      rintro found rfl
      exact (jugs.agrees_tame.solves_iff (follows_pouringRules jugs) ()).2 hright.solves
    refine .inl ⟨_, solve_of_answered (follows_pouringRules jugs) hsearch hsolves, ?_⟩
    refine Scenario.isMetBy_iff ?_
    rw [hpuzzle]
    exact PuzzleSpec.isLeast_of_isOptimum (fun _ => hasSolution_jugs) hright
  | bridge speeds capacity folds =>
    rw [hpuzzle] at haccepted
    obtain ⟨bridge, hbridge⟩ := haccepted
    simp only [hbridge]
    rcases search_bridge_cases hstrategy htimeout host bridge with
      ⟨solver, path, hsearch, hright⟩ | ⟨haStar, hover, solver, hsearch⟩
    · have hsolves : ∀ found, path = some found → bridge.problem.rules.Solves found := by
        rintro found rfl
        exact hright.solves
      refine .inl ⟨_, solve_of_answered bridge.problem.follows_rules hsearch hsolves, ?_⟩
      refine Scenario.isMetBy_iff ?_
      rw [hpuzzle]
      exact PuzzleSpec.isLeast_of_isOptimum (fun _ => hasSolution_bridge hbridge) hright
    · exact .inr ⟨haStar, ⟨bridge, hbridge, hover⟩, solve_of_abandoned hsearch⟩

theorem mapM_solveScenario_cases (host : Host Id) (list : List Scenario)
    (haccepted : ∀ scenario ∈ list, scenario.puzzle.Accepted) :
    (∃ reports, list.mapM (solveScenario host config) = .ok reports ∧
      List.Forall₂ (fun scenario report => report.matchesExpected = true ↔ scenario.Holds) list reports) ∨
    config.strategy = .aStar ∧ (∃ scenario ∈ list, scenario.puzzle.Overruns) ∧
      list.mapM (solveScenario host config) = .error .abandoned := by
  induction list with
  | nil => exact .inl ⟨[], rfl, .nil⟩
  | cons scenario list ih =>
    obtain ⟨hfirst, hrest⟩ := List.forall_mem_cons.1 haccepted
    rw [List.mapM_cons]
    rcases solveScenario_cases hstrategy htimeout host hfirst with
      ⟨report, hreport, hmatches⟩ | ⟨haStar, hover, herror⟩
    · rw [hreport]
      rcases ih hrest with ⟨reports, hreports, hall⟩ | ⟨haStar, ⟨bad, hbad, hover⟩, herror⟩
      · rw [hreports]
        exact .inl ⟨report :: reports, rfl, .cons hmatches hall⟩
      · rw [herror]
        exact .inr ⟨haStar, ⟨bad, List.mem_cons_of_mem _ hbad, hover⟩, rfl⟩
    · rw [herror]
      exact .inr ⟨haStar, ⟨scenario, List.mem_cons_self, hover⟩, rfl⟩

end

/-! ### Runs -/

theorem countP_eq_unmet {list : List Scenario} {reports : List Report}
    (h : List.Forall₂ (fun scenario report => report.matchesExpected = true ↔ scenario.Holds) list reports) :
    reports.countP (fun report => !report.matchesExpected) = Scenario.unmet list := by
  unfold Scenario.unmet
  induction h with
  | nil => rfl
  | cons hmatches _ ih =>
    rw [List.countP_cons, List.countP_cons, ih]
    simp only [Bool.not_eq_true', ← hmatches, decide_not, Bool.decide_eq_true]

theorem unmet_eq_zero_iff {list : List Scenario} :
    Scenario.unmet list = 0 ↔ ∀ scenario ∈ list, scenario.Holds := by
  simp [Scenario.unmet, List.countP_eq_zero]

/-- These arguments come to this configuration and these scenarios. -/
structure Asks (host : Host Id) (arguments : List String) (config : Config) (list : List Scenario) : Prop where
  configured : ∃ line, CommandLine.read arguments = .ok line ∧ configure host line = .ok config
  listed : scenarios host config = .ok list

theorem Asks.run_eq {arguments : List String} {list : List Scenario} (h : Asks host arguments config list) :
    run host arguments = match list.mapM (solveScenario host config) with
      | .error error => failure none error
      | .ok reports =>
        let output := if config.json then some (Report.text reports) else none
        match check reports with
        | .error error => failure output error
        | .ok () => { exitCode := 0, output } := by
  obtain ⟨⟨line, hline, hconfig⟩, hscenarios⟩ := h
  have hexecute : execute host line = (list.mapM (solveScenario host config)).bind fun reports =>
      .ok (config, reports) := by
    simp only [execute, bind, ExceptT.bind, ExceptT.mk, ExceptT.bindCont, hconfig, hscenarios]
    cases list.mapM (solveScenario host config) <;> rfl
  unfold run
  rw [hline]
  simp only [ExceptT.run, hexecute]
  cases list.mapM (solveScenario host config) <;> rfl

/-- A run by A*, or by a single worker of the search for cheap paths, succeeds just if all that is expected of
the scenarios is true, and otherwise tells of how many it is not. This is so for all scenarios whose puzzles can
be set up. Only A* may be abandoned instead, where a way over a bridge for two or more cannot cost less than
the largest cost, and a counter has reached its end. -/
theorem verdict (host : Host Id) (config : Config) (list : List Scenario)
    (hstrategy : config.strategy = .aStar ∨
      config.strategy = .concurrentAStar ∧ config.search.workerCount ≤ 1)
    (htimeout : config.timeout = none) (haccepted : ∀ scenario ∈ list, scenario.puzzle.Accepted) :
    (∃ reports, list.mapM (solveScenario host config) = .ok reports ∧
      (check reports = .ok () ↔ ∀ scenario ∈ list, scenario.Holds) ∧
      ((∃ scenario ∈ list, ¬ scenario.Holds) →
        check reports = .error (.unmet (Scenario.unmet list) list.length)) ∧
      ∀ arguments, Asks host arguments config list →
        let output := if config.json then some (Report.text reports) else none
        ((∀ scenario ∈ list, scenario.Holds) → run host arguments = { exitCode := 0, output }) ∧
        ((∃ scenario ∈ list, ¬ scenario.Holds) → run host arguments =
          failure output (.unmet (Scenario.unmet list) list.length))) ∨
    config.strategy = .aStar ∧ (∃ scenario ∈ list, scenario.puzzle.Overruns) ∧
      list.mapM (solveScenario host config) = .error .abandoned ∧
      ∀ arguments, Asks host arguments config list → run host arguments = failure none .abandoned := by
  rcases mapM_solveScenario_cases hstrategy htimeout host list haccepted with
    ⟨reports, hreports, hall⟩ | ⟨haStar, hover, herror⟩
  · have hpass : (∀ scenario ∈ list, scenario.Holds) → check reports = .ok () := by
      intro hholds
      unfold check
      rw [countP_eq_unmet hall, unmet_eq_zero_iff.2 hholds]
      rfl
    have hfail : (∃ scenario ∈ list, ¬ scenario.Holds) →
        check reports = .error (.unmet (Scenario.unmet list) list.length) := by
      rintro ⟨scenario, hscenario, hfalse⟩
      have hne : Scenario.unmet list ≠ 0 := fun hzero => hfalse (unmet_eq_zero_iff.1 hzero scenario hscenario)
      unfold check
      rw [countP_eq_unmet hall, hall.length_eq]
      exact if_neg hne
    refine .inl ⟨reports, hreports, ⟨fun hok => ?_, hpass⟩, hfail, fun arguments hasks => ⟨fun hholds => ?_,
      fun hfalse => ?_⟩⟩
    · by_contra hfalse
      push Not at hfalse
      cases hok.symm.trans (hfail hfalse)
    · rw [hasks.run_eq, hreports]
      simp only [hpass hholds]
    · rw [hasks.run_eq, hreports]
      simp only [hfail hfalse]
  · refine .inr ⟨haStar, hover, herror, fun arguments hasks => ?_⟩
    rw [hasks.run_eq, herror]

end Program

end StateSearch
