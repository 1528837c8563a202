import StateSearch.Proofs.Observer
import StateSearch.Proofs.Soundness

/-!
# Problems that agree where a search can get

A problem whose calls fail somewhere may still answer like a pure one in all states that can be reached
(`Problem.Agrees`). Then a search cannot tell them apart, since it asks about no other states: what is
proved of searches in pure problems is true of it as well (`BestFirst.solve_eq_of_agrees`,
`Exhaustive.solve_eq_of_agrees`, `Pool.follow_eq_of_agrees`, `PoolSearch.run_eq_of_agrees`).
-/

namespace StateSearch

open Act StateSearch.Random

variable {ω S M F ρ : Type} {p : Problem ω S M} {q : PureProblem S M} {n : Node S M}

/-- In the states that can be reached, the problem answers as the functions say. -/
structure Problem.Agrees (p : Problem ω S M) (q : PureProblem S M) : Prop where
  initial : p.initial = q.initial
  isGoal : ∀ s, q.Reachable s → p.isGoal s = .answer (q.isGoal s)
  legalMoves : ∀ s, q.Reachable s → p.legalMoves s = .answer (q.legalMoves s)
  applyMove : ∀ s, q.Reachable s → ∀ m ∈ q.legalMoves s, p.applyMove s m = .answer (q.applyMove s m)
  moveCost : ∀ s, q.Reachable s → ∀ m ∈ q.legalMoves s, p.moveCost s m = .answer (q.moveCost s m)
  alreadySeen : ∀ s, q.Reachable s → p.alreadySeen s = .answer (q.alreadySeen s)
  heuristic : ∀ s, q.Reachable s → p.heuristic s = .answer (q.heuristic s)
  onProgress : ∀ s, q.Reachable s → ∀ tries, p.onProgress s tries = .answer ()
  onFinished : ∀ path s tries, p.onFinished path s tries = .answer ()
  pace : p.pace = {}

theorem PureProblem.agrees_toProblem (q : PureProblem S M) : (q.toProblem : Problem ω S M).Agrees q where
  initial := rfl
  isGoal _ _ := rfl
  legalMoves _ _ := rfl
  applyMove _ _ _ _ := rfl
  moveCost _ _ _ _ := rfl
  alreadySeen _ _ := rfl
  heuristic _ _ := rfl
  onProgress _ _ _ := rfl
  onFinished _ _ _ := rfl
  pace := rfl

namespace Problem.Agrees

variable {rules : Rules S M} {s t : S} {m : M} {c : Cost} {ms : List M}

theorem step_iff (h : p.Agrees q) (hp : p.Follows rules) (world : ω) (hs : q.Reachable s) :
    rules.Step s m t c ↔ q.rules.Step s m t c := by
  have hlegal : rules.legalMoves s = .ok (q.legalMoves s) := by
    rw [← hp.legalMoves s world, h.legalMoves s hs]
    rfl
  have hmove : ∀ m ∈ q.legalMoves s, rules.applyMove s m = .ok (q.applyMove s m) ∧
      rules.moveCost s m = .ok (q.moveCost s m) := by
    intro m hm
    rw [← hp.applyMove s m world, h.applyMove s hs m hm, ← hp.moveCost s m world, h.moveCost s hs m hm]
    exact ⟨rfl, rfl⟩
  rw [PureProblem.step_rules_iff]
  constructor
  · rintro ⟨⟨moves, hmoves, hm⟩, happly, hcost⟩
    obtain rfl := Except.ok.inj (hlegal.symm.trans hmoves)
    obtain ⟨happly', hcost'⟩ := hmove m hm
    exact ⟨hm, Except.ok.inj (happly'.symm.trans happly), Except.ok.inj (hcost'.symm.trans hcost)⟩
  · rintro ⟨hm, rfl, rfl⟩
    obtain ⟨happly, hcost⟩ := hmove m hm
    exact ⟨⟨_, hlegal, hm⟩, happly, hcost⟩

theorem route_iff (h : p.Agrees q) (hp : p.Follows rules) (world : ω) :
    rules.Route rules.initial ms t c ↔ q.rules.Route q.initial ms t c := by
  have hinitial : rules.initial = q.initial := hp.initial.symm.trans h.initial
  rw [hinitial]
  constructor
  · intro route
    induction route with
    | stay => exact .stay
    | snoc _ step ih => exact ih.snoc ((h.step_iff hp world ⟨_, _, ih⟩).1 step)
  · intro route
    induction route with
    | stay => exact .stay
    | snoc route step ih => exact ih.snoc ((h.step_iff hp world ⟨_, _, route⟩).2 step)

/-- The problem has the solutions of the pure one. -/
theorem solves_iff (h : p.Agrees q) (hp : p.Follows rules) (world : ω) {path : Path M} :
    rules.Solves path ↔ q.rules.Solves path := by
  have hgoal : ∀ s, q.Reachable s → rules.isGoal s = q.rules.isGoal s := by
    intro s hs
    rw [← hp.isGoal s world, h.isGoal s hs]
    rfl
  constructor
  · rintro ⟨goal, route, hfinal⟩
    have route' := (h.route_iff hp world).1 route
    exact ⟨goal, route', (hgoal goal ⟨_, _, route'⟩).symm.trans hfinal⟩
  · rintro ⟨goal, route, hfinal⟩
    exact ⟨goal, (h.route_iff hp world).2 route, (hgoal goal ⟨_, _, route⟩).trans hfinal⟩

end Problem.Agrees

theorem Act.ask_answer_eq {α : Type} (value : α) : (ask (.answer value) : Act ω α) = pure value :=
  funext fun _ => ask_answer value

variable (h : p.Agrees q)
include h

theorem Act.conclude_eq_of_agrees (goal : Option (Node S M)) : conclude p goal = conclude q.toProblem goal := by
  unfold conclude
  simp only [h.onFinished, h.initial]
  rfl

theorem Act.inquire_eq_of_agrees {σ : Type} [SeenSet σ S] {s : S} (hs : q.Reachable s) (seen : σ) :
    inquire p s seen = inquire q.toProblem s seen := by
  unfold inquire
  rw [h.alreadySeen s hs]
  rfl

variable [DecidableEq S] [Hashable S]

/-! ### Best-first search -/

namespace BestFirst

variable {closed : Std.HashMap S Cost} {waiting : OpenList S M}

theorem explore_eq_of_agrees (hn : q.Reachable n.state) {moves : List M}
    (hm : ∀ m ∈ moves, m ∈ q.legalMoves n.state) (waiting : OpenList S M) :
    explore p n closed moves waiting = explore q.toProblem n closed moves waiting := by
  induction moves generalizing waiting with
  | nil => rfl
  | cons m rest ih =>
    obtain ⟨hlegal, hrest⟩ := List.forall_mem_cons.1 hm
    simp only [explore, PureProblem.toProblem, h.applyMove _ hn m hlegal, h.moveCost _ hn m hlegal,
      ask_answer_eq, pure_bind, h.heuristic _ (hn.step hlegal)]
    simp only [ih hrest]
    rfl

theorem turn_eq_of_agrees (hw : Genuine q.rules waiting) :
    turn p closed waiting = turn q.toProblem closed waiting := by
  unfold turn
  cases ht : waiting.pop? with
  | none => rfl
  | some taken =>
    obtain ⟨n, rest⟩ := taken
    have hn : q.Reachable n.state := ⟨_, _, hw.nodes n (OpenList.mem_of_pop? ht)⟩
    have hq : (q.toProblem : Problem ω S M).Agrees q := q.agrees_toProblem
    simp only [claim, inquire_eq_of_agrees h hn, expand, h.isGoal _ hn, h.legalMoves _ hn,
      h.onProgress _ hn, hq.isGoal _ hn, hq.legalMoves _ hn, hq.onProgress _ hn, ask_answer_eq, pure_bind,
      explore_eq_of_agrees h hn fun _ hm => hm]

theorem run_eq_of_agrees (hw : Genuine q.rules waiting) :
    run p closed waiting = run q.toProblem closed waiting := by
  refine TurnTaking.run_congr (turnTaking q.toProblem) (turnTaking p) (closed, waiting)
    (I := fun lists => Genuine q.rules lists.2) rfl ?_ ?_ hw
  · exact fun lists hlists => turn_eq_of_agrees h hlists
  · intro lists arena hlists
    refine (wp_turn_genuine q.follows_rules.respects hlists).mono fun result after hends => ?_
    cases result <;> trivial

/-- A search finds the same in problems that agree. -/
theorem solve_eq_of_agrees : (solve p : Act ω (Option (Path M))) = solve q.toProblem := by
  have hroot : Genuine q.rules (OpenList.empty.push (.root q.initial (q.heuristic q.initial))) :=
    ⟨(Inv.start q).sound, fun n hn => ((Inv.start q).fair n hn).genuine⟩
  have hq : (q.toProblem : Problem ω S M).Agrees q := q.agrees_toProblem
  have hrun : (run p ∅ (OpenList.empty.push (.root q.initial (q.heuristic q.initial))) : Act ω _) =
      run q.toProblem ∅ (OpenList.empty.push (.root q.initial (q.heuristic q.initial))) :=
    run_eq_of_agrees h hroot
  unfold solve
  simp only [h.initial, hq.initial, h.heuristic _ ⟨_, _, .stay⟩, hq.heuristic _ ⟨_, _, .stay⟩, ask_answer_eq,
    pure_bind, hrun, conclude_eq_of_agrees h]

end BestFirst

/-! ### Exhaustive search -/

namespace Exhaustive

variable {d : Discipline} {waiting : Deque (Node S M)}

theorem explore_eq_of_agrees (hn : q.Reachable n.state) {moves : List M}
    (hm : ∀ m ∈ moves, m ∈ q.legalMoves n.state) (seen : Std.HashSet S) (waiting : Deque (Node S M)) :
    explore p n moves seen waiting = explore q.toProblem n moves seen waiting := by
  induction moves generalizing seen waiting with
  | nil => rfl
  | cons m rest ih =>
    obtain ⟨hlegal, hrest⟩ := List.forall_mem_cons.1 hm
    have hq : (q.toProblem : Problem ω S M).Agrees q := q.agrees_toProblem
    simp only [explore, h.applyMove _ hn m hlegal, h.moveCost _ hn m hlegal, hq.applyMove _ hn m hlegal,
      hq.moveCost _ hn m hlegal, ask_answer_eq, pure_bind, inquire_eq_of_agrees h (hn.step hlegal), ih hrest]

theorem turn_eq_of_agrees (hw : ∀ c ∈ waiting.toList, c.Genuine q.rules) (seen : Std.HashSet S) :
    turn d p seen waiting = turn d q.toProblem seen waiting := by
  unfold turn
  cases ht : d.take? waiting with
  | none => rfl
  | some taken =>
    obtain ⟨n, rest⟩ := taken
    have hn : q.Reachable n.state :=
      ⟨_, _, hw n ((Discipline.toList_of_take? ht).mem_iff.2 (List.mem_cons_self ..))⟩
    have hq : (q.toProblem : Problem ω S M).Agrees q := q.agrees_toProblem
    simp only [expand, h.isGoal _ hn, h.legalMoves _ hn, h.onProgress _ hn, hq.isGoal _ hn,
      hq.legalMoves _ hn, hq.onProgress _ hn, ask_answer_eq, pure_bind,
      explore_eq_of_agrees h hn fun _ hm => hm]

theorem run_eq_of_agrees (hw : ∀ c ∈ waiting.toList, c.Genuine q.rules) (seen : Std.HashSet S) :
    (run d p seen waiting : Act ω _) = run d q.toProblem seen waiting := by
  refine TurnTaking.run_congr (turnTaking d q.toProblem) (turnTaking d p) (seen, waiting)
    (I := fun lists => ∀ c ∈ lists.2.toList, c.Genuine q.rules) rfl ?_ ?_ hw
  · exact fun lists hlists => turn_eq_of_agrees h hlists lists.1
  · intro lists arena hlists
    refine (wp_turn_genuine q.follows_rules.respects hlists).mono fun result after hends => ?_
    cases result <;> trivial

/-- A search finds the same in problems that agree. -/
theorem solve_eq_of_agrees (d : Discipline) : (solve d p : Act ω (Option (Path M))) = solve d q.toProblem := by
  have hroot : ∀ c ∈ (Deque.empty.pushBack (Node.root q.initial 0 : Node S M)).toList,
      c.Genuine q.rules := by
    intro c hc
    rw [List.mem_singleton.1 hc]
    exact .root _
  have hq : (q.toProblem : Problem ω S M).Agrees q := q.agrees_toProblem
  have hrun : ∀ seen, (run d p seen (Deque.empty.pushBack (.root q.initial 0)) : Act ω _) =
      run d q.toProblem seen (Deque.empty.pushBack (.root q.initial 0)) :=
    run_eq_of_agrees h hroot
  unfold solve
  simp only [h.initial, hq.initial, inquire_eq_of_agrees h ⟨_, _, .stay⟩, hrun, conclude_eq_of_agrees h]

end Exhaustive

/-! ### Pools -/

theorem Stage.step_eq_of_agrees {claiming : Claiming} {stage : Stage S M} (hn : q.Reachable n.state)
    (hc : stage.Carries (q.toProblem : Problem ω S M) q.rules claiming n) (shared : Shared ω S M F) :
    stage.step p claiming n shared = stage.step q.toProblem claiming n shared := by
  cases stage with
  | claim =>
    simp only [Stage.step, h.alreadySeen _ hn]
    rfl
  | test =>
    simp only [Stage.step, h.isGoal _ hn]
    rfl
  | list =>
    simp only [Stage.step, h.legalMoves _ hn]
    rfl
  | apply sweep m =>
    simp only [Stage.step, h.applyMove _ hn m (PureProblem.mem_of_isLegal hc.2)]
    rfl
  | screen sweep m t =>
    obtain ⟨-, hm, ht⟩ := hc
    cases ht
    simp only [Stage.step, h.alreadySeen _ (hn.step (PureProblem.mem_of_isLegal hm))]
    rfl
  | price sweep m t =>
    simp only [Stage.step, h.moveCost _ hn m (PureProblem.mem_of_isLegal hc.2.1)]
    rfl
  | estimate sweep m t c =>
    obtain ⟨-, -, hstep⟩ := hc
    obtain ⟨hm, rfl, -⟩ := PureProblem.step_rules_iff.1 hstep
    simp only [Stage.step, h.heuristic _ (hn.step hm)]
    rfl
  | report =>
    simp only [Stage.step, h.onProgress _ hn]
    rfl
  | claimBy | drop | count | lookAtFlag | lookAtStop | generate | screenBy | discard => rfl

namespace Pool

variable [Frontier F (Node S M)] [LawfulFrontier F (Node S M)] [Coin ρ] {pool : Pool ω S M F ρ}
  {claiming : Claiming}

theorem step_eq_of_agrees
    (hc : pool.Carries (q.toProblem : Problem ω S M) q.rules (Node.Genuine q.rules) claiming)
    (actor : Actor) : pool.step p claiming actor = pool.step q.toProblem claiming actor := by
  have hworker : ∀ index, ∀ w ∈ pool.workers, stepWorker p claiming index w pool.shared =
      stepWorker q.toProblem claiming index w pool.shared := by
    intro index w hw
    have hcarries := hc.workers w hw
    obtain ⟨phase, coin⟩ := w
    cases phase with
    | working n stage =>
      simp only [stepWorker, Stage.step_eq_of_agrees h ⟨_, _, hcarries.1⟩ hcarries.2]
    | _ => rfl
  obtain ⟨shared, workers, waiting⟩ := pool
  cases actor with
  | worker index =>
    cases hw : workers[index]? with
    | none => simp [step, hw]
    | some w =>
      simp only [step, hw, Option.bind_eq_bind, Option.bind_some]
      rw [show stepWorker p claiming index w shared = _ from hworker index w (List.mem_of_getElem? hw)]
  | waiter | outsider => rfl

theorem follow_eq_of_agrees
    (hc : pool.Carries (q.toProblem : Problem ω S M) q.rules (Node.Genuine q.rules) claiming)
    (actors : List Actor) : pool.follow p claiming actors = pool.follow q.toProblem claiming actors := by
  induction actors generalizing pool with
  | nil => rfl
  | cons actor actors ih =>
    show ((pool.step p claiming actor).getD pool).follow p claiming actors =
      ((pool.step q.toProblem claiming actor).getD pool).follow q.toProblem claiming actors
    rw [step_eq_of_agrees h hc]
    cases hs : pool.step q.toProblem claiming actor with
    | none => exact ih hc
    | some next => exact ih (hc.step q.follows_rules.respects (inherited_genuine _ _ _) hs)

theorem drive_eq_of_agrees
    (hc : pool.Carries (q.toProblem : Problem ω S M) q.rules (Node.Genuine q.rules) claiming)
    (limit : Option Nat) (steps : Nat) (table : Timetable) :
    pool.drive p claiming limit steps table = pool.drive q.toProblem claiming limit steps table := by
  induction steps generalizing pool table with
  | zero => rfl
  | succ steps ih =>
    have hpace : p.pace = (q.toProblem : Problem ω S M).pace := h.pace
    rw [drive, drive]
    cases pool.next? table with
    | none => rfl
    | some picked =>
      obtain ⟨actor, time⟩ := picked
      simp only [step_eq_of_agrees h hc actor, hpace]
      cases hs : pool.step q.toProblem claiming actor with
      | none => rfl
      | some next =>
        have hnext := hc.step q.follows_rules.respects (inherited_genuine _ _ _) hs
        simp only [ih hnext]

end Pool

namespace PoolSearch

variable [Coin ρ]

omit [Coin ρ] in
theorem finish_eq_of_agrees (pool : Pool ω S M F ρ) (goal : Option (Node S M)) :
    finish p pool goal = finish q.toProblem pool goal := by
  simp only [finish, conclude_eq_of_agrees h]

theorem prepareConcurrent_eq_of_agrees (placement : Placement) (plan : Plan ρ) :
    (prepareConcurrent p placement plan : Act ω _) = prepareConcurrent q.toProblem placement plan := by
  have hq : (q.toProblem : Problem ω S M).Agrees q := q.agrees_toProblem
  unfold prepareConcurrent
  simp only [h.initial, hq.initial, inquire_eq_of_agrees h ⟨_, _, .stay⟩]

theorem prepareAStar_eq_of_agrees (plan : Plan ρ) :
    (prepareAStar p plan : Act ω _) = prepareAStar q.toProblem plan := by
  have hq : (q.toProblem : Problem ω S M).Agrees q := q.agrees_toProblem
  unfold prepareAStar
  simp only [h.initial, hq.initial, h.heuristic _ ⟨_, _, .stay⟩, hq.heuristic _ ⟨_, _, .stay⟩]

theorem run_eq_of_agrees [Frontier F (Node S M)] [LawfulFrontier F (Node S M)] {pool : Pool ω S M F ρ}
    {claiming : Claiming}
    (hc : pool.Carries (q.toProblem : Problem ω S M) q.rules (Node.Genuine q.rules) claiming)
    (limit : Option Nat) : run p claiming limit pool = run q.toProblem claiming limit pool := by
  simp only [run, Pool.drive_eq_of_agrees h hc, finish_eq_of_agrees h]

/-- A search with workers who claim states when they take them finds the same in problems that agree. -/
theorem concurrentAStar_eq_of_agrees (plan : Plan ρ) (limit : Option Nat) :
    (concurrentAStar p plan limit : Act ω _) = concurrentAStar q.toProblem plan limit := by
  funext arena
  show EStateM.bind (prepareAStar p plan) (run p .whenTaken limit) arena =
    EStateM.bind (prepareAStar q.toProblem plan) (run q.toProblem .whenTaken limit) arena
  unfold EStateM.bind
  rw [prepareAStar_eq_of_agrees h]
  cases hpool : prepareAStar q.toProblem plan arena with
  | error fault after => rfl
  | ok pool middle =>
    obtain ⟨remaining, -, -, hfresh, -⟩ := isFresh_of_prepareAStar hpool
    have hcarries : pool.Carries (q.toProblem : Problem ω S M) q.rules (Node.Genuine q.rules) .whenTaken :=
      hfresh.carries (.root remaining)
    simp only [run_eq_of_agrees h hcarries]

end PoolSearch

end StateSearch
