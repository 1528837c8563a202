import StateSearch.Proofs.Pool.Accounts
import StateSearch.Proofs.Pool.Claims

/-!
# A pool with a consistent heuristic is optimal

Workers who claim states when they take them never open a state again, so each state has to be claimed at
its least cost, whoever gets there first. This is what the layers of the open list are for. All nodes in
flight have the same estimate, and no node that waits or is about to be handed in has a smaller one
(`Layered.least`). On the other hand every route leaves the states that are dealt with by way of a node
that waits or is worked on, whose estimate is at most that of the route (`Cover.exists_open`). So a node
whose state is claimed has the least estimate of all routes to the state (`Node.Tight`), a goal that is
found is a best one, and when nothing is left there is no route to a goal.

Sums of costs may be cut off at the largest cost. A state may then be claimed at more than its least path
cost, but only when the estimates of all routes through it are cut off as well.
-/

namespace StateSearch

open StateSearch.Random LawfulFrontier

variable {ω S M ρ : Type} {p : PureProblem S M} {n : Node S M}

/-- No route to the node's state has a smaller estimate. -/
def Node.Tight (p : PureProblem S M) (n : Node S M) : Prop :=
  ∀ ms c, p.rules.Route p.initial ms n.state c →
    n.estimate ≤ Cost.plus c (p.heuristic n.state)

variable [DecidableEq S] [Hashable S]

/-! ### What is known of the states that are seen -/

section

variable {seen seen' : Std.HashSet S} {opened claimed opened' claimed' : Node S M → Prop}

/-- The node's state is no goal, and what a move reaches from it is seen or open. -/
structure Done (p : PureProblem S M) (seen : Std.HashSet S) (opened : Node S M → Prop)
    (n : Node S M) : Prop where
  isGoal : p.isGoal n.state = false
  move : ∀ m ∈ p.legalMoves n.state, p.applyMove n.state m ∈ seen ∨
    ∃ c, opened c ∧ c.state = p.applyMove n.state m ∧
      c.pathCost = Cost.plus n.pathCost (p.moveCost n.state m)

theorem Done.mono (h : Done p seen opened n) (hseen : ∀ s ∈ seen, s ∈ seen')
    (hopened : ∀ c, opened c → opened' c ∨ c.state ∈ seen') : Done p seen' opened' n := by
  refine ⟨h.isGoal, fun m hm => ?_⟩
  rcases h.move m hm with hs | ⟨c, hc, hstate, hcost⟩
  · exact .inl (hseen _ hs)
  · rcases hopened c hc with hc | hs
    · exact .inr ⟨c, hc, hstate, hcost⟩
    · exact .inl (hstate ▸ hs)

theorem Done.of_covers {claiming : Claiming} {children : List (Node S M)}
    (h : Covers p.rules claiming seen n children []) (hopened : ∀ c ∈ children, opened c) :
    Done p seen opened n := by
  obtain ⟨-, hgoal, moves, hmoves, hall⟩ := h
  cases hmoves
  refine ⟨Except.ok.inj hgoal, fun m hm => ?_⟩
  obtain ⟨t, ht, hs | ⟨-, c, hc, step, hstep, hstate, hcost⟩⟩ :=
    (hall m hm).resolve_left List.not_mem_nil
  · cases ht
    exact .inl hs
  · cases ht
    cases hstep
    exact .inr ⟨c, hopened c hc, hstate, hcost⟩

/-- Every state that is seen was claimed for a node of least estimate. A worker is busy with the node,
or is done with it. -/
structure Cover (p : PureProblem S M) (seen : Std.HashSet S) (opened claimed : Node S M → Prop) :
    Prop where
  initial : p.initial ∈ seen ∨ ∃ n, opened n ∧ n.state = p.initial ∧ n.pathCost = 0
  states : ∀ s ∈ seen, ∃ n : Node S M, n.state = s ∧ n.Fair p ∧ n.Tight p ∧
    (claimed n ∨ Done p seen opened n)

namespace Cover

theorem update (h : Cover p seen opened claimed) (hseen : ∀ s ∈ seen, s ∈ seen')
    (hopened : ∀ c, opened c → opened' c ∨ c.state ∈ seen')
    (hclaimed : ∀ n, claimed n → claimed' n ∨ Done p seen' opened' n)
    (hnew : ∀ s ∈ seen', s ∈ seen ∨ ∃ n : Node S M, n.state = s ∧ n.Fair p ∧ n.Tight p ∧ claimed' n) :
    Cover p seen' opened' claimed' := by
  constructor
  · rcases h.initial with hs | ⟨n, hn, hstate, hcost⟩
    · exact .inl (hseen _ hs)
    · rcases hopened n hn with hn | hs
      · exact .inr ⟨n, hn, hstate, hcost⟩
      · exact .inl (hstate ▸ hs)
  · intro s hs
    rcases hnew s hs with hs | ⟨n, hstate, hfair, htight, hn⟩
    · obtain ⟨n, hstate, hfair, htight, hn⟩ := h.states s hs
      refine ⟨n, hstate, hfair, htight, ?_⟩
      rcases hn with hn | hn
      · exact hclaimed n hn
      · exact .inr (hn.mono hseen hopened)
    · exact ⟨n, hstate, hfair, htight, .inl hn⟩

variable (h : Cover p seen opened claimed) {t : S} {ms : List M} {c : Cost}
include h

theorem open_or_done (hs : t ∈ seen) (route : p.rules.Route p.initial ms t c) :
    (∃ o, (opened o ∨ claimed o) ∧ o.estimate ≤ Cost.plus c (p.heuristic t)) ∨
      t ∈ seen ∧ ∃ n : Node S M, n.state = t ∧ n.Fair p ∧ n.Tight p ∧ Done p seen opened n := by
  obtain ⟨n, rfl, hfair, htight, hn | hn⟩ := h.states t hs
  · exact .inl ⟨n, .inr hn, htight ms c route⟩
  · exact .inr ⟨hs, n, rfl, hfair, htight, hn⟩

/-- Every route ends in a state that is dealt with, or passes a node that is open or being worked on,
with an estimate of at most that of the route. -/
theorem exists_open (hcons : p.Consistent) (hfair : ∀ n, opened n → n.Fair p)
    (route : p.rules.Route p.initial ms t c) :
    (∃ o, (opened o ∨ claimed o) ∧ o.estimate ≤ Cost.plus c (p.heuristic t)) ∨
      t ∈ seen ∧ ∃ n : Node S M, n.state = t ∧ n.Fair p ∧ n.Tight p ∧ Done p seen opened n := by
  induction route with
  | stay =>
    rcases h.initial with hs | ⟨n, hn, hstate, hcost⟩
    · exact h.open_or_done hs .stay
    · refine .inl ⟨n, .inl hn, ?_⟩
      rw [(hfair n hn).estimate, hstate, hcost]
      exact UInt64.le_refl _
  | @snoc ms t u m c d route step ih =>
    obtain ⟨hm, rfl, rfl⟩ := PureProblem.step_rules_iff.1 step
    have hle : Cost.plus c (p.heuristic t) ≤
        Cost.plus (Cost.plus c (p.moveCost t m)) (p.heuristic (p.applyMove t m)) := by
      rw [Cost.plus_assoc]
      exact Cost.plus_le_plus (UInt64.le_refl _) (Cost.le_plus_iff.2 (hcons.move t ⟨ms, c, route⟩ m hm))
    rcases ih with ⟨o, ho, hoc⟩ | ⟨-, n, rfl, hn, htight, hdone⟩
    · exact .inl ⟨o, ho, UInt64.le_trans hoc hle⟩
    · rcases hdone.move m hm with hs | ⟨o, ho, hstate, hcost⟩
      · exact h.open_or_done hs (route.snoc step)
      · refine .inl ⟨o, .inl ho, ?_⟩
        have hest := htight ms c route
        rw [hn.estimate] at hest
        rw [(hfair o ho).estimate, hstate, hcost]
        by_cases hcut : Cost.plus c (p.heuristic n.state) < Cost.largest
        · have hpath := Cost.le_of_plus_le_plus hest hcut
          exact Cost.plus_le_plus (Cost.plus_le_plus hpath (UInt64.le_refl _)) (UInt64.le_refl _)
        · -- The estimate of the route is cut off already.
          refine UInt64.le_trans ?_ (UInt64.le_trans (UInt64.not_lt.1 hcut) hle)
          exact UInt64.le_iff_toNat_le.2 (Cost.toNat_le_largest _)

/-- No route to a goal is cheaper than the nodes that are open or being worked on. -/
theorem exists_open_of_isGoal (hcons : p.Consistent) (hfair : ∀ n, opened n → n.Fair p)
    (route : p.rules.Route p.initial ms t c) (ht : p.isGoal t = true) :
    ∃ o, (opened o ∨ claimed o) ∧ o.estimate ≤ c := by
  rcases h.exists_open hcons hfair route with ⟨o, ho, hle⟩ | ⟨-, n, rfl, -, -, hdone⟩
  · rw [hcons.goal t ⟨ms, c, route⟩ ht, Cost.plus_zero] at hle
    exact ⟨o, ho, hle⟩
  · rw [hdone.isGoal] at ht
    cases ht

theorem tight (hcons : p.Consistent) (hfair : ∀ n, opened n → n.Fair p) (hn : n.state ∉ seen)
    (hleast : ∀ o, opened o ∨ claimed o → n.estimate ≤ o.estimate) : n.Tight p := by
  intro ms c route
  rcases h.exists_open hcons hfair route with ⟨o, ho, hle⟩ | ⟨hs, -⟩
  · exact UInt64.le_trans (hleast o ho) hle
  · exact absurd hs hn

theorem isBest (hcons : p.Consistent) (hfair : ∀ n, opened n → n.Fair p) (hn : n.Fair p)
    (hgoal : p.isGoal n.state = true)
    (hleast : ∀ o, opened o ∨ claimed o → n.estimate ≤ o.estimate) : p.IsBest n.toPath := by
  refine ⟨⟨n.state, hn.genuine, hgoal⟩, fun ms goal c route hg => ?_⟩
  obtain ⟨o, ho, hle⟩ := h.exists_open_of_isGoal hcons hfair route hg
  exact UInt64.le_trans hn.pathCost_le (UInt64.le_trans (hleast o ho) hle)

theorem not_solvable (hcons : p.Consistent) (hopened : ∀ n, ¬ opened n) (hclaimed : ∀ n, ¬ claimed n) :
    ¬ p.Solvable := by
  rintro ⟨s, ⟨ms, c, route⟩, hs⟩
  obtain ⟨o, ho | ho, -⟩ :=
    h.exists_open_of_isGoal hcons (fun n hn => absurd hn (hopened n)) route hs
  · exact hopened o ho
  · exact hclaimed o ho

end Cover

end

/-! ### One step of a task -/

/-- What a step of a task on `n` does, if states are claimed when they are taken and no call fails. -/
inductive Stage.Advance (n : Node S M) (stage : Stage S M) (seen seen' : Std.HashSet S) :
    Progress S M → Prop
  | onward {stage' : Stage S M} (hs : ∀ s, s ∈ seen' ↔ s ∈ seen)
      (hc : stage'.hasClaimed = stage.hasClaimed) : Advance n stage seen seen' (.onward stage')
  | claimed {stage' : Stage S M} (hfresh : n.state ∉ seen)
      (hs : ∀ s, s ∈ seen' ↔ s = n.state ∨ s ∈ seen) (hc : stage.hasClaimed = false)
      (hc' : stage'.hasClaimed = true) : Advance n stage seen seen' (.onward stage')
  | skipped (hs : ∀ s, s ∈ seen' ↔ s ∈ seen) (hc : stage.hasClaimed = false)
      (hn : n.state ∈ seen) : Advance n stage seen seen' .skipped
  | goal (hs : ∀ s, s ∈ seen' ↔ s ∈ seen) (hc : stage.hasClaimed = true) :
    Advance n stage seen seen' .goal
  | children {nodes : List (Node S M)} (hs : ∀ s, s ∈ seen' ↔ s ∈ seen)
      (hc : stage.hasClaimed = true) : Advance n stage seen seen' (.children nodes)

omit [DecidableEq S] [Hashable S] in
theorem Sweep.hasClaimed_next (sweep : Sweep S M) : sweep.next.hasClaimed = true := by
  obtain ⟨tries, rest, children⟩ := sweep
  cases rest <;> rfl

theorem Stage.Fits.advance {stage : Stage S M} {shared : Shared ω S M (OpenList S M)}
    (hseen : p.alreadySeen = .record)
    (h : stage.Fits p.rules .whenTaken shared.seen n) :
    stage.Advance n shared.seen (stage.step p.toProblem .whenTaken n shared).2.seen
      (stage.step p.toProblem .whenTaken n shared).1 := by
  cases stage with
  | claim =>
    have hquery : p.alreadySeen n.state = .record n.state := by rw [hseen]
    refine .onward (fun _ => .rfl) ?_
    show (Stage.claimBy (p.alreadySeen n.state) : Stage S M).hasClaimed = _
    rw [hquery]
    rfl
  | claimBy query =>
    obtain ⟨-, rfl | ⟨known, rfl, -⟩⟩ := h
    · have hstage : (Stage.step p.toProblem .whenTaken n shared (.claimBy (.record n.state))).1 =
          .onward (.claimBy (.answer (decide (n.state ∈ shared.seen)))) := by
        show Progress.onward (Stage.claimBy (.answer (!(shared.record n.state).1))) = _
        rw [Shared.record_fst, Bool.not_not]
      rw [hstage]
      by_cases hfresh : n.state ∈ shared.seen
      · rw [decide_eq_true hfresh]
        exact .onward (fun s => Shared.mem_record_of_mem _ hfresh) rfl
      · rw [decide_eq_false hfresh]
        exact .claimed hfresh (fun s => Shared.mem_record _) rfl rfl
    · cases known <;> exact .onward (fun _ => .rfl) rfl
  | drop => exact .skipped (fun _ => .rfl) rfl h.2
  | count => exact .onward (fun _ => .rfl) rfl
  | test tries =>
    show Stage.Advance n _ _ _ (if p.isGoal n.state then _ else _)
    split
    · exact .goal (fun _ => .rfl) rfl
    · exact .onward (fun _ => .rfl) rfl
  | list tries => exact .onward (fun _ => .rfl) (Sweep.hasClaimed_next _)
  | lookAtFlag sweep m =>
    simp only [Stage.step]
    split <;> exact .onward (fun _ => .rfl) rfl
  | lookAtStop sweep m =>
    simp only [Stage.step]
    split <;> exact .onward (fun _ => .rfl) rfl
  | apply sweep m | generate sweep m t | screen sweep m t | price sweep m t =>
    exact .onward (fun _ => .rfl) rfl
  | screenBy sweep m t query =>
    obtain ⟨-, rfl | ⟨known, rfl, -⟩⟩ := h
    · exact .onward (fun _ => .rfl) rfl
    · cases known <;> exact .onward (fun _ => .rfl) rfl
  | discard sweep => exact .onward (fun _ => .rfl) (Sweep.hasClaimed_next _)
  | estimate sweep m t c => exact .onward (fun _ => .rfl) (Sweep.hasClaimed_next _)
  | report sweep => exact .children (fun _ => .rfl) rfl

/-! ### The invariant of the pool -/

/-- The nodes in the hands of a worker that nobody has claimed a state for. -/
def Phase.opened : Phase S M → List (Node S M)
  | working n stage => if stage.hasClaimed then [] else [n]
  | judgeFlag _ children | judgeStop _ children | complete _ children => children
  | idle | announce _ | publish _ | close _ | blame .. | exhaust | ended | broken .. => []

/-- The node that a worker has claimed the state for and is busy with. -/
def Phase.claimed : Phase S M → List (Node S M)
  | working n stage => if stage.hasClaimed then [n] else []
  | announce n | publish n => [n]
  | idle | close _ | judgeFlag .. | judgeStop .. | blame .. | complete .. | exhaust | ended
  | broken .. => []

omit [DecidableEq S] [Hashable S] in
theorem Phase.mem_opened_working {n' : Node S M} {stage : Stage S M} :
    n' ∈ (working n stage).opened ↔ stage.hasClaimed = false ∧ n' = n := by
  cases h : stage.hasClaimed <;> simp [Phase.opened, h]

omit [DecidableEq S] [Hashable S] in
theorem Phase.mem_claimed_working {n' : Node S M} {stage : Stage S M} :
    n' ∈ (working n stage).claimed ↔ stage.hasClaimed = true ∧ n' = n := by
  cases h : stage.hasClaimed <;> simp [Phase.claimed, h]

omit [DecidableEq S] [Hashable S] in
theorem Phase.node?_of_mem_claimed {phase : Phase S M} (hn : n ∈ phase.claimed) :
    phase.node? = some n := by
  cases phase
  case working n' stage =>
    obtain ⟨-, rfl⟩ := Phase.mem_claimed_working.1 hn
    rfl
  case announce | publish =>
    rw [List.mem_singleton.1 hn]
    rfl
  all_goals cases hn

namespace Pool

variable {pool next : Pool ω S M (OpenList S M) ρ} {actor : Actor}

/-- The node waits, or is in the hands of a worker, and its state has not been claimed for it. -/
def Opened (pool : Pool ω S M (OpenList S M) ρ) (n : Node S M) : Prop :=
  n ∈ nodes pool.shared.queue.frontier ∨ ∃ w ∈ pool.workers, n ∈ w.phase.opened

def Claimed (pool : Pool ω S M (OpenList S M) ρ) (n : Node S M) : Prop :=
  ∃ w ∈ pool.workers, n ∈ w.phase.claimed

/-- What holds of the pool as long as the slot is empty. -/
structure Layered (p : PureProblem S M) (pool : Pool ω S M (OpenList S M) ρ) : Prop where
  cover : Cover p pool.shared.seen pool.Opened pool.Claimed
  fits : ∀ w ∈ pool.workers, w.phase.Fits p.rules .whenTaken pool.shared.seen
  /-- No node is estimated at less than the nodes in flight. -/
  least : ∀ n ∈ held pool.workers, ∀ c, pool.Opened c ∨ pool.Claimed c → n.estimate ≤ c.estimate

theorem Carries.fair_of_opened
    (h : pool.Carries (p.toProblem : Problem ω S M) p.rules (Node.Fair p) .whenTaken)
    (hn : pool.Opened n) : n.Fair p := by
  rcases hn with hn | ⟨w, hw, hn⟩
  · exact h.queue n hn
  · have hw := h.workers w hw
    cases hph : w.phase <;> rw [hph] at hn hw
    case working n' stage =>
      obtain ⟨-, rfl⟩ := Phase.mem_opened_working.1 hn
      exact hw.1
    case judgeFlag | judgeStop | complete => exact hw n hn
    all_goals cases hn

theorem mem_held_of_claimed (hn : pool.Claimed n) : n ∈ held pool.workers := by
  obtain ⟨w, hw, hn⟩ := hn
  exact mem_held.2 ⟨w, hw, Phase.node?_of_mem_claimed hn⟩

omit [DecidableEq S] [Hashable S] in
theorem held_ne_nil {workers : List (Worker S M ρ)} {w : Worker S M ρ} (hw : w ∈ workers)
    (hn : n ∈ w.phase.opened) : held workers ≠ [] := by
  intro hheld
  have hnone := List.filterMap_eq_nil_iff.1 hheld w hw
  cases hph : w.phase <;> rw [hph] at hn hnone <;> first | cases hnone; done | cases hn

theorem IsFresh.layered
    (h : pool.IsFresh (.root p.initial (p.heuristic p.initial))) (hseen : pool.shared.seen = ∅) :
    pool.Layered p := by
  refine ⟨⟨?_, ?_⟩, fun w hw => ?_, fun n hn => ?_⟩
  · refine .inr ⟨.root p.initial (p.heuristic p.initial), .inl ?_, rfl, rfl⟩
    rw [h.nodes]
    exact List.mem_singleton_self _
  · intro s hs
    rw [hseen] at hs
    exact absurd hs Std.HashSet.not_mem_empty
  · rw [h.idle w hw]
    trivial
  · obtain ⟨w, hw, hn⟩ := mem_held.1 hn
    rw [h.idle w hw] at hn
    cases hn

/-! ### Steps of the pool -/

namespace Layered

variable {shared shared' : Shared ω S M (OpenList S M)} {before after : List (Worker S M ρ)}
  {w w' : Worker S M ρ} {waiting : Waiting S M}

theorem opened_middle : Opened ⟨shared, before ++ w :: after, waiting⟩ n ↔
    (n ∈ nodes shared.queue.frontier ∨ n ∈ w.phase.opened) ∨
      ∃ v ∈ before ++ after, n ∈ v.phase.opened := by
  unfold Opened
  rw [exists_mem_middle, or_assoc]

theorem claimed_middle : Claimed ⟨shared, before ++ w :: after, waiting⟩ n ↔
    n ∈ w.phase.claimed ∨ ∃ v ∈ before ++ after, n ∈ v.phase.claimed :=
  exists_mem_middle

/-- A step of one worker has to be looked at only for what this worker and the queue make of it. -/
theorem replace (h : Layered p ⟨shared, before ++ w :: after, waiting⟩)
    (hseen : ∀ s ∈ shared.seen, s ∈ shared'.seen)
    (hopened : ∀ c, c ∈ nodes shared.queue.frontier ∨ c ∈ w.phase.opened →
      (c ∈ nodes shared'.queue.frontier ∨ c ∈ w'.phase.opened) ∨ c.state ∈ shared'.seen)
    (hclaimed : ∀ n ∈ w.phase.claimed, n ∈ w'.phase.claimed ∨
      Done p shared'.seen (Opened ⟨shared', before ++ w' :: after, waiting⟩) n)
    (hnew : ∀ s ∈ shared'.seen, s ∈ shared.seen ∨
      ∃ n ∈ w'.phase.claimed, n.state = s ∧ n.Fair p ∧ n.Tight p)
    (hfits : w'.phase.Fits p.rules .whenTaken shared'.seen)
    (hleast : ∀ n ∈ held (before ++ w' :: after), ∀ c,
      Opened ⟨shared', before ++ w' :: after, waiting⟩ c ∨
        Claimed ⟨shared', before ++ w' :: after, waiting⟩ c → n.estimate ≤ c.estimate) :
    Layered p ⟨shared', before ++ w' :: after, waiting⟩ := by
  refine ⟨h.cover.update hseen ?_ ?_ ?_, ?_, hleast⟩
  · intro c hc
    rw [opened_middle] at hc ⊢
    rcases hc with hc | hc
    · exact (hopened c hc).imp_left .inl
    · exact .inl (.inr hc)
  · intro n hn
    rw [claimed_middle] at hn ⊢
    rcases hn with hn | hn
    · exact (hclaimed n hn).imp_left .inl
    · exact .inl (.inr hn)
  · intro s hs
    rcases hnew s hs with hs | ⟨n, hn, hstate, hfair, htight⟩
    · exact .inl hs
    · exact .inr ⟨n, hstate, hfair, htight, claimed_middle.2 (.inl hn)⟩
  · exact forall_mem_replace h.fits (fun _ h => h.mono hseen) hfits

/-- The estimates of the nodes in flight stay the least ones if no node is taken and every node that
turns up is estimated at no less than one that was there. -/
theorem least_replace (h : Layered p ⟨shared, before ++ w :: after, waiting⟩)
    (hnode : ∀ n, w'.phase.node? = some n → w.phase.node? = some n)
    (hsource : ∀ c, (c ∈ nodes shared'.queue.frontier ∨ c ∈ w'.phase.opened) ∨ c ∈ w'.phase.claimed →
      ∃ o, ((o ∈ nodes shared.queue.frontier ∨ o ∈ w.phase.opened) ∨ o ∈ w.phase.claimed) ∧
        o.estimate ≤ c.estimate) :
    ∀ n ∈ held (before ++ w' :: after), ∀ c, Opened ⟨shared', before ++ w' :: after, waiting⟩ c ∨
      Claimed ⟨shared', before ++ w' :: after, waiting⟩ c → n.estimate ≤ c.estimate := by
  intro n hn c hc
  have hheld : n ∈ held (before ++ w :: after) := by
    rw [mem_held, exists_mem_middle] at hn ⊢
    exact hn.imp_left (hnode n)
  rw [opened_middle, claimed_middle] at hc
  have hleast : ∀ o, ((o ∈ nodes shared.queue.frontier ∨ o ∈ w.phase.opened) ∨
      ∃ v ∈ before ++ after, o ∈ v.phase.opened) ∨ (o ∈ w.phase.claimed ∨
      ∃ v ∈ before ++ after, o ∈ v.phase.claimed) → n.estimate ≤ o.estimate := by
    intro o ho
    refine h.least n hheld o ?_
    rw [opened_middle, claimed_middle]
    exact ho
  have hworker : (c ∈ nodes shared'.queue.frontier ∨ c ∈ w'.phase.opened) ∨ c ∈ w'.phase.claimed →
      n.estimate ≤ c.estimate := by
    intro hc
    obtain ⟨o, ho, hle⟩ := hsource c hc
    refine UInt64.le_trans (hleast o ?_) hle
    exact ho.imp .inl .inl
  rcases hc with (hc | hc) | (hc | hc)
  · exact hworker (.inl hc)
  · exact hleast c (.inl (.inr hc))
  · exact hworker (.inr hc)
  · exact hleast c (.inr (.inr hc))

/-- A worker who goes on with the nodes it has. -/
theorem pass (h : Layered p ⟨shared, before ++ w :: after, waiting⟩)
    (hseen : ∀ s, s ∈ shared'.seen ↔ s ∈ shared.seen) (hqueue : shared'.queue = shared.queue)
    (hopened : w'.phase.opened = w.phase.opened) (hclaimed : w'.phase.claimed = w.phase.claimed)
    (hnode : ∀ n, w'.phase.node? = some n → w.phase.node? = some n)
    (hfits : w'.phase.Fits p.rules .whenTaken shared'.seen) :
    Layered p ⟨shared', before ++ w' :: after, waiting⟩ := by
  refine h.replace ?_ ?_ ?_ ?_ hfits (h.least_replace hnode ?_)
  · exact fun s hs => (hseen s).2 hs
  · rw [hqueue, hopened]
    exact fun c hc => .inl hc
  · rw [hclaimed]
    exact fun n hn => .inl hn
  · exact fun s hs => .inl ((hseen s).1 hs)
  · rw [hqueue, hopened, hclaimed]
    exact fun c hc => ⟨c, hc, UInt64.le_refl _⟩

/-- A node that may be taken has the least estimate of all. -/
theorem le_of_take (h : Layered p pool) (ho : pool.Orderly) {queue : WorkQueue (OpenList S M)}
    (ht : pool.shared.queue.take pool.shared.stopped = .taken n queue) {c : Node S M}
    (hc : pool.Opened c ∨ pool.Claimed c) : n.estimate ≤ c.estimate := by
  obtain ⟨-, -, frontier, hpop, -, hgate⟩ := WorkQueue.take_eq_taken ht
  by_cases hfree : held pool.workers = []
  · -- Nobody is busy, so everything that is open waits.
    rcases hc with (hc | ⟨v, hv, hc⟩) | hc
    · exact OpenList.estimate_le_of_pop? ho.sound hpop hc
    · exact absurd hfree (held_ne_nil hv hc)
    · exact absurd (mem_held_of_claimed hc) (hfree ▸ List.not_mem_nil)
  · -- The node belongs to the layer of those in flight.
    obtain ⟨n', hn'⟩ := List.exists_mem_of_ne_nil _ hfree
    have hlayer : some n'.estimate.toNat = pool.shared.queue.layer := ho.layer n' hn'
    have hflight : pool.shared.queue.inFlight ≠ 0 := by
      rw [ho.inFlight]
      exact Nat.ne_of_gt (List.length_pos_of_mem hn')
    have heq : n.estimate.toNat = n'.estimate.toNat :=
      hgate.resolve_left hflight _ hlayer.symm _ rfl
    rw [UInt64.toNat_inj.1 heq]
    exact h.least n' hn' c hc

theorem taken (h : Layered p ⟨shared, before ++ w :: after, waiting⟩)
    (ho : Orderly ⟨shared, before ++ w :: after, waiting⟩) (hw : w.phase = .idle)
    {queue : WorkQueue (OpenList S M)} (hw' : w'.phase = .working n .claim)
    (ht : shared.queue.take shared.stopped = .taken n queue) :
    Layered p ⟨{ shared with queue }, before ++ w' :: after, waiting⟩ := by
  obtain ⟨-, -, frontier, hpop, rfl, hgate⟩ := WorkQueue.take_eq_taken ht
  have hmem := fun c => (nodes_pop ho.sound hpop).mem_iff (a := c)
  -- What is open was open before, and so was what is claimed.
  have hbefore : ∀ c, Opened ⟨{ shared with queue := { shared.queue with
      frontier, layer := Frontier.layerOf frontier n, inFlight := shared.queue.inFlight + 1 } },
      before ++ w' :: after, waiting⟩ c ∨ Claimed ⟨shared, before ++ w' :: after, waiting⟩ c →
      Opened ⟨shared, before ++ w :: after, waiting⟩ c ∨
        Claimed ⟨shared, before ++ w :: after, waiting⟩ c := by
    intro c hc
    rw [opened_middle, claimed_middle, hw'] at hc
    rw [opened_middle, claimed_middle, hw]
    rcases hc with ((hc | hc) | hc) | (hc | hc)
    · exact .inl (.inl (.inl ((hmem c).2 (List.mem_cons_of_mem _ hc))))
    · rw [Phase.mem_opened_working] at hc
      exact .inl (.inl (.inl ((hmem c).2 (hc.2 ▸ List.mem_cons_self ..))))
    · exact .inl (.inr hc)
    · rw [Phase.mem_claimed_working] at hc
      cases hc.1
    · exact .inr (.inr hc)
  refine h.replace (fun s hs => hs) ?_ ?_ (fun s hs => .inl hs) ?_ ?_
  · rw [hw, hw']
    rintro c (hc | hc)
    · rcases List.mem_cons.1 ((hmem c).1 hc) with rfl | hc
      · exact .inl (.inr (Phase.mem_opened_working.2 ⟨rfl, rfl⟩))
      · exact .inl (.inl hc)
    · cases hc
  · rw [hw]
    intro n hn
    cases hn
  · rw [hw']
    exact rfl
  · intro n' hn' c hc
    have hc := hbefore c hc
    rw [mem_held, exists_mem_middle, hw'] at hn'
    rcases hn' with hn' | hn'
    · cases hn'
      exact h.le_of_take ho ht hc
    · refine h.least n' (mem_held.2 ?_) c hc
      exact exists_mem_middle.2 (.inr hn')

section

variable (h : Layered p ⟨shared, before ++ w :: after, waiting⟩)
  (hframe : Stage.Frame shared shared')
  (hnode : ∀ n, w'.phase.node? = some n → w.phase.node? = some n)
  (hfits : w'.phase.Fits p.rules .whenTaken shared'.seen)
include h hframe hnode hfits

/-- A worker claims the state of its node, which no route reaches at a smaller estimate. -/
theorem claim (hopened : w.phase.opened = [n]) (hclaimed : w.phase.claimed = [])
    (hopened' : w'.phase.opened = []) (hclaimed' : w'.phase.claimed = [n])
    (hseen : ∀ s, s ∈ shared'.seen ↔ s = n.state ∨ s ∈ shared.seen) (hfair : n.Fair p)
    (htight : n.Tight p) : Layered p ⟨shared', before ++ w' :: after, waiting⟩ := by
  refine h.replace hframe.seen ?_ ?_ ?_ hfits (h.least_replace hnode ?_)
  · rw [hframe.queue, hopened]
    rintro c (hc | hc)
    · exact .inl (.inl hc)
    · rw [List.mem_singleton.1 hc]
      exact .inr ((hseen _).2 (.inl rfl))
  · rw [hclaimed]
    exact List.forall_mem_nil _
  · intro s hs
    rcases (hseen s).1 hs with rfl | hs
    · exact .inr ⟨n, hclaimed' ▸ List.mem_singleton_self n, rfl, hfair, htight⟩
    · exact .inl hs
  · rw [hframe.queue, hopened, hopened', hclaimed']
    rintro c ((hc | hc) | hc)
    · exact ⟨c, .inl (.inl hc), UInt64.le_refl _⟩
    · cases hc
    · exact ⟨c, .inl (.inr hc), UInt64.le_refl _⟩

/-- A worker drops a node whose state was claimed before. -/
theorem skip (hopened : w.phase.opened = [n]) (hclaimed : w.phase.claimed = [])
    (hopened' : w'.phase.opened = []) (hclaimed' : w'.phase.claimed = [])
    (hseen : ∀ s, s ∈ shared'.seen ↔ s ∈ shared.seen) (hn : n.state ∈ shared.seen) :
    Layered p ⟨shared', before ++ w' :: after, waiting⟩ := by
  refine h.replace hframe.seen ?_ ?_ (fun s hs => .inl ((hseen s).1 hs)) hfits
    (h.least_replace hnode ?_)
  · rw [hframe.queue, hopened]
    rintro c (hc | hc)
    · exact .inl (.inl hc)
    · rw [List.mem_singleton.1 hc]
      exact .inr ((hseen _).2 hn)
  · rw [hclaimed]
    exact List.forall_mem_nil _
  · rw [hframe.queue, hopened', hclaimed']
    rintro c ((hc | hc) | hc)
    · exact ⟨c, .inl (.inl hc), UInt64.le_refl _⟩
    · cases hc
    · cases hc

/-- A worker is done with its node once it has all children, none of them estimated below the node. -/
theorem expand (hopened : w.phase.opened = []) (hclaimed : w.phase.claimed = [n])
    (hclaimed' : w'.phase.claimed = []) (hseen : ∀ s, s ∈ shared'.seen ↔ s ∈ shared.seen)
    (hdone : Done p shared'.seen (· ∈ w'.phase.opened) n)
    (hle : ∀ c ∈ w'.phase.opened, n.estimate ≤ c.estimate) :
    Layered p ⟨shared', before ++ w' :: after, waiting⟩ := by
  refine h.replace hframe.seen ?_ ?_ (fun s hs => .inl ((hseen s).1 hs)) hfits
    (h.least_replace hnode ?_)
  · rw [hframe.queue, hopened]
    rintro c (hc | hc)
    · exact .inl (.inl hc)
    · cases hc
  · rw [hclaimed]
    intro n' hn'
    rw [List.mem_singleton.1 hn']
    exact .inr (hdone.mono (fun _ hs => hs) fun c hc => .inl (opened_middle.2 (.inl (.inr hc))))
  · rw [hframe.queue, hopened, hclaimed, hclaimed']
    rintro c ((hc | hc) | hc)
    · exact ⟨c, .inl (.inl hc), UInt64.le_refl _⟩
    · exact ⟨n, .inr (List.mem_singleton_self n), hle c hc⟩
    · cases hc

end

theorem task (h : Layered p ⟨shared, before ++ w :: after, waiting⟩) (hcons : p.Consistent)
    (hrecord : p.alreadySeen = .record)
    (hcarries : Carries (p.toProblem : Problem ω S M) p.rules (Node.Fair p) .whenTaken
      ⟨shared, before ++ w :: after, waiting⟩)
    (hflag : shared.slot.flag = false) (hstop : shared.stopped = false)
    {stage : Stage S M} {progress : Progress S M} (hw : w.phase = .working n stage)
    (hw' : w'.phase = afterTask n progress)
    (ht : stage.step p.toProblem .whenTaken n shared = (progress, shared')) :
    Layered p ⟨shared', before ++ w' :: after, waiting⟩ := by
  have hfits := h.fits w (by simp)
  have hcarried := hcarries.workers w (by simp)
  rw [hw] at hfits hcarried
  have hrespects := p.follows_rules (ω := ω).respects
  have hframe := Stage.frame_of_step_eq ht
  have hadvance := Stage.Fits.advance hrecord hfits
  have hfits' := Stage.Fits.step hrespects (PureProblem.plain_toProblem hrecord) hcarried.2 hfits
    hflag hstop
  have hchildren := hcarried.2.step hrespects shared
  rw [ht] at hadvance hfits' hchildren
  simp only at hadvance hfits' hchildren
  rw [← hw'] at hfits'
  have hnode : ∀ n', w'.phase.node? = some n' → w.phase.node? = some n' := by
    rw [hw, hw']
    cases progress <;> exact fun _ h => h
  cases hadvance with
  | onward hs hc | goal hs hc =>
    exact h.pass hs hframe.queue (by simp [hw, hw', afterTask, Phase.opened, hc])
      (by simp [hw, hw', afterTask, Phase.claimed, hc]) hnode hfits'
  | claimed hfresh hs hc hc' =>
    have hheld : n ∈ held (before ++ w :: after) := mem_held.2 ⟨w, by simp, by rw [hw]; rfl⟩
    refine h.claim hframe hnode hfits' (by simp [hw, Phase.opened, hc]) (by simp [hw, Phase.claimed, hc])
      (by simp [hw', afterTask, Phase.opened, hc']) (by simp [hw', afterTask, Phase.claimed, hc'])
      hs hcarried.1 ?_
    exact h.cover.tight hcons (fun _ => hcarries.fair_of_opened) hfresh (h.least n hheld)
  | skipped hs hc hn =>
    exact h.skip hframe hnode hfits' (by simp [hw, Phase.opened, hc]) (by simp [hw, Phase.claimed, hc])
      (by rw [hw']; rfl) (by rw [hw']; rfl) hs hn
  | children hs hc =>
    refine h.expand (n := n) hframe hnode hfits' (by simp [hw, Phase.opened, hc])
      (by simp [hw, Phase.claimed, hc]) (by rw [hw']; rfl) hs ?_ ?_
    · rw [hw'] at hfits' ⊢
      exact .of_covers hfits' fun c hc => hc
    · rw [hw']
      intro c hc
      obtain ⟨m, hm, rfl⟩ := (hchildren c hc).eq_successor
      exact hcons.steady.estimate_le_successor hcarried.1 hm

theorem completed (h : Layered p ⟨shared, before ++ w :: after, waiting⟩)
    (ho : Orderly ⟨shared, before ++ w :: after, waiting⟩) [Coin ρ]
    {children : List (Node S M)} {exhausted : Bool} {queue : WorkQueue (OpenList S M)} {coin coin' : ρ}
    (hw : w.phase = .complete n children) (hw' : w'.phase = if exhausted then .exhaust else .idle)
    (hc : shared.queue.complete children coin = .ok (exhausted, queue, coin')) :
    Layered p ⟨{ shared with queue }, before ++ w' :: after, waiting⟩ := by
  have hsound : Sound shared.queue.frontier := ho.sound
  obtain ⟨-, hnodes, -⟩ := WorkQueue.complete_eq_ok hsound hc
  have hmem : ∀ c, c ∈ nodes queue.frontier ↔ c ∈ w.phase.opened ∨ c ∈ nodes shared.queue.frontier := by
    intro c
    rw [hnodes.mem_iff, List.mem_append, hw]
    rfl
  have hempty : w'.phase.opened = [] ∧ w'.phase.claimed = [] ∧ w'.phase.node? = none := by
    rw [hw']
    cases exhausted <;> exact ⟨rfl, rfl, rfl⟩
  refine h.replace (fun s hs => hs) ?_ ?_ (fun s hs => .inl hs) ?_ (h.least_replace ?_ ?_)
  · exact fun c hc => .inl (.inl ((hmem c).2 hc.symm))
  · rw [hw]
    intro n' hn'
    cases hn'
  · rw [hw']
    cases exhausted <;> trivial
  · rw [hempty.2.2]
    nofun
  · rw [hempty.1, hempty.2.1]
    rintro c ((hc | hc) | hc)
    · exact ⟨c, .inl ((hmem c).1 hc).symm, UInt64.le_refl _⟩
    · cases hc
    · cases hc

end Layered

/-- What the slot says is right, and as long as it says nothing the pool is layered. -/
def Decided (p : PureProblem S M) (pool : Pool ω S M (OpenList S M) ρ) : Prop :=
  match pool.shared.slot.content with
  | .pending => pool.Layered p
  | .assigned n => p.IsBest n.toPath
  | .exhausted => ¬ p.Solvable

namespace Decided

theorem layered (h : pool.Decided p) (hs : pool.shared.slot.content = .pending) : pool.Layered p := by
  unfold Decided at h
  rwa [hs] at h

theorem of_layered (h : pool.Layered p) (hs : pool.shared.slot.content = .pending) :
    pool.Decided p := by
  unfold Decided
  rwa [hs]

/-- Once the slot says something, it does not matter what the pool does. -/
theorem of_slot (h : pool.Decided p) (hs : pool.shared.slot.content ≠ .pending)
    (hslot : next.shared.slot = pool.shared.slot) : next.Decided p := by
  unfold Decided at h ⊢
  rw [hslot]
  cases hc : pool.shared.slot.content <;> rw [hc] at h
  case pending => exact absurd hc hs
  all_goals exact h

/-- A goal that is offered to the empty slot is a best one, since it has the least estimate of all. -/
theorem won {shared shared' : Shared ω S M (OpenList S M)} {before after : List (Worker S M ρ)}
    {w w' : Worker S M ρ} {waiting : Waiting S M}
    (h : Layered p ⟨shared, before ++ w :: after, waiting⟩) (hcons : p.Consistent)
    (hcarries : Carries (p.toProblem : Problem ω S M) p.rules (Node.Fair p) .whenTaken
      ⟨shared, before ++ w :: after, waiting⟩)
    (hw : w.phase = .publish n) (hslot : shared'.slot.content = .assigned n) :
    Decided p ⟨shared', before ++ w' :: after, waiting⟩ := by
  have hcarried := hcarries.workers w (by simp)
  rw [hw] at hcarried
  have hheld : n ∈ held (before ++ w :: after) := mem_held.2 ⟨w, by simp, by rw [hw]; rfl⟩
  unfold Decided
  rw [hslot]
  exact h.cover.isBest hcons (fun _ => hcarries.fair_of_opened) hcarried.1 (Except.ok.inj hcarried.2)
    (h.least n hheld)

/-- When nothing is left to do, there is no route to a goal. -/
theorem exhausted (h : pool.Layered p) (hcons : p.Consistent)
    (hdrained : nodes pool.shared.queue.frontier = [] ∧ held pool.workers = [])
    (hslot : next.shared.slot.content = .exhausted) : next.Decided p := by
  unfold Decided
  rw [hslot]
  refine h.cover.not_solvable hcons ?_ fun n hn => ?_
  · rintro n (hn | ⟨v, hv, hn⟩)
    · rw [hdrained.1] at hn
      cases hn
    · exact held_ne_nil hv hn hdrained.2
  · exact absurd (mem_held_of_claimed hn) (hdrained.2 ▸ List.not_mem_nil)

variable [Coin ρ]

theorem step (hcons : p.Consistent) (hrecord : p.alreadySeen = .record) (ho : pool.Orderly)
    (hcarries : pool.Carries p.toProblem p.rules (Node.Fair p) .whenTaken) (h : pool.Decided p)
    (hs : pool.step p.toProblem .whenTaken actor = some next) (hstop : next.shared.stopped = false) :
    next.Decided p := by
  have honext := ho.step hs
  rcases step_cases hs with ⟨before, w, after, w', shared', -, hw, hacts, rfl⟩ |
    ⟨waiting', shared', -, hwaits, rfl⟩ | ⟨-, rfl⟩
  · by_cases hpending : pool.shared.slot.content = .pending
    · have h := h.layered hpending
      obtain ⟨shared, workers, waiting⟩ := pool
      obtain rfl : workers = _ := hw
      have hflag : shared.slot.flag = false := by
        rw [← Bool.not_eq_true]
        intro hflag
        obtain ⟨n, hn⟩ := ho.flag.1 hflag
        cases hpending.symm.trans hn
      generalize hph : w.phase = phase at hacts
      cases hacts with
      | refused | announced | kept | blamed =>
        refine of_layered (h.pass (fun _ => .rfl) rfl (by rw [hph]; rfl) (by rw [hph]; rfl) ?_ ?_)
          hpending
        · rw [hph]
          exact fun _ h => h
        · have := h.fits w (by simp)
          rw [hph] at this
          first | exact this | trivial
      | judged =>
        have hstop : shared.stopped = false := hstop
        refine of_layered (h.pass (fun _ => .rfl) rfl ?_ (by rw [hph]; rfl) ?_ trivial) hpending
        · rw [hph, hstop]
          rfl
        · rw [hph]
          exact fun _ h => h
      | taken ht => exact of_layered (h.taken ho hph rfl ht) hpending
      | task ht =>
        have hframe := Stage.frame_of_step_eq ht
        refine of_layered (h.task hcons hrecord hcarries hflag (hframe.unstopped hstop) hph rfl ht) ?_
        exact hframe.slot ▸ hpending
      | tooLate hf | forgone hf => exact absurd (hflag.symm.trans hf) nofun
      | won => exact won h hcons hcarries hph rfl
      | beaten hb => exact absurd hpending hb
      | closed => exact absurd hpending (ho.closing w (by simp) _ hph)
      | completed hc => exact of_layered (h.completed ho hph rfl hc) hpending
      | broke => exact absurd rfl (honext.unbroken _ (List.mem_append_right _ (List.mem_cons_self ..)) _ _)
      | exhausted =>
        refine exhausted h hcons (ho.drained (.inr ⟨w, by simp, hph⟩)) ?_
        show (shared.slot.markExhausted).content = _
        rw [Slot.markExhausted, hpending]
    · exact h.of_slot hpending (hacts.slot_eq hpending)
  · obtain ⟨shared, workers, waiting⟩ := pool
    have hslot : shared'.slot = shared.slot := by
      cases hwaits <;> rfl
    by_cases hpending : shared.slot.content = .pending
    · obtain ⟨hcover, hfits, hleast⟩ := h.layered hpending
      refine of_layered ?_ (hslot ▸ hpending)
      cases hwaits <;> exact ⟨hcover, hfits, hleast⟩
    · exact h.of_slot hpending hslot
  · cases hstop

theorem follow (hcons : p.Consistent) (hrecord : p.alreadySeen = .record)
    (hfresh : pool.IsFresh (.root p.initial (p.heuristic p.initial))) (hseen : pool.shared.seen = ∅)
    (actors : List Actor) : (pool.follow p.toProblem .whenTaken actors).Orderly ∧
      ((pool.follow p.toProblem .whenTaken actors).shared.stopped = false →
        (pool.follow p.toProblem .whenTaken actors).Decided p) := by
  let I (pool : Pool ω S M (OpenList S M) ρ) : Prop := pool.Orderly ∧
    pool.Carries p.toProblem p.rules (Node.Fair p) .whenTaken ∧
    (pool.shared.stopped = false → pool.Decided p)
  have hstart : I pool := by
    refine ⟨hfresh.orderly, hfresh.carries (.root p), fun _ => ?_⟩
    exact of_layered (hfresh.layered hseen) (by rw [hfresh.slot])
  have hend : I (pool.follow p.toProblem .whenTaken actors) := by
    refine follow_induction ?_ hstart actors
    rintro pool next actor ⟨ho, hc, hd⟩ hs
    refine ⟨ho.step hs, hc.step p.follows_rules.respects (inherited_fair p) hs, fun hstop => ?_⟩
    exact step hcons hrecord ho hc (hd (unstopped_of_step hs hstop)) hs hstop
  exact ⟨hend.1, hend.2.2⟩

omit [Coin ρ] in
/-- What the pool says it found is right. -/
theorem isOptimum (h : pool.Decided p) (ho : pool.Orderly) (hstop : pool.shared.stopped = false)
    {goal : Option (Node S M)} (hend : pool.outcome? = some goal) :
    p.IsOptimum (goal.map Node.toPath) := by
  have hslot := (ho.waiting goal (.inr (ended_of_outcome? hend).1)).resolve_left (by rw [hstop]; nofun)
  unfold Slot.resolution? at hslot
  unfold Decided at h
  split at hslot <;> cases hslot <;> rename_i hc <;> rw [hc] at h <;> exact h

end Decided

end Pool

/-! ### Optimality -/

namespace PoolSearch

variable [Coin ρ] {plan : Plan ρ} {arena middle : Arena ω} {pool : Pool ω S M (OpenList S M) ρ}
  {goal : Option (Node S M)}

/-- With a consistent heuristic, workers who claim states when they take them find a best path, or find
out that there is none, in whatever order they take their steps. -/
theorem finish_optimal (hcons : p.Consistent) (hrecord : p.alreadySeen = .record)
    (hprepare : prepareAStar p.toProblem plan arena = .ok pool middle) (actors : List Actor)
    (hend : (pool.follow p.toProblem .whenTaken actors).outcome? = some goal)
    (hstop : (pool.follow p.toProblem .whenTaken actors).shared.stopped = false) :
    ∃ path after, finish p.toProblem (pool.follow p.toProblem .whenTaken actors) goal middle =
      .ok path after ∧ p.IsOptimum path := by
  obtain ⟨remaining, world, hr, hfresh, hseen⟩ := isFresh_of_prepareAStar hprepare
  cases hr
  obtain ⟨ho, hd⟩ := Pool.Decided.follow hcons hrecord hfresh hseen actors
  obtain ⟨after, hfinish⟩ := exists_finish p (pool.follow p.toProblem .whenTaken actors) goal middle
  exact ⟨_, after, hfinish, (hd hstop).isOptimum ho hstop hend⟩

end PoolSearch

namespace Junction

/-- Two workers with the signposted problem. -/
def layers : Pool Unit Junction Junction (OpenList Junction Junction) Unit :=
  Pool.start (shared .empty 5 ∅) [(), ()]

theorem finish_layers_optimal :
    ∃ goal after, (layers.follow signposted.toProblem .whenTaken turns).outcome? = some goal ∧
      PoolSearch.finish signposted.toProblem (layers.follow signposted.toProblem .whenTaken turns) goal
        { world := () } = .ok (some ⟨[bypass, middle, finish], 5⟩) after ∧
      signposted.IsOptimum (some ⟨[bypass, middle, finish], 5⟩) := by
  have hprepare : PoolSearch.prepareAStar signposted.toProblem ⟨(), [(), ()]⟩ { world := () } =
      .ok layers { world := () } := rfl
  have hend : ((layers.follow signposted.toProblem .whenTaken turns).outcome?.map
        (Option.map Node.toPath)) = some (some ⟨[bypass, middle, finish], 5⟩) ∧
      (layers.follow signposted.toProblem .whenTaken turns).shared.stopped = false := by
    rw [OpenList.frontier_eq_listed]
    decide +kernel
  obtain ⟨goal, hgoal, hpath⟩ := Option.map_eq_some_iff.1 hend.1
  obtain ⟨path, after, hfinish, hbest⟩ :=
    PoolSearch.finish_optimal consistent_signposted rfl hprepare turns hgoal hend.2
  obtain rfl := PoolSearch.path_of_finish hfinish
  rw [hpath] at hfinish hbest
  exact ⟨goal, after, hgoal, hfinish, hbest⟩

end Junction

end StateSearch
