import StateSearch.Proofs.Observer
import StateSearch.Proofs.Pool.SingleWorker

/-!
# Taking the cheapest node, one at a time

A worker who claims states when their nodes are taken, and who is alone, does a best-first search that
opens no state again. `OneByOne` says what this search comes to for a problem of pure functions: each node
is taken from the open list when its turn comes, dropped if its state is known by then, and else expanded,
and of its successors those wait whose states are not recorded. A pool with one worker comes to the same
end, in whatever order the worker and the one who waits take their steps (`OneByOne.lands`).
-/

namespace StateSearch

open StateSearch.Random

variable {ω S M ρ : Type}

/-! ### The queue of a single worker -/

theorem OpenList.pushAll_eq [Coin ρ] (waiting : OpenList S M) (ns : List (Node S M)) (coin : ρ) :
    Frontier.pushAll waiting ns coin = (ns.foldl push waiting, coin) := by
  unfold Frontier.pushAll
  induction ns generalizing waiting with
  | nil => rfl
  | cons n ns ih => exact ih (waiting.push n)

/-- The queue holds these nodes. The worker is busy with one more node, or is about to ask for one. -/
structure WorkQueue.Holds (busy : Bool) (waiting : OpenList S M) (queue : WorkQueue (OpenList S M)) :
    Prop where
  frontier : queue.frontier = waiting
  sound : waiting.Sound
  inFlight : queue.inFlight = busy.toNat
  outstanding : queue.outstanding = waiting.toList.length + busy.toNat
  closed : queue.closed = (!busy && waiting.toList.isEmpty)

namespace WorkQueue.Holds

variable {waiting rest : OpenList S M} {queue : WorkQueue (OpenList S M)} {n : Node S M}

theorem seed [Coin ρ] (root : Node S M) (coin : ρ) :
    (WorkQueue.seed { frontier := OpenList.empty } root coin).1.Holds false (OpenList.empty.push root) := by
  have hperm := OpenList.toList_push .empty root
  have hlength : (OpenList.empty.push root).toList.length = 1 := hperm.length_eq
  refine ⟨rfl, OpenList.Sound.empty.push root, rfl, ?_, ?_⟩
  · rw [hlength]
    rfl
  · rw [List.isEmpty_eq_false_iff.2 (List.ne_nil_of_length_eq_add_one hlength)]
    rfl

theorem take (h : queue.Holds false waiting) (ht : waiting.pop? = some (n, rest)) :
    ∃ queue', queue.take false = .taken n queue' ∧ queue'.Holds true rest := by
  have hlength : waiting.toList.length = rest.toList.length + 1 := (OpenList.toList_of_pop? ht).length_eq
  have hempty := List.isEmpty_eq_false_iff.2 (List.ne_nil_of_length_eq_add_one hlength)
  have hpop : Frontier.pop? queue.frontier = some (n, rest) := h.frontier ▸ ht
  refine ⟨{ queue with
    frontier := rest, layer := Frontier.layerOf rest n, inFlight := queue.inFlight + 1 }, ?_, ?_⟩
  · have hcan : queue.canTake = true := by
      unfold canTake
      rw [LawfulFrontier.peek?_eq, hpop, h.inFlight]
      rfl
    unfold WorkQueue.take
    rw [h.closed, hempty, hcan, hpop]
    rfl
  · refine ⟨rfl, h.sound.of_pop? ht, ?_, ?_, ?_⟩
    · rw [h.inFlight]
      rfl
    · show queue.outstanding = _
      rw [h.outstanding, hlength]
      rfl
    · show queue.closed = _
      rw [h.closed, hempty]
      rfl

theorem complete [Coin ρ] (h : queue.Holds true waiting) (children : List (Node S M)) (coin : ρ) :
    ∃ queue' coin', queue.complete children coin =
        .ok ((children.foldl OpenList.push waiting).toList.isEmpty, queue', coin') ∧
      queue'.Holds false (children.foldl OpenList.push waiting) := by
  have hsound : LawfulFrontier.Sound queue.frontier := h.frontier ▸ h.sound
  have hflight : queue.inFlight = 1 := h.inFlight
  have houtstanding : queue.outstanding =
      (LawfulFrontier.nodes queue.frontier).length + queue.inFlight := by
    rw [h.frontier, hflight]
    exact h.outstanding
  obtain ⟨⟨exhausted, queue', coin'⟩, hok⟩ :=
    exists_complete_eq_ok hsound (by rw [hflight]; exact Nat.one_ne_zero) houtstanding children coin
  obtain ⟨-, -, hflight', hcount, -, -, hclosed, hexhausted⟩ := complete_eq_ok hsound hok
  have hidle : queue'.inFlight = 0 := Nat.succ.inj (hflight'.symm.trans hflight)
  have hfrontier : queue'.frontier = children.foldl OpenList.push waiting := by
    rw [frontier_of_complete hok, h.frontier, OpenList.pushAll_eq]
  have hnodes : LawfulFrontier.nodes queue'.frontier =
      (children.foldl OpenList.push waiting).toList := congrArg OpenList.toList hfrontier
  obtain rfl : exhausted = (children.foldl OpenList.push waiting).toList.isEmpty := by
    rw [Bool.eq_iff_iff, hexhausted, hnodes, List.isEmpty_iff]
    exact and_iff_left hidle
  refine ⟨queue', coin', hok, hfrontier, h.sound.pushAll children, hidle, ?_, ?_⟩
  · rw [hcount, hnodes, hidle]
    rfl
  · rw [hclosed, h.closed]
    rfl

end WorkQueue.Holds

/-! ### The search -/

variable [DecidableEq S] [Hashable S]

/-- The successors of `n` whose states are not recorded. -/
def PureProblem.fresh (p : PureProblem S M) (seen : Std.HashSet S) (n : Node S M) (moves : List M) :
    List (Node S M) :=
  (moves.map (p.successor n)).filter fun c => !seen.contains c.state

theorem PureProblem.length_fresh_le (p : PureProblem S M)
    (seen : Std.HashSet S) (n : Node S M) (moves : List M) :
    (p.fresh seen n moves).length ≤ moves.length := by
  refine Nat.le_trans (List.length_filter_le _ _) ?_
  rw [List.length_map]

theorem PureProblem.fresh_cons (p : PureProblem S M) (seen : Std.HashSet S) (n : Node S M) (m : M)
    (moves : List M) : p.fresh seen n (m :: moves) =
      if seen.contains (p.applyMove n.state m) then p.fresh seen n moves
      else p.successor n m :: p.fresh seen n moves := by
  unfold fresh
  rw [List.map_cons, List.filter_cons]
  cases hc : seen.contains (p.applyMove n.state m) <;> simp [PureProblem.successor, hc]

/-- The arena after the successors of `n` have been made, while these states are recorded. -/
def Arena.swept (arena : Arena ω) (p : PureProblem S M) (seen : Std.HashSet S) (n : Node S M) : Arena ω :=
  let moves := p.legalMoves n.state
  arena.tally 1 moves.length (moves.length - (p.fresh seen n moves).length)

/-- The arena after an expansion of `n`, while these states are recorded. -/
def Arena.expanded (arena : Arena ω) (p : PureProblem S M) (o : Observer ω S M) (seen : Std.HashSet S)
    (n : Node S M) : Arena ω :=
  (arena.swept p seen n).reported o n.state (arena.stats.expanded + 1)

/-- With these states recorded and these nodes waiting, the search finds this goal, or none, and leaves
this arena behind. -/
inductive OneByOne (p : PureProblem S M) (o : Observer ω S M) :
    Std.HashSet S → OpenList S M → Arena ω → Option (Node S M) → Arena ω → Prop
  | exhausted {seen : Std.HashSet S} {waiting : OpenList S M} {arena : Arena ω}
      (empty : waiting.pop? = none) : OneByOne p o seen waiting arena none arena
  | found {seen seen' : Std.HashSet S} {waiting rest : OpenList S M} {arena : Arena ω} {n : Node S M}
      (taken : waiting.pop? = some (n, rest))
      (new : (p.alreadySeen n.state).run seen = (.ok false, seen')) (goal : p.isGoal n.state = true) :
    OneByOne p o seen waiting arena (some n) (arena.tally 1 0 0)
  | dropped {seen seen' : Std.HashSet S} {waiting rest : OpenList S M} {arena after : Arena ω}
      {n : Node S M} {goal : Option (Node S M)} (taken : waiting.pop? = some (n, rest))
      (known : (p.alreadySeen n.state).run seen = (.ok true, seen'))
      (next : OneByOne p o seen' rest (arena.tally 0 0 1) goal after) :
    OneByOne p o seen waiting arena goal after
  | expanded {seen seen' : Std.HashSet S} {waiting rest : OpenList S M} {arena after : Arena ω}
      {n : Node S M} {goal : Option (Node S M)} (taken : waiting.pop? = some (n, rest))
      (new : (p.alreadySeen n.state).run seen = (.ok false, seen')) (no_goal : p.isGoal n.state = false)
      (next : OneByOne p o seen' ((p.fresh seen' n (p.legalMoves n.state)).foldl OpenList.push rest)
        (arena.expanded p o seen' n) goal after) :
    OneByOne p o seen waiting arena goal after

/-! ### The search in small steps -/

theorem Stage.step_report_observed {p : PureProblem S M} {o : Observer ω S M} {n : Node S M}
    {arena : Arena ω} {seen : Std.HashSet S} {queue : WorkQueue (OpenList S M)} (tries : Nat)
    (children : List (Node S M)) :
    Stage.step (p.observed o) .whenTaken n (arena.shared seen queue {}) (.report ⟨tries, [], children⟩) =
      (.children children.reverse, (arena.reported o n.state tries).shared seen queue {}) :=
  Stage.calling_shared (Act.ask_progress (p := p) n.state tries) fun _ => .children children.reverse

namespace Pool.Heads

variable [Coin ρ] {p : PureProblem S M} {o : Observer ω S M} {goal : Option (Node S M)}
  {arena after : Arena ω} {n : Node S M} {seen seen' : Std.HashSet S} {waiting rest : OpenList S M}
  {queue : WorkQueue (OpenList S M)} {coin : ρ}

theorem claimBy {q : Problem ω S M} {query : SeenQuery S} {known : Bool}
    (hrun : query.run seen = (.ok known, seen'))
    (h : Heads q .whenTaken goal after ⟨.working n (if known then .drop else .count), coin⟩
      (arena.shared seen' queue {})) :
    Heads q .whenTaken goal after ⟨.working n (.claimBy query), coin⟩ (arena.shared seen queue {}) := by
  induction query generalizing seen with
  | answer answer =>
    cases hrun
    cases known <;> exact task rfl rfl h
  | fail fault => cases hrun
  | insert s next ih => exact task rfl rfl (ih _ hrun)
  | contains s next ih => exact task rfl rfl (ih _ hrun)
  | size next ih => exact task rfl rfl (ih _ hrun)

theorem sweep {tries : Nat} {moves : List M} {children : List (Node S M)} (hopen : arena.stopped = false)
    (h : Heads (p.observed o) .whenTaken goal after
      ⟨.working n (.report ⟨tries, [], (p.fresh seen n moves).reverse ++ children⟩), coin⟩
      ((arena.tally 0 moves.length (moves.length - (p.fresh seen n moves).length)).shared seen queue {})) :
    Heads (p.observed o) .whenTaken goal after ⟨.working n (Sweep.next ⟨tries, moves, children⟩), coin⟩
      (arena.shared seen queue {}) := by
  -- The sweep lists its nodes with the latest first.
  induction moves generalizing arena children with
  | nil => exact h
  | cons m rest ih =>
    have hle := p.length_fresh_le seen n rest
    have hscreened : Heads (p.observed o) .whenTaken goal after ⟨.working n
        (if seen.contains (p.applyMove n.state m) then .discard ⟨tries, rest, children⟩
          else .price ⟨tries, rest, children⟩ m (p.applyMove n.state m)), coin⟩
        ((arena.tally 0 1 0).shared seen queue {}) := by
      rw [p.fresh_cons] at h
      cases hc : seen.contains (p.applyMove n.state m) with
      | true =>
        rw [hc] at h
        have hnext : Heads (p.observed o) .whenTaken goal after
            ⟨.working n (Sweep.next ⟨tries, rest, children⟩), coin⟩
            ((arena.tally 0 1 1).shared seen queue {}) := by
          refine ih hopen ?_
          rw [Arena.tally_tally]
          simp only [if_true, List.length_cons] at h
          rwa [Nat.add_comm 1, Nat.add_comm 1, ← Nat.sub_add_comm hle]
        exact task rfl rfl hnext
      | false =>
        rw [hc] at h
        have hnext : Heads (p.observed o) .whenTaken goal after
            ⟨.working n (Sweep.next ⟨tries, rest, p.successor n m :: children⟩), coin⟩
            ((arena.tally 0 1 0).shared seen queue {}) := by
          refine ih hopen ?_
          rw [Arena.tally_tally, Nat.zero_add, Nat.zero_add, Nat.add_comm 1]
          simp only [Bool.false_eq_true, if_false, List.length_cons, List.reverse_cons,
            List.append_assoc, Nat.add_sub_add_right] at h
          exact h
        exact task rfl (Stage.calling_shared (Act.ask_answer _) _)
          (task rfl (Stage.calling_shared (Act.ask_answer _) _) hnext)
    exact begin hopen (Act.ask_answer _) (task rfl rfl (screenBy rfl hscreened))

/-- Between two turns of the search, whatever the queue and the coin look like. -/
def Prepared (p : PureProblem S M) (o : Observer ω S M) (goal : Option (Node S M)) (after : Arena ω)
    (ρ : Type) [Coin ρ] (seen : Std.HashSet S) (waiting : OpenList S M) (arena : Arena ω) : Prop :=
  ∀ (queue : WorkQueue (OpenList S M)) (coin : ρ), queue.Holds false waiting →
    Heads (p.observed o) .whenTaken goal after
      ⟨if waiting.toList.isEmpty then .exhaust else .idle, coin⟩ (arena.shared seen queue {})

theorem Prepared.complete (n : Node S M) (children : List (Node S M)) (coin : ρ)
    (hqueue : queue.Holds true waiting)
    (h : Prepared p o goal after ρ seen (children.foldl OpenList.push waiting) arena) :
    Heads (p.observed o) .whenTaken goal after ⟨.complete n children, coin⟩
      (arena.shared seen queue {}) := by
  obtain ⟨queue', coin', hcomplete, hqueue'⟩ := hqueue.complete children coin
  refine .ahead rfl ?_ (h queue' coin' hqueue')
  simp only [stepWorker, Arena.shared, hcomplete]

/-- The worker takes the node that leaves the open list and finds out whether its state is known. -/
theorem take {known : Bool} (hqueue : queue.Holds false waiting) (hopen : arena.stopped = false)
    (htaken : waiting.pop? = some (n, rest))
    (hrun : (p.alreadySeen n.state).run seen = (.ok known, seen'))
    (h : ∀ queue', queue'.Holds true rest → Heads (p.observed o) .whenTaken goal after
      ⟨.working n (if known then .drop else .count), coin⟩ (arena.shared seen' queue' {})) :
    Heads (p.observed o) .whenTaken goal after
      ⟨if waiting.toList.isEmpty then .exhaust else .idle, coin⟩ (arena.shared seen queue {}) := by
  obtain ⟨queue', htake, hqueue'⟩ := hqueue.take htaken
  have hclaim : Heads (p.observed o) .whenTaken goal after ⟨.working n .claim, coin⟩
      (arena.shared seen queue' {}) :=
    task rfl (Stage.calling_shared (Act.ask_answer _) _) (claimBy hrun (h queue' hqueue'))
  have hne : waiting.toList.isEmpty = false := by
    rw [List.isEmpty_eq_false_iff]
    exact List.ne_nil_of_length_eq_add_one (OpenList.toList_of_pop? htaken).length_eq
  rw [hne]
  refine .ahead rfl ?_ hclaim
  simp only [stepWorker, Arena.shared, hopen, htake]
  rfl

/-- The worker counts the expansion and finds out whether the node leads to a goal. -/
theorem count (h : Heads (p.observed o) .whenTaken goal after
      ⟨afterTask n (if p.isGoal n.state then .goal else .onward (.list (arena.stats.expanded + 1))), coin⟩
      ((arena.tally 1 0 0).shared seen queue {})) :
    Heads (p.observed o) .whenTaken goal after ⟨.working n .count, coin⟩ (arena.shared seen queue {}) := by
  have htested : Heads (p.observed o) .whenTaken goal after
      ⟨.working n (.test (arena.stats.expanded + 1)), coin⟩ ((arena.tally 1 0 0).shared seen queue {}) :=
    task rfl (Stage.calling_shared (Act.ask_answer _) _) h
  exact task rfl rfl htested

/-- The worker makes the successors of its node, reports and hands them in. -/
theorem list (hqueue : queue.Holds true rest) (hopen : arena.stopped = false)
    (h : Prepared p o goal after ρ seen
      ((p.fresh seen n (p.legalMoves n.state)).foldl OpenList.push rest) (arena.expanded p o seen n)) :
    Heads (p.observed o) .whenTaken goal after ⟨.working n (.list (arena.stats.expanded + 1)), coin⟩
      ((arena.tally 1 0 0).shared seen queue {}) := by
  have hreported : Heads (p.observed o) .whenTaken goal after
      ⟨.working n (.report ⟨arena.stats.expanded + 1, [],
        (p.fresh seen n (p.legalMoves n.state)).reverse ++ []⟩), coin⟩
      ((arena.swept p seen n).shared seen queue {}) := by
    refine task rfl (Stage.step_report_observed _ _) ?_
    rw [List.append_nil, List.reverse_reverse]
    exact judge hopen (h.complete n _ coin hqueue)
  refine task rfl (Stage.calling_shared (Act.ask_answer _) _) (sweep hopen ?_)
  rw [Arena.tally_tally, Nat.zero_add, Nat.zero_add]
  exact hreported

end Pool.Heads

namespace OneByOne

variable [Coin ρ] {p : PureProblem S M} {o : Observer ω S M} {goal : Option (Node S M)}
  {arena after : Arena ω} {seen : Std.HashSet S} {waiting : OpenList S M}

open Pool

omit [Coin ρ] in
theorem stopped_eq (h : OneByOne p o seen waiting arena goal after) : after.stopped = arena.stopped := by
  induction h with
  | exhausted | found => rfl
  | dropped _ _ _ ih | expanded _ _ _ _ ih => exact ih

omit [Coin ρ] in
theorem precedes (h : OneByOne p o seen waiting arena goal after) : arena.Precedes after := by
  induction h with
  | exhausted | found => exact ⟨id, rfl, rfl, rfl⟩
  | dropped _ _ _ ih | expanded _ _ _ _ ih => exact ⟨ih.stopped, ih.cost, ih.workers, ih.faults⟩

theorem prepared (h : OneByOne p o seen waiting arena goal after) (hopen : arena.stopped = false) :
    Heads.Prepared p o goal after ρ seen waiting arena := by
  induction h with
  | exhausted hempty =>
    intro queue coin hqueue
    have hclosed := hqueue.closed
    rw [OpenList.pop?_eq_none hempty] at hclosed ⊢
    exact Heads.exhaust hclosed
  | found htaken hnew hgoal =>
    intro queue coin hqueue
    refine Heads.take hqueue hopen htaken hnew fun queue' hqueue' => ?_
    refine Heads.count ?_
    rw [hgoal]
    exact Heads.announce
  | dropped htaken hknown _ ih =>
    intro queue coin hqueue
    refine Heads.take hqueue hopen htaken hknown fun queue' hqueue' => ?_
    exact Heads.task rfl rfl (Heads.Prepared.complete _ [] coin hqueue' (ih hopen))
  | expanded htaken hnew hno_goal _ ih =>
    intro queue coin hqueue
    refine Heads.take hqueue hopen htaken hnew fun queue' hqueue' => ?_
    refine Heads.count ?_
    rw [hno_goal]
    exact Heads.list hqueue' hopen (ih hopen)

/-- A pool with one worker comes to the end of this search. -/
theorem lands {world : ω} {final : Arena ω} {path : Option (Path M)} (plan : PoolSearch.Plan ρ) {coin : ρ}
    (hcoins : plan.coins = [coin])
    (h : OneByOne p o ∅ (OpenList.empty.push (.root p.initial (p.heuristic p.initial)))
      { world, stats := { workers := 1 } } goal after)
    (hconclude : Act.conclude (p.observed o) goal after = .ok path final) :
    ∃ pool middle, PoolSearch.prepareAStar (p.observed o) plan { world, stats := { workers := 1 } } =
        .ok pool middle ∧
      PoolSearch.Lands (p.observed o) .whenTaken pool middle path final := by
  have hprepare : PoolSearch.prepareAStar (p.observed o) plan { world, stats := { workers := 1 } } =
      .ok (Pool.start (Arena.shared { world, stats := { workers := 1 } } ∅
        (WorkQueue.seed { frontier := OpenList.empty } (.root p.initial (p.heuristic p.initial))
          plan.first).1 {}) plan.coins) { world, stats := { workers := 1 } } := rfl
  obtain ⟨remaining, world', hremaining, hfresh, -⟩ := PoolSearch.isFresh_of_prepareAStar hprepare
  refine ⟨_, _, hprepare, PoolSearch.lands_of_aligned rfl h.precedes h.stopped_eq hconclude ⟨hfresh.orderly,
    ⟨.idle, coin⟩, ?_, ?_⟩⟩
  · rw [hcoins]
    rfl
  · have hroot := OpenList.toList_push .empty (Node.root p.initial (p.heuristic p.initial) : Node S M)
    have hne := List.isEmpty_eq_false_iff.2 (List.ne_nil_of_length_eq_add_one hroot.length_eq)
    have hready := h.prepared rfl _ coin (WorkQueue.Holds.seed _ plan.first)
    rw [hne] at hready
    exact hready

end OneByOne

end StateSearch
