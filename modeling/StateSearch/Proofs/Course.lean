import Mathlib.Algebra.BigOperators.Group.Finset.Basic
import Mathlib.Algebra.Order.BigOperators.Group.Finset
import Mathlib.Data.Finset.Card
import Mathlib.Data.Set.Finite.Basic
import StateSearch.Proofs.BestFirst
import StateSearch.Proofs.Observer

/-!
# Best-first search ends, whatever the heuristic

A best-first search opens a state again when a cheaper way to it turns up, and each time the open list may
grow. `Course` is the whole search of a problem of pure functions, as if its counters had no limit: which
nodes are expanded one after the other, and what is left at the end. As long as no counter reaches its limit
the search is its course (`Course.run_eq`).

A state is expanded only at a path cost below the one at which it is closed (`Course.not_holds`). So each
expansion lowers what the closed states cost altogether (`ceiling_insert_lt`), and otherwise a node leaves
the open list: the course ends (`exists_course`). Nothing is asked of the heuristic for this, nor for the
search to find a goal if there is one (`Inv.solvable_iff`).
-/

namespace StateSearch

variable {ω S M : Type}

/-! ### Counters below their limit -/

/-- No counter has reached its limit. -/
structure Stats.Fits (stats : Stats) : Prop where
  expanded : stats.expanded < counterLimit
  generated : stats.generated < counterLimit
  duplicates : stats.duplicates < counterLimit

theorem Stats.increment_of_lt {count : Nat} (h : count + 1 < counterLimit) :
    increment count = .ok (count + 1) :=
  if_pos h

namespace Arena

variable {arena : Arena ω} {e g d e' g' d' : Nat}

theorem fits_of_le (h : (arena.tally e' g' d').stats.Fits) (he : e ≤ e') (hg : g ≤ g') (hd : d ≤ d') :
    (arena.tally e g d).stats.Fits where
  expanded := Nat.lt_of_le_of_lt (Nat.add_le_add_left he _) h.expanded
  generated := Nat.lt_of_le_of_lt (Nat.add_le_add_left hg _) h.generated
  duplicates := Nat.lt_of_le_of_lt (Nat.add_le_add_left hd _) h.duplicates

theorem fits_of_tally (h : (arena.tally e g d).stats.Fits) : arena.stats.Fits :=
  fits_of_le (e := 0) (g := 0) (d := 0) h (Nat.zero_le _) (Nat.zero_le _) (Nat.zero_le _)

end Arena

namespace Act

variable {arena : Arena ω}

theorem countExpanded_eq (h : (arena.tally 1 0 0).stats.Fits) :
    countExpanded arena = .ok (arena.stats.expanded + 1) (arena.tally 1 0 0) := by
  unfold countExpanded
  rw [Stats.increment_of_lt h.expanded]
  rfl

theorem countGenerated_eq (h : (arena.tally 0 1 0).stats.Fits) :
    countGenerated arena = .ok () (arena.tally 0 1 0) := by
  unfold countGenerated
  rw [Stats.increment_of_lt h.generated]
  rfl

theorem countDuplicate_eq (h : (arena.tally 0 0 1).stats.Fits) :
    countDuplicate arena = .ok () (arena.tally 0 0 1) := by
  unfold countDuplicate
  rw [Stats.increment_of_lt h.duplicates]
  rfl

theorem inquire_eq {σ : Type} [SeenSet σ S] {p : PureProblem S M} {o : Observer ω S M} {s : S}
    {seen seen' : σ} {known : Bool} (h : (p.alreadySeen s).run seen = (.ok known, seen')) :
    inquire (p.observed o) s seen arena = .ok (known, seen') arena := by
  refine (bind_eq (ask_answer _)).trans ?_
  rw [h]
  rfl

end Act

/-- Closing a search gives the path to the goal, and notes what it costs. -/
theorem Act.exists_conclude_eq {p : PureProblem S M} (o : Observer ω S M) (goal : Option (Node S M))
    (arena : Arena ω) : ∃ final, conclude (p.observed o) goal arena = .ok (goal.map Node.toPath) final ∧
      final.stats = { arena.stats with cost := goal.map Node.pathCost } := by
  cases goal with
  | none => exact ⟨_, rfl, rfl⟩
  | some n => exact ⟨_, rfl, rfl⟩

namespace BestFirst

open Act

variable [DecidableEq S] [Hashable S]

/-! ### The course of a search -/

/-- The arena after an expansion of `n` while these states are closed. -/
def swept (p : PureProblem S M) (o : Observer ω S M) (n : Node S M) (closed : Std.HashMap S Cost)
    (arena : Arena ω) : Arena ω :=
  let moves := p.legalMoves n.state
  let made := successors p n closed moves
  (arena.tally 1 moves.length (moves.length - made.length)).reported o n.state (arena.stats.expanded + 1)

/-- With these states closed and these nodes waiting, the search expands these nodes one after the other,
finds this goal, or none, and leaves this arena behind. -/
inductive Course (p : PureProblem S M) (o : Observer ω S M) : Std.HashMap S Cost → OpenList S M →
    Arena ω → List (Node S M) → Option (Node S M) → Arena ω → Prop
  | exhausted {closed : Std.HashMap S Cost} {waiting : OpenList S M} {arena : Arena ω}
      (empty : waiting.pop? = none) : Course p o closed waiting arena [] none arena
  | found {closed : Std.HashMap S Cost} {view : ClosedAt S} {waiting rest : OpenList S M}
      {arena : Arena ω} {n : Node S M} (taken : waiting.pop? = some (n, rest))
      (new : (p.alreadySeen n.state).run (⟨closed, n.pathCost⟩ : ClosedAt S) = (.ok false, view))
      (goal : p.isGoal n.state = true) :
    Course p o closed waiting arena [n] (some n) (arena.tally 1 0 0)
  | dropped {closed : Std.HashMap S Cost} {view : ClosedAt S} {waiting rest : OpenList S M}
      {arena after : Arena ω} {n : Node S M} {ns : List (Node S M)} {goal : Option (Node S M)}
      (taken : waiting.pop? = some (n, rest))
      (known : (p.alreadySeen n.state).run (⟨closed, n.pathCost⟩ : ClosedAt S) = (.ok true, view))
      (next : Course p o view.best rest (arena.tally 0 0 1) ns goal after) :
    Course p o closed waiting arena ns goal after
  | expanded {closed : Std.HashMap S Cost} {view : ClosedAt S} {waiting rest : OpenList S M}
      {arena after : Arena ω} {n : Node S M} {ns : List (Node S M)} {goal : Option (Node S M)}
      (taken : waiting.pop? = some (n, rest))
      (new : (p.alreadySeen n.state).run (⟨closed, n.pathCost⟩ : ClosedAt S) = (.ok false, view))
      (no_goal : p.isGoal n.state = false)
      (next : Course p o view.best
        ((successors p n view.best (p.legalMoves n.state)).foldl OpenList.push rest)
        (swept p o n view.best arena) ns goal after) :
    Course p o closed waiting arena (n :: ns) goal after

/-- What the problem makes of the reports on these expansions, the first of which comes after so many. -/
def reports (o : Observer ω S M) : Nat → List (Node S M) → ω → ω
  | _, [], world => world
  | tries, n :: ns, world => reports o (tries + 1) ns (o.progress n.state (tries + 1) world)

/-- The open list that a search starts with. -/
def seedling (p : PureProblem S M) : OpenList S M :=
  OpenList.empty.push (.root p.initial (p.heuristic p.initial))

theorem length_successors_le (p : PureProblem S M) (n : Node S M) (closed : Std.HashMap S Cost)
    (moves : List M) : (successors p n closed moves).length ≤ moves.length :=
  Nat.le_trans (List.length_filter_le _ _) (Nat.le_of_eq (List.length_map _))

theorem explore_eq {p : PureProblem S M} {o : Observer ω S M} {n : Node S M}
    {closed : Std.HashMap S Cost} {moves : List M} {waiting : OpenList S M} {arena : Arena ω}
    (hfits : (arena.tally 0 moves.length
      (moves.length - (successors p n closed moves).length)).stats.Fits) :
    explore (p.observed o) n closed moves waiting arena =
      .ok ((successors p n closed moves).foldl OpenList.push waiting)
        (arena.tally 0 moves.length (moves.length - (successors p n closed moves).length)) := by
  induction moves generalizing waiting arena with
  | nil => rfl
  | cons m rest ih =>
    have hle := length_successors_le p n closed rest
    have hgenerated : (arena.tally 0 1 0).stats.Fits :=
      Arena.fits_of_le hfits (Nat.le_refl _) (by simp) (Nat.zero_le _)
    refine (bind_eq (ask_answer _)).trans ((bind_eq (countGenerated_eq hgenerated)).trans ?_)
    refine (bind_eq (ask_answer _)).trans ?_
    by_cases hc : ClosedAt.holds closed (p.applyMove n.state m)
        (Cost.plus n.pathCost (p.moveCost n.state m)) = true
    · have hsucc : successors p n closed (m :: rest) = successors p n closed rest := by
        simp [successors, PureProblem.successor, hc]
      have htally : arena.tally 0 (m :: rest).length
          ((m :: rest).length - (successors p n closed rest).length) =
            ((arena.tally 0 1 0).tally 0 0 1).tally 0 rest.length
              (rest.length - (successors p n closed rest).length) := by
        rw [Arena.tally_tally, Arena.tally_tally, List.length_cons]
        congr 1 <;> omega
      rw [hsucc, htally] at hfits
      rw [if_pos hc, hsucc, htally]
      have hduplicate : ((arena.tally 0 1 0).tally 0 0 1).stats.Fits := Arena.fits_of_tally hfits
      exact (bind_eq (countDuplicate_eq hduplicate)).trans (ih hfits)
    · have hsucc : successors p n closed (m :: rest) =
          p.successor n m :: successors p n closed rest := by
        simp [successors, PureProblem.successor, hc]
      have htally : arena.tally 0 (m :: rest).length
          ((m :: rest).length - (p.successor n m :: successors p n closed rest).length) =
            (arena.tally 0 1 0).tally 0 rest.length
              (rest.length - (successors p n closed rest).length) := by
        rw [Arena.tally_tally, List.length_cons, List.length_cons]
        congr 1 <;> omega
      rw [hsucc, htally] at hfits
      rw [if_neg hc, hsucc, htally]
      exact (bind_eq (ask_answer _)).trans (ih hfits)

namespace Course

variable {p : PureProblem S M} {o : Observer ω S M} {rep : S → S} {closed : Std.HashMap S Cost}
  {waiting : OpenList S M} {arena after : Arena ω} {ns : List (Node S M)} {goal : Option (Node S M)}

/-- Counters grow along the course. -/
theorem fits (h : Course p o closed waiting arena ns goal after) (hfits : after.stats.Fits) :
    arena.stats.Fits := by
  induction h with
  | exhausted => exact hfits
  | found => exact Arena.fits_of_tally hfits
  | dropped _ _ _ ih | expanded _ _ _ _ ih => exact Arena.fits_of_tally (ih hfits)

/-- The expansions of the course are those that are counted. -/
theorem expanded_eq (h : Course p o closed waiting arena ns goal after) :
    after.stats.expanded = arena.stats.expanded + ns.length := by
  induction h with
  | exhausted => rfl
  | found => rfl
  | dropped _ _ _ ih => exact ih
  | expanded _ _ _ _ ih =>
    rw [ih, List.length_cons]
    show _ + 1 + _ = _
    omega

theorem faults_eq (h : Course p o closed waiting arena ns goal after) : after.faults = arena.faults := by
  induction h with
  | exhausted | found => rfl
  | dropped _ _ _ ih | expanded _ _ _ _ ih => exact ih

/-- As long as its counters stay below their limit, the search takes its course. -/
theorem run_eq (h : Course p o closed waiting arena ns goal after) (hopen : arena.stopped = false)
    (hfits : after.stats.Fits) : run (p.observed o) closed waiting arena = .ok goal after := by
  induction h with
  | exhausted hempty =>
    rw [BestFirst.run_eq]
    simp only [turn, hempty]
    rfl
  | @found closed view waiting rest arena n htaken hnew hgoal =>
    have hturn : turn (p.observed o) closed waiting arena = .ok (.found n) (arena.tally 1 0 0) := by
      simp only [turn, htaken]
      refine (bind_eq (isStopped_eq hopen)).trans ?_
      refine (bind_eq (inquire_eq hnew)).trans ((bind_eq (countExpanded_eq hfits)).trans ?_)
      refine (bind_eq (ask_answer _)).trans ?_
      rw [hgoal]
      rfl
    rw [BestFirst.run_eq, hturn]
  | @dropped closed view waiting rest arena after n ns goal htaken hknown hnext ih =>
    have hturn : turn (p.observed o) closed waiting arena =
        .ok (.onward view.best rest) (arena.tally 0 0 1) := by
      simp only [turn, htaken]
      refine (bind_eq (isStopped_eq hopen)).trans ?_
      exact (bind_eq (inquire_eq hknown)).trans (bind_eq (countDuplicate_eq (hnext.fits hfits)))
    rw [BestFirst.run_eq, hturn]
    exact ih hopen hfits
  | @expanded closed view waiting rest arena after n ns goal htaken hnew hno_goal hnext ih =>
    have hswept := hnext.fits hfits
    have hturn : turn (p.observed o) closed waiting arena =
        .ok (.onward view.best ((successors p n view.best (p.legalMoves n.state)).foldl
          OpenList.push rest)) (swept p o n view.best arena) := by
      simp only [turn, htaken]
      refine (bind_eq (isStopped_eq hopen)).trans ?_
      have hcount : (arena.tally 1 0 0).stats.Fits :=
        ⟨hswept.expanded, Nat.lt_of_le_of_lt (Nat.le_add_right _ _) hswept.generated,
          Nat.lt_of_le_of_lt (Nat.le_add_right _ _) hswept.duplicates⟩
      refine (bind_eq (inquire_eq hnew)).trans ((bind_eq (countExpanded_eq hcount)).trans ?_)
      refine (bind_eq (ask_answer _)).trans ?_
      rw [hno_goal]
      refine (bind_eq (ask_answer _)).trans ?_
      have hexplore : explore (p.observed o) n view.best (p.legalMoves n.state) rest
          (arena.tally 1 0 0) = .ok _ _ :=
        explore_eq ⟨hswept.expanded, hswept.generated, hswept.duplicates⟩
      refine (bind_eq hexplore).trans ((bind_eq (ask_progress _ _)).trans ?_)
      rw [Arena.tally_tally, Nat.zero_add, Nat.zero_add]
      rfl
    rw [BestFirst.run_eq, hturn]
    exact ih hopen hfits

/-- The search ends as its course does. -/
theorem solve_eq (h : Course p o ∅ (seedling p) arena ns goal after) (hopen : arena.stopped = false)
    (hfits : after.stats.Fits) : solve (p.observed o) arena = conclude (p.observed o) goal after :=
  (bind_eq (ask_answer _)).trans (bind_eq (h.run_eq hopen hfits))

/-- The expansions of the course are those that the problem is told of, and the goal. -/
theorem world_eq (h : Course p o closed waiting arena ns goal after) :
    after.world = reports o arena.stats.expanded (ns.filter (!p.isGoal ·.state)) arena.world := by
  induction h with
  | exhausted => rfl
  | found _ _ hgoal =>
    rw [List.filter_cons_of_neg (by simp [hgoal])]
    rfl
  | dropped _ _ _ ih => exact ih
  | expanded _ _ hno_goal _ ih =>
    rw [List.filter_cons_of_pos (by simp [hno_goal])]
    exact ih

end Course

/-! ### A state is expanded again only if it has become cheaper -/

section

variable {p : PureProblem S M} {o : Observer ω S M} {rep : S → S} {closed : Std.HashMap S Cost}
  {waiting rest : OpenList S M} {arena after : Arena ω} {n : Node S M} {ns : List (Node S M)}
  {goal : Option (Node S M)} {s : S} {c : Cost} {view : ClosedAt S}

theorem run_record_of_holds (h : ClosedAt.holds closed s c = true) :
    (SeenQuery.record s).run (⟨closed, c⟩ : ClosedAt S) = (.ok true, ⟨closed, c⟩) := by
  simp [SeenQuery.record, SeenQuery.run, SeenSet.insert, ClosedAt.insert, h]

theorem run_record_of_not_holds (h : ClosedAt.holds closed s c = false) :
    (SeenQuery.record s).run (⟨closed, c⟩ : ClosedAt S) = (.ok false, ⟨closed.insert s c, c⟩) := by
  simp [SeenQuery.record, SeenQuery.run, SeenSet.insert, ClosedAt.insert, h]

theorem eq_of_known
    (h : (SeenQuery.record s).run (⟨closed, c⟩ : ClosedAt S) = (.ok true, view)) :
    ClosedAt.holds closed s c = true ∧ view.best = closed := by
  cases hholds : ClosedAt.holds closed s c with
  | true =>
    rw [run_record_of_holds hholds] at h
    exact ⟨rfl, (Prod.mk.inj h).2 ▸ rfl⟩
  | false =>
    rw [run_record_of_not_holds hholds] at h
    cases h

theorem eq_of_new
    (h : (SeenQuery.record s).run (⟨closed, c⟩ : ClosedAt S) = (.ok false, view)) :
    ClosedAt.holds closed s c = false ∧ view.best = closed.insert s c := by
  cases hholds : ClosedAt.holds closed s c with
  | true =>
    rw [run_record_of_holds hholds] at h
    cases h
  | false =>
    rw [run_record_of_not_holds hholds] at h
    exact ⟨rfl, (Prod.mk.inj h).2 ▸ rfl⟩

/-- A state is expanded only below the cost at which it is closed. -/
theorem Course.not_holds (hrecord : ∀ s, p.alreadySeen s = .record (rep s))
    (h : Course p o closed waiting arena ns goal after) :
    ∀ n ∈ ns, ClosedAt.holds closed (rep n.state) n.pathCost = false := by
  induction h with
  | exhausted => simp
  | found _ hnew =>
    rw [hrecord] at hnew
    simpa using (eq_of_new hnew).1
  | dropped _ hknown _ ih =>
    rw [hrecord] at hknown
    exact (eq_of_known hknown).2 ▸ ih
  | expanded _ hnew _ _ ih =>
    rw [hrecord] at hnew
    obtain ⟨hfirst, hview⟩ := eq_of_new hnew
    refine List.forall_mem_cons.2 ⟨hfirst, fun n' hn' => ?_⟩
    have hlater := ih n' hn'
    rw [hview] at hlater
    exact Bool.eq_false_iff.2 fun hholds => by
      rw [ClosedAt.holds_insert hfirst hholds] at hlater
      cases hlater

/-- Of two expansions that count as the same state, the later one is cheaper. -/
theorem Course.cheaper (hrecord : ∀ s, p.alreadySeen s = .record (rep s))
    (h : Course p o closed waiting arena ns goal after) :
    ns.Pairwise fun m n => rep n.state = rep m.state → n.pathCost < m.pathCost := by
  induction h with
  | exhausted => exact .nil
  | found => exact List.pairwise_singleton _ _
  | dropped _ _ _ ih => exact ih
  | expanded _ hnew _ hnext ih =>
    rw [hrecord] at hnew
    refine List.pairwise_cons.2 ⟨fun n' hn' heq => ?_, ih⟩
    have hlater := hnext.not_holds hrecord n' hn'
    rw [(eq_of_new hnew).2, heq] at hlater
    refine UInt64.not_le.1 fun hle => ?_
    rw [ClosedAt.holds_mono ClosedAt.holds_insert_self hle] at hlater
    cases hlater

/-! ### The course ends -/

/-- What a state that is closed at this cost, if it is, can still cost when it is expanded again. -/
def headroom : Option Cost → Nat
  | some cost => cost.toNat
  | none => UInt64.size

/-- What these states cost altogether, if those that are not closed cost more than any cost. -/
def ceiling (classes : Finset S) (closed : Std.HashMap S Cost) : Nat :=
  ∑ s ∈ classes, headroom closed[s]?

theorem headroom_insert_lt (h : ClosedAt.holds closed s c = false) :
    headroom (closed.insert s c)[s]? < headroom closed[s]? := by
  rw [Std.HashMap.getElem?_insert_self]
  cases hs : closed[s]? with
  | none => exact c.toNat_lt
  | some k =>
    have hk : ¬ k ≤ c := fun hle => by
      rw [ClosedAt.holds_iff.2 ⟨k, hs, hle⟩] at h
      cases h
    exact UInt64.lt_iff_toNat_lt.1 (UInt64.not_le.1 hk)

theorem ceiling_insert_lt {classes : Finset S} (hs : s ∈ classes)
    (h : ClosedAt.holds closed s c = false) :
    ceiling classes (closed.insert s c) < ceiling classes closed := by
  refine Finset.sum_lt_sum (fun t _ => ?_) ⟨s, hs, headroom_insert_lt h⟩
  by_cases heq : s = t
  · exact heq ▸ Nat.le_of_lt (headroom_insert_lt h)
  · rw [Std.HashMap.getElem?_insert, if_neg (by simpa using heq)]

/-- If finitely many states can be reached, the search comes to an end. -/
theorem exists_course (o : Observer ω S M) (hrecord : ∀ s, p.alreadySeen s = .record (rep s))
    {classes : Finset S} (hclasses : ∀ s, p.Reachable s → rep s ∈ classes)
    (closed : Std.HashMap S Cost) (waiting : OpenList S M) (hsound : waiting.Sound)
    (hfair : ∀ n ∈ waiting.toList, n.Fair p) (arena : Arena ω) :
    ∃ ns goal after, Course p o closed waiting arena ns goal after := by
  match hp : waiting.pop? with
  | none => exact ⟨[], none, arena, .exhausted hp⟩
  | some (n, rest) =>
    match hholds : ClosedAt.holds closed (rep n.state) n.pathCost, hgoal : p.isGoal n.state with
    | true, _ =>
      have hrun := run_record_of_holds hholds
      rw [← hrecord] at hrun
      obtain ⟨ns, goal, after, hnext⟩ := exists_course o hrecord hclasses closed rest
        (hsound.of_pop? hp) (fun c hc => hfair c (OpenList.mem_of_mem_pop? hp hc)) (arena.tally 0 0 1)
      exact ⟨ns, goal, after, .dropped hp hrun hnext⟩
    | false, true =>
      have hrun := run_record_of_not_holds hholds
      rw [← hrecord] at hrun
      exact ⟨[n], some n, _, .found hp hrun hgoal⟩
    | false, false =>
      have hrun := run_record_of_not_holds hholds
      rw [← hrecord] at hrun
      obtain ⟨ns, goal, after, hnext⟩ := exists_course o hrecord hclasses
        (closed.insert (rep n.state) n.pathCost) _ ((hsound.of_pop? hp).pushAll _)
        (fair_pushAll hsound hp List.filter_sublist.subset hfair) (swept p o n _ arena)
      exact ⟨n :: ns, goal, after, .expanded hp hrun hgoal hnext⟩
-- Either the closed states have become cheaper, or one node less waits.
termination_by (ceiling classes closed, waiting.toList.length)
decreasing_by
  · rw [(OpenList.toList_of_pop? hp).length_eq]
    exact Prod.Lex.right _ (Nat.lt_succ_self _)
  · have hclass := hclasses _ (hfair n (OpenList.mem_of_pop? hp)).reachable
    exact Prod.Lex.left _ _ (ceiling_insert_lt hclass hholds)

/-! ### The course finds a goal if there is one -/

theorem Inv.not_solvable_of_pop?_eq_none (I : Inv p closed waiting) (hp : waiting.pop? = none) :
    ¬ p.Solvable := by
  rintro ⟨s, ⟨ms, c, route⟩, hs⟩
  rcases I.covers route with h | ⟨n, hn, -⟩
  · obtain ⟨k, hk, -⟩ := ClosedAt.holds_iff.1 h
    rw [I.goal _ k hk] at hs
    cases hs
  · rw [OpenList.pop?_eq_none hp] at hn
    cases hn

theorem Inv.solvable_iff (hseen : p.alreadySeen = .record) (I : Inv p closed waiting)
    (h : Course p o closed waiting arena ns goal after) : goal.isSome = true ↔ p.Solvable := by
  induction h with
  | exhausted hempty => simpa using I.not_solvable_of_pop?_eq_none hempty
  | @found closed view waiting rest arena n htaken _ hgoal =>
    have hreachable := (I.fair n (OpenList.mem_of_pop? htaken)).reachable
    exact iff_of_true rfl ⟨n.state, hreachable, hgoal⟩
  | dropped htaken hknown _ ih =>
    rw [hseen] at hknown
    obtain ⟨hholds, hview⟩ := eq_of_known hknown
    exact ih (hview ▸ I.drop htaken hholds)
  | expanded htaken hnew hno_goal _ ih =>
    rw [hseen] at hnew
    obtain ⟨hholds, hview⟩ := eq_of_new hnew
    exact ih (hview ▸ I.expand htaken hholds hno_goal)

end

/-- With any heuristic and any costs, best-first search ends if finitely many states can be reached, and it
finds a goal exactly if one can be reached. A state is expanded again only at a smaller path cost than
each time before. The problem is told of all expansions but that of the goal. -/
theorem solve_complete (p : PureProblem S M) (hseen : p.alreadySeen = .record)
    (hfinite : {s | p.Reachable s}.Finite) (o : Observer ω S M) (arena : Arena ω)
    (hopen : arena.stopped = false) :
    ∃ ns goal after, Course p o ∅ (seedling p) arena ns goal after ∧
      (goal.isSome = true ↔ p.Solvable) ∧
      (ns.Pairwise fun m n => n.state = m.state → n.pathCost < m.pathCost) ∧
      after.stats.expanded = arena.stats.expanded + ns.length ∧
      after.world = reports o arena.stats.expanded (ns.filter (!p.isGoal ·.state)) arena.world ∧
      (after.stats.Fits → ∃ final, solve (p.observed o) arena = .ok (goal.map Node.toPath) final ∧
        final.stats = { after.stats with cost := goal.map Node.pathCost }) := by
  have hrecord : ∀ s, p.alreadySeen s = .record (id s) := congrFun hseen
  have I := Inv.start p
  obtain ⟨ns, goal, after, hcourse⟩ := exists_course o hrecord
    (fun s hs => hfinite.mem_toFinset.2 hs) ∅ (seedling p) I.sound I.fair arena
  refine ⟨ns, goal, after, hcourse, I.solvable_iff hseen hcourse, hcourse.cheaper hrecord,
    hcourse.expanded_eq, hcourse.world_eq, fun hfits => ?_⟩
  rw [hcourse.solve_eq hopen hfits]
  exact exists_conclude_eq o goal after

end BestFirst

/-! ### An example -/

namespace Junction

/-- The detour with a heuristic that overestimates what is left from the bypass. -/
def misled : PureProblem Junction Junction :=
  { detour with heuristic := fun s => if s = bypass then 5 else 0 }

theorem finite_reachable_misled : {s | misled.Reachable s}.Finite :=
  (List.finite_toSet [start, bypass, middle, finish]).subset fun s _ => by cases s <;> simp

theorem solve_misled_complete :
    misled.alreadySeen = .record ∧ {s | misled.Reachable s}.Finite ∧
    ∃ ns goal after, BestFirst.Course misled .deaf ∅ (BestFirst.seedling misled) { world := () }
        ns goal after ∧
      (goal.isSome = true ↔ misled.Solvable) ∧
      (ns.Pairwise fun m n => n.state = m.state → n.pathCost < m.pathCost) := by
  obtain ⟨ns, goal, after, hcourse, hgoal, hcheaper, -⟩ := BestFirst.solve_complete misled rfl
    finite_reachable_misled (.deaf : Observer Unit Junction Junction) { world := () } rfl
  exact ⟨rfl, finite_reachable_misled, ns, goal, after, hcourse, hgoal, hcheaper⟩

end Junction

end StateSearch
