import StateSearch.Proofs.Deadline
import StateSearch.Proofs.Likeness
import StateSearch.Proofs.Observer
import StateSearch.Proofs.Pool.Levels
import StateSearch.Proofs.Soundness

/-!
# A search that is asked to stop does so promptly

Any call may ask for a stop, in any state and as often as it likes, and nothing is assumed of the states that
can be reached. A search without workers that is asked while it has a node in hand finishes this node, does so
as if nobody had asked, and ends; the node is the only one whose path it can still return (`EndsWith`). One that
is asked before that does not take another node. With workers, the queue hands out no node from then on, in
whatever order the steps are taken, so that at most the nodes in flight are still expanded (`Pool.WindsDown`).

To say what would have happened if nobody had asked, a problem is compared with itself when its calls are
hushed (`Problem.hushed`). An act that does not look at the flag does the same in both (`Act.Regardless`).
-/

namespace StateSearch

open StateSearch.Random LawfulFrontier

variable {ω S M F ρ α : Type}

/-! ### Acts that do not look at the flag -/

/-- The same call, but it does not ask for a stop. -/
def Call.hushed (call : Call ω α) : Call ω α := fun world => { call world with raisesStop := false }

def Problem.hushed (p : Problem ω S M) : Problem ω S M where
  initial := p.initial
  isGoal s := (p.isGoal s).hushed
  legalMoves s := (p.legalMoves s).hushed
  applyMove s m := (p.applyMove s m).hushed
  moveCost s m := (p.moveCost s m).hushed
  alreadySeen s := (p.alreadySeen s).hushed
  heuristic s := (p.heuristic s).hushed
  onProgress s tries := (p.onProgress s tries).hushed
  onFinished path s tries := (p.onFinished path s tries).hushed
  pace := p.pace

def Arena.lowered (arena : Arena ω) : Arena ω := { arena with stopped := false }

theorem Arena.lowered_of_open {arena : Arena ω} (h : arena.stopped = false) : arena.lowered = arena := by
  obtain ⟨world, stopped, stats, faults⟩ := arena
  cases h
  rfl

namespace Act

/-- What an act comes to, apart from the flag. -/
def lowered : EStateM.Result Fault (Arena ω) α → EStateM.Result Fault (Arena ω) α
  | .ok value arena => .ok value arena.lowered
  | .error fault arena => .error fault arena.lowered

/-- The act does what the quiet one does, whether or not the flag is up, and apart from the flag. -/
def Regardless (act quiet : Act ω α) : Prop := ∀ arena, lowered (act arena) = quiet arena.lowered

theorem Like.regardless {act quiet : Act ω α} (h : Like id false act quiet) : Regardless act quiet := by
  intro arena
  refine .trans ?_ (h arena)
  cases act arena <;> rfl

end Act

theorem Problem.like_hushed (p : Problem ω S M) : p.Like id false p.hushed where
  initial := rfl
  isGoal _ _ := rfl
  legalMoves _ _ := rfl
  applyMove _ _ _ := rfl
  moveCost _ _ _ := rfl
  alreadySeen _ _ := rfl
  heuristic _ _ := rfl
  onProgress _ _ _ := rfl
  onFinished _ _ _ _ := rfl
  pace := rfl

open Act

/-! ### The node in hand -/

/-- How a search ends that is asked to stop while it has node `n` in hand. What it does with the node is `hand`,
and `quiet` is what it does with it when nobody asks. -/
structure EndsWith {τ : Type} (p : Problem ω S M) (n : Node S M) (hand quiet : Act ω τ)
    (goal? : τ → Option (Node S M)) (arena : Arena ω)
    (upshot : EStateM.Result Fault (Arena ω) (Option (Path M))) : Prop where
  /-- The work on the node goes on to its end. -/
  unhurried : lowered (hand arena) = quiet arena
  /-- Then the search is closed. -/
  last : upshot = (hand >>= fun result => conclude p (goal? result)) arena
  /-- The path leads to the node, which is a goal. -/
  goal : ∀ path after, upshot = .ok (some path) after →
    path = n.toPath ∧ ∃ world, (p.isGoal n.state world).result = .ok true
  expanded : (arenaAfter upshot).stats.expanded ≤ arena.stats.expanded + 1

theorem EndsWith.intro {τ : Type} {p : Problem ω S M} {n : Node S M} {hand quiet : Act ω τ}
    {goal? : τ → Option (Node S M)} {arena : Arena ω}
    {upshot : EStateM.Result Fault (Arena ω) (Option (Path M))} (hquiet : Regardless hand quiet)
    (hopen : arena.stopped = false)
    (hlast : upshot = (hand >>= fun result => conclude p (goal? result)) arena)
    (hgoal : wp hand (fun result _ => ∀ goal ∈ goal? result,
      goal = n ∧ ∃ world, (p.isGoal n.state world).result = .ok true) (fun _ _ => True) arena)
    (hexpanded : wp hand (fun _ after => after.stats.expanded ≤ arena.stats.expanded + 1)
      (fun _ after => after.stats.expanded ≤ arena.stats.expanded + 1) arena) :
    EndsWith p n hand quiet goal? arena upshot := by
  refine ⟨?_, hlast, ?_, ?_⟩
  · rw [hquiet arena, Arena.lowered_of_open hopen]
  · intro path after hpath
    rw [hlast] at hpath
    obtain ⟨result, middle, hhand, hconclude⟩ := of_bind_eq_ok hpath
    obtain ⟨goal, hfound, rfl⟩ := Option.map_eq_some_iff.1 (path_of_conclude hconclude).symm
    obtain ⟨rfl, hworld⟩ := hgoal.of_eq_ok hhand goal hfound
    exact ⟨rfl, hworld⟩
  · have hkeeps : ∀ result, Keeps (fun arena : Arena ω => arena.stats.expanded) (conclude p (goal? result)) :=
      fun result => .conclude_expanded p (goal? result)
    rw [hlast, Keeps.view_bind hkeeps]
    unfold wp at hexpanded
    cases hhand : hand arena with
    | ok result after =>
      rw [hhand] at hexpanded
      exact hexpanded
    | error fault after =>
      rw [hhand] at hexpanded
      exact hexpanded

theorem wp_countExpanded_le {next : Nat → Act ω α} {arena : Arena ω}
    (hnext : ∀ count, Keeps (fun arena : Arena ω => arena.stats.expanded) (next count)) :
    wp (countExpanded >>= next) (fun _ after => after.stats.expanded ≤ arena.stats.expanded + 1)
      (fun _ after => after.stats.expanded ≤ arena.stats.expanded + 1) arena := by
  rw [wp_bind]
  refine wp_countExpanded_tally ?_ fun _ => Nat.le_succ _
  refine (hnext _).wp (fun _ after h => ?_) fun _ after h => ?_
  · exact Nat.le_of_eq h
  · exact Nat.le_of_eq h

/-! ### Searches that take turns -/

namespace TurnTaking

variable {σ τ : Type} {p quiet : Problem ω S M} {search : TurnTaking p σ τ} {n : Node S M} {lists rest : σ}
  {arena middle after : Arena ω}

/-- After some turns the search that starts in `arena` has these lists, in the last of these arenas. -/
inductive Arrives (search : TurnTaking p σ τ) (arena : Arena ω) : σ → Arena ω → Prop
  | begun {lists : σ} {after : Arena ω} (h : search.start arena = .ok lists after) : Arrives search arena lists after
  | onward {lists rest : σ} {result : τ} {middle after : Arena ω} (h : Arrives search arena lists middle)
      (hturn : search.turn lists middle = .ok result after) (hnext : search.next result = .inr rest) :
    Arrives search arena rest after

theorem Arrives.solve_eq (h : search.Arrives arena lists middle) :
    search.solve arena = (search.run lists >>= conclude p) middle := by
  induction h with
  | begun h =>
    rw [search.solve_eq]
    exact bind_eq h
  | onward _ hturn hnext ih =>
    rw [ih]
    exact bind_eq_bind (by rw [run_of_turn hturn, hnext]; rfl)

/-- A search that is asked to stop between two turns is closed, and one that has a node in hand finishes it, as it
would in the search where nobody asks. -/
def StopsPromptly (search : TurnTaking p σ τ) (unasked : TurnTaking quiet σ τ) : Prop :=
  ∀ {arena middle : Arena ω} {lists : σ}, search.Arrives arena lists middle →
    (middle.stopped = true → search.solve arena = conclude p none middle) ∧
    ∀ n rest, search.take? lists = some (n, rest) → middle.stopped = false →
      (arenaAfter (search.hand n rest middle)).stopped = true →
        EndsWith p n (search.hand n rest) (unasked.hand n rest) search.goal? middle (search.solve arena)

/-- A turn in which the flag was raised is the last one. -/
theorem run_eq_of_raised (ht : search.take? lists = some (n, rest)) (hopen : arena.stopped = false)
    (hraised : (arenaAfter (search.hand n rest arena)).stopped = true) :
    search.run lists arena = (search.goal? <$> search.hand n rest) arena := by
  show _ = EStateM.map search.goal? (search.hand n rest) arena
  unfold EStateM.map
  have hturn := turn_of_take? ht hopen
  cases hhand : search.hand n rest arena with
  | error fault after => exact run_of_turn_error (hturn.trans hhand)
  | ok result after =>
    rw [hhand] at hraised
    rw [run_of_turn (hturn.trans hhand)]
    show _ = EStateM.Result.ok ((search.next result).elim id fun _ => none) after
    cases search.next result with
    | inl goal => rfl
    | inr rest => exact run_of_stopped hraised

theorem stopsPromptly {unasked : TurnTaking quiet σ τ} (hlike : search.Like id false unasked)
    (hgoal : ∀ n rest arena, wp (search.hand n rest) (fun result _ => ∀ goal ∈ search.goal? result,
      goal = n ∧ ∃ world, (p.isGoal n.state world).result = .ok true) (fun _ _ => True) arena)
    (hexpanded : ∀ n rest arena, wp (search.hand n rest)
      (fun _ after => after.stats.expanded ≤ arena.stats.expanded + 1)
      (fun _ after => after.stats.expanded ≤ arena.stats.expanded + 1) arena) :
    search.StopsPromptly unasked := by
  intro arena middle lists harrives
  refine ⟨fun hstopped => ?_, fun n rest ht hopen hraised => ?_⟩
  · rw [harrives.solve_eq]
    exact bind_eq (run_of_stopped hstopped)
  · have hlast := harrives.solve_eq.trans (bind_eq_bind (run_eq_of_raised ht hopen hraised))
    rw [bind_map_left] at hlast
    exact .intro (hlike.hand n rest).regardless hopen hlast (hgoal n rest middle) (hexpanded n rest middle)

end TurnTaking

variable [DecidableEq S] [Hashable S]

namespace Exhaustive

theorem wp_expand_goal (p : Problem ω S M) (d : Discipline) (n : Node S M)
    (lists : Std.HashSet S × Deque (Node S M)) (arena : Arena ω) :
    wp (expand p n lists.1 lists.2) (fun result _ => ∀ goal ∈ (turnTaking d p).goal? result,
      goal = n ∧ ∃ world, (p.isGoal n.state world).result = .ok true) (fun _ _ => True) arena := by
  simp only [expand, wp_bind]
  refine wp_countExpanded (fun _ => ?_) fun _ => trivial
  refine wp_ask _ (fun reached _ _ hr => ?_) fun _ _ _ _ => trivial
  split
  · rename_i hreached
    intro goal hgoal
    cases hgoal
    exact ⟨rfl, _, hreached ▸ hr⟩
  · simp only [wp_bind]
    refine wp_of_forall_ok fun moves _ _ => wp_of_forall_ok fun lists _ _ => wp_of_forall_ok fun _ _ _ => ?_
    intro goal hgoal
    cases hgoal

theorem wp_expand_expanded (p : Problem ω S M) (n : Node S M) (lists : Std.HashSet S × Deque (Node S M))
    (arena : Arena ω) :
    wp (expand p n lists.1 lists.2) (fun _ after => after.stats.expanded ≤ arena.stats.expanded + 1)
      (fun _ after => after.stats.expanded ≤ arena.stats.expanded + 1) arena := by
  refine wp_countExpanded_le fun tries => .bind (.of_stats _ (.ask_stats _)) fun reached => ?_
  cases reached
  · refine .bind (.of_stats _ (.ask_stats _)) fun moves => ?_
    refine .bind (explore_keeps_expanded _ _ _ _ _) fun _ => ?_
    exact .bind (.of_stats _ (.ask_stats _)) fun _ => .pure _
  · exact .pure _

theorem stopsPromptly (d : Discipline) (p : Problem ω S M) :
    (turnTaking d p).StopsPromptly (turnTaking d p.hushed) :=
  TurnTaking.stopsPromptly (turnTaking_like p.like_hushed d) (wp_expand_goal p d) (wp_expand_expanded p)

end Exhaustive

namespace BestFirst

theorem wp_claim_goal (p : Problem ω S M) (n : Node S M) (lists : Std.HashMap S Cost × OpenList S M)
    (arena : Arena ω) :
    wp (claim p n lists.1 lists.2) (fun result _ => ∀ goal ∈ (turnTaking p).goal? result,
      goal = n ∧ ∃ world, (p.isGoal n.state world).result = .ok true) (fun _ _ => True) arena := by
  have honward : ∀ closed waiting, ∀ goal ∈ (turnTaking p).goal? (.onward closed waiting),
      goal = n ∧ ∃ world, (p.isGoal n.state world).result = .ok true := by
    intro closed waiting goal hgoal
    cases hgoal
  rw [claim, wp_bind]
  refine wp_of_forall_ok fun result _ _ => ?_
  obtain ⟨known, closed⟩ := result
  cases known with
  | true =>
    simp only [if_true, wp_bind]
    exact wp_of_forall_ok fun _ _ _ => honward _ _
  | false =>
    simp only [Bool.false_eq_true, if_false, expand, wp_bind]
    refine wp_countExpanded (fun _ => ?_) fun _ => trivial
    refine wp_ask _ (fun reached _ _ hr => ?_) fun _ _ _ _ => trivial
    split
    · rename_i hreached
      intro goal hgoal
      cases hgoal
      exact ⟨rfl, _, hreached ▸ hr⟩
    · simp only [wp_bind]
      exact wp_of_forall_ok fun _ _ _ => wp_of_forall_ok fun _ _ _ => wp_of_forall_ok fun _ _ _ => honward _ _

theorem wp_claim_expanded (p : Problem ω S M) (n : Node S M) (lists : Std.HashMap S Cost × OpenList S M)
    (arena : Arena ω) :
    wp (claim p n lists.1 lists.2) (fun _ after => after.stats.expanded ≤ arena.stats.expanded + 1)
      (fun _ after => after.stats.expanded ≤ arena.stats.expanded + 1) arena := by
  rw [claim, wp_bind]
  refine (Keeps.inquire_stats _ _ _).wp (fun result asked hi => ?_) fun _ _ hi => hi ▸ Nat.le_succ _
  obtain ⟨known, closed⟩ := result
  rw [← hi]
  cases known with
  | true =>
    have hkeeps : Keeps (fun arena : Arena ω => arena.stats.expanded)
        (countDuplicate >>= fun _ => pure (.onward closed.best lists.2 : Turn S M)) :=
      .bind .countDuplicate_expanded fun _ => .pure _
    refine hkeeps.wp (fun _ after h => ?_) fun _ after h => ?_
    · exact Nat.le_succ_of_le (Nat.le_of_eq h)
    · exact Nat.le_succ_of_le (Nat.le_of_eq h)
  | false =>
    refine wp_countExpanded_le fun tries => .bind (.of_stats _ (.ask_stats _)) fun reached => ?_
    cases reached
    · refine .bind (.of_stats _ (.ask_stats _)) fun moves => ?_
      refine .bind (explore_keeps_expanded _ _ _ _ _) fun _ => ?_
      exact .bind (.of_stats _ (.ask_stats _)) fun _ => .pure _
    · exact .pure _

theorem stopsPromptly (p : Problem ω S M) : (turnTaking p).StopsPromptly (turnTaking p.hushed) :=
  TurnTaking.stopsPromptly (turnTaking_like p.like_hushed) (wp_claim_goal p) (wp_claim_expanded p)

end BestFirst

/-! ### Pools -/

/-- The node in a worker's hands, if its expansion has not been counted yet. -/
def Phase.uncounted? : Phase S M → Option (Node S M)
  | working n .claim | working n (.claimBy _) | working n .drop | working n .count => some n
  | _ => none

omit [DecidableEq S] [Hashable S] in
theorem Phase.node?_of_uncounted? {phase : Phase S M} {n : Node S M} (h : phase.uncounted? = some n) :
    phase.node? = some n := by
  unfold uncounted? at h
  split at h <;> cases h <;> rfl

omit [DecidableEq S] [Hashable S] in
theorem Sweep.uncounted?_next (sweep : Sweep S M) (n : Node S M) :
    (Phase.working n sweep.next).uncounted? = none := by
  obtain ⟨tries, rest, children⟩ := sweep
  cases rest <;> rfl

/-- A task counts no expansion but that of its node, and that only once. -/
theorem Stage.uncounted_step (p : Problem ω S M) (claiming : Claiming) (n : Node S M) (shared : Shared ω S M F)
    (stage : Stage S M) : (stage.counted n ++
      (Pool.afterTask n (stage.step p claiming n shared).1).uncounted?.toList).Sublist
        (Phase.working n stage).uncounted?.toList := by
  let P : Progress S M × Shared ω S M F → Prop := fun result =>
    (stage.counted n ++ (Pool.afterTask n result.1).uncounted?.toList).Sublist
      (Phase.working n stage).uncounted?.toList
  cases stage with
  | claim => exact calling_ind P (fun _ _ => .refl _) fun _ _ => List.nil_sublist _
  | claimBy query =>
    cases query with
    | answer known => cases known <;> exact .refl _
    | fail fault => exact List.nil_sublist _
    | _ => exact .refl _
  | drop => exact List.nil_sublist _
  | count => exact .refl _
  | test tries => exact calling_ind P (fun reached _ => by cases reached <;> exact .refl _) fun _ _ => .refl _
  | list tries =>
    refine calling_ind P (fun moves _ => ?_) fun _ _ => .refl _
    simp only [P, Pool.afterTask, Sweep.uncounted?_next]
    exact .refl _
  | lookAtFlag | lookAtStop =>
    simp only [Stage.step]
    split <;> exact .refl _
  | apply | screen | report => exact calling_ind P (fun _ _ => .refl _) fun _ _ => .refl _
  | generate => cases claiming <;> exact .refl _
  | screenBy sweep m t query =>
    cases query with
    | answer known => cases known <;> exact .refl _
    | _ => exact .refl _
  | discard sweep =>
    simp only [Stage.step, Pool.afterTask, Sweep.uncounted?_next]
    exact .refl _
  | price sweep m t =>
    refine calling_ind P (fun c _ => ?_) fun _ _ => .refl _
    cases claiming with
    | whenGenerated =>
      simp only [P, Pool.afterTask, Sweep.uncounted?_next]
      exact .refl _
    | whenTaken => exact .refl _
  | estimate sweep m t c =>
    refine calling_ind P (fun remaining _ => ?_) fun _ _ => .refl _
    simp only [P, Pool.afterTask, Sweep.uncounted?_next]
    exact .refl _

namespace Pool

variable {pool next : Pool ω S M F ρ} {actor : Actor} {shared shared' : Shared ω S M F}
  {before after : List (Worker S M ρ)} {w w' : Worker S M ρ} {waiting : Waiting S M} {p : Problem ω S M}
  {claiming : Claiming} {past : History S M} {inHand : List (Node S M)} {count : Nat}

/-- The nodes in flight that are still to be expanded. -/
def uncounted (workers : List (Worker S M ρ)) : List (Node S M) :=
  workers.filterMap fun w => w.phase.uncounted?

omit [DecidableEq S] [Hashable S] in
theorem uncounted_middle (before after : List (Worker S M ρ)) (w : Worker S M ρ) :
    (uncounted (before ++ w :: after)).Perm (w.phase.uncounted?.toList ++ uncounted (before ++ after)) := by
  unfold uncounted
  simp only [List.filterMap_append, List.filterMap_cons]
  cases w.phase.uncounted? with
  | none => exact .refl _
  | some n => exact List.perm_middle

omit [DecidableEq S] [Hashable S] in
theorem uncounted_sublist_held (workers : List (Worker S M ρ)) :
    (uncounted workers).Sublist (held workers) := by
  induction workers with
  | nil => exact .refl _
  | cons w workers ih =>
    simp only [uncounted, held, List.filterMap_cons]
    cases hn : w.phase.uncounted? with
    | some n =>
      rw [Phase.node?_of_uncounted? hn]
      exact ih.cons_cons n
    | none =>
      cases w.phase.node? with
      | none => exact ih
      | some n => exact ih.cons n

/-- The history since the pool was stopped with these nodes in flight and this count of expansions. -/
structure Winding (inHand : List (Node S M)) (count : Nat) (past : History S M) (pool : Pool ω S M F ρ) :
    Prop where
  stopped : pool.shared.stopped = true
  takings : past.takings = []
  expansions : (past.expandedNodes ++ uncounted pool.workers).Subperm inHand
  expanded : pool.shared.expanded = count + past.expandedNodes.length

/-- The step of one worker has to be looked at only for the expansion that it counts. -/
theorem Winding.replace (h : Winding inHand count past ⟨shared, before ++ w :: after, waiting⟩)
    {news : History S M} (hstopped : shared.stopped = true → shared'.stopped = true) (htakings : news.takings = [])
    (hexpansions : (news.expandedNodes ++ w'.phase.uncounted?.toList).Sublist w.phase.uncounted?.toList)
    (hexpanded : shared'.expanded = shared.expanded + news.expandedNodes.length) :
    Winding inHand count (past ++ news) ⟨shared', before ++ w' :: after, waiting⟩ := by
  refine ⟨hstopped h.stopped, ?_, ?_, ?_⟩
  · rw [History.takings_append, h.takings, htakings]
    rfl
  · rw [History.expandedNodes_append, List.append_assoc]
    refine List.Subperm.trans ?_ h.expansions
    refine (List.subperm_append_left _).2 ?_
    refine List.Subperm.trans ?_ (uncounted_middle before after w).symm.subperm
    refine ((uncounted_middle before after w').append_left _).subperm.trans ?_
    rw [← List.append_assoc]
    exact (hexpansions.append_right _).subperm
  · rw [History.expandedNodes_append, List.length_append, ← Nat.add_assoc, ← h.expanded]
    exact hexpanded

variable [Frontier F (Node S M)] [Coin ρ]

/-- What becomes of a pool that has been stopped, when these actors go on. -/
structure WindsDown (p : Problem ω S M) (claiming : Claiming) (pool : Pool ω S M F ρ) (later : List Actor) :
    Prop where
  /-- The queue hands out no node. -/
  takings : (pool.history p claiming later).takings = []
  /-- What is still expanded was in flight. -/
  expansions : (pool.history p claiming later).expandedNodes.Subperm (held pool.workers)
  expanded : (pool.follow p claiming later).shared.expanded ≤ pool.shared.expanded + pool.shared.queue.inFlight

variable [LawfulFrontier F (Node S M)]

theorem takings_eventOf (index : Nat) (hstopped : shared.stopped = true) :
    History.takings ((eventOf p claiming shared w).map fun event => (index, event)).toList = [] := by
  unfold eventOf
  cases w.phase with
  | idle =>
    cases ht : (shared.queue.take shared.stopped : Taking F (Node S M)) with
    | taken n queue =>
      rw [hstopped] at ht
      cases (WorkQueue.take_eq_taken ht).2.1
    | _ => rfl
  | working n stage => exact Stage.takings_event ..
  | announce n =>
    simp only
    split <;> rfl
  | complete n children =>
    simp only
    split <;> rfl
  | _ => rfl

theorem Winding.step (h : Winding inHand count past pool) (hs : pool.step p claiming actor = some next) :
    Winding inHand count (past ++ pool.events p claiming actor) next := by
  obtain ⟨shared, workers, waiting⟩ := pool
  rcases step_cases hs with ⟨before, w, after, w', shared', rfl, hw, hacts, rfl⟩ |
    ⟨waiting', shared', rfl, hwaits, rfl⟩ | ⟨rfl, rfl⟩
  · obtain rfl : workers = _ := hw
    replace hacts : Acts p claiming before.length shared w.coin w.phase w' shared' := hacts
    rw [events_middle]
    have htakings : History.takings
        ((eventOf p claiming shared w).map fun event => (before.length, event)).toList = [] :=
      takings_eventOf before.length h.stopped
    have hnews : w.phase.isWorking = false → History.expandedNodes
        ((eventOf p claiming shared w).map fun event => (before.length, event)).toList = [] :=
      Charted.expandedNodes_eventOf before.length
    generalize hph : w.phase = phase at hacts hnews
    cases hacts with
    | taken ht =>
      have hopen := (WorkQueue.take_eq_taken ht).2.1
      cases hopen.symm.trans h.stopped
    | @task n stage progress shared'' ht =>
      have hcounted := Stage.expandedNodes_event p claiming n shared stage before.length
      have hsublist := stage.uncounted_step p claiming n shared
      have hexpanded := stage.expanded_step p claiming n shared
      have hevent : eventOf p claiming shared w = stage.event? n (stage.step p claiming n shared).1 := by
        simp only [eventOf, hph]
      rw [ht] at hsublist hexpanded
      rw [← hevent] at hcounted
      refine h.replace (Stage.frame_of_step_eq ht).stopped htakings ?_ ?_
      · rw [hcounted, hph]
        exact hsublist
      · rw [hcounted]
        exact hexpanded
    | @completed n children exhausted queue coin' hc =>
      refine h.replace id htakings ?_ ?_
      · rw [hnews rfl]
        cases exhausted <;> exact List.nil_sublist _
      · rw [hnews rfl]
        rfl
    | _ =>
      refine h.replace id htakings ?_ ?_
      · rw [hnews rfl]
        exact List.nil_sublist _
      · rw [hnews rfl]
        rfl
  · rw [show events p claiming _ .waiter = [] from rfl, List.append_nil]
    cases hwaits <;> exact ⟨h.stopped, h.takings, h.expansions, h.expanded⟩
  · rw [show events p claiming _ .outsider = [] from rfl, List.append_nil]
    exact ⟨rfl, h.takings, h.expansions, h.expanded⟩

theorem Orderly.windsDown (ho : pool.Orderly)
    (hstopped : pool.shared.stopped = true) (later : List Actor) : pool.WindsDown p claiming later := by
  have hstart : Winding (held pool.workers) pool.shared.expanded [] pool :=
    ⟨hstopped, rfl, (uncounted_sublist_held pool.workers).subperm, rfl⟩
  have hend : Winding (held pool.workers) pool.shared.expanded (pool.history p claiming later)
      (pool.follow p claiming later) :=
    history_induction (fun _ _ _ _ h hs => h.step hs) hstart later
  have hexpansions : (pool.history p claiming later).expandedNodes.Subperm (held pool.workers) :=
    (List.sublist_append_left _ _).subperm.trans hend.expansions
  refine ⟨hend.takings, hexpansions, ?_⟩
  rw [hend.expanded, ho.inFlight]
  exact Nat.add_le_add_left hexpansions.length_le _

end Pool

/-! ### All searches -/

/-- Whatever the problem is, in whichever call somebody asks for a stop and in whatever order workers take
their steps: without workers, the node in hand is the last one, and with workers, no other node than those in
flight is expanded from then on. -/
theorem searches_stop_promptly [Coin ρ] (p : Problem ω S M) :
    (∀ d, (Exhaustive.turnTaking d p).StopsPromptly (Exhaustive.turnTaking d p.hushed)) ∧
    (BestFirst.turnTaking p).StopsPromptly (BestFirst.turnTaking p.hushed) ∧
    (∀ {placement : Placement} {plan : PoolSearch.Plan ρ} {arena middle : Arena ω}
      {pool : Pool ω S M (BiasedDeque S M) ρ},
      PoolSearch.prepareConcurrent p placement plan arena = .ok pool middle → ∀ earlier later,
        (pool.follow p .whenGenerated earlier).shared.stopped = true →
          (pool.follow p .whenGenerated earlier).WindsDown p .whenGenerated later) ∧
    ∀ {plan : PoolSearch.Plan ρ} {arena middle : Arena ω} {pool : Pool ω S M (OpenList S M) ρ},
      PoolSearch.prepareAStar p plan arena = .ok pool middle → ∀ earlier later,
        (pool.follow p .whenTaken earlier).shared.stopped = true →
          (pool.follow p .whenTaken earlier).WindsDown p .whenTaken later := by
  refine ⟨fun d => Exhaustive.stopsPromptly d p, BestFirst.stopsPromptly p, ?_, ?_⟩
  · intro placement plan arena middle pool hprepare earlier later hstopped
    have ho : pool.Orderly := (PoolSearch.isFresh_of_prepareConcurrent hprepare).1.orderly
    exact (ho.follow earlier).windsDown hstopped later
  · intro plan arena middle pool hprepare earlier later hstopped
    obtain ⟨_, _, -, hfresh, -⟩ := PoolSearch.isFresh_of_prepareAStar hprepare
    exact (hfresh.orderly.follow earlier).windsDown hstopped later

namespace Junction

/-- Whoever lists the roads out of `last` also asks for a stop. -/
def interrupted (last : Junction) : Problem Unit Junction Junction :=
  { detour.toProblem with legalMoves := fun s world => ⟨world, s == last, .ok (detour.legalMoves s)⟩ }

/-- One worker is about to expand the middle when the other one asks for a stop. -/
def untilBypass : List Actor :=
  List.replicate 25 (.worker 0) ++ [.worker 1] ++ List.replicate 3 (.worker 0)

/-- Without workers, the start is the last junction that is expanded. With workers, the middle still is, as it
was taken before. -/
theorem stops_at_bypass :
    (∃ seen waiting middle n rest,
      (Exhaustive.turnTaking .breadthFirst (interrupted start)).Arrives { world := () } (seen, waiting) middle ∧
      Discipline.breadthFirst.take? waiting = some (n, rest) ∧
      EndsWith (interrupted start) n (Exhaustive.expand (interrupted start) n seen rest)
        (Exhaustive.expand (interrupted start).hushed n seen rest)
        (Exhaustive.turnTaking .breadthFirst (interrupted start)).goal? middle
        (Exhaustive.solve .breadthFirst (interrupted start) { world := () })) ∧
    (levels.follow (interrupted bypass) .whenGenerated untilBypass).shared.stopped = true ∧
    (levels.follow (interrupted bypass) .whenGenerated untilBypass).WindsDown (interrupted bypass)
      .whenGenerated turns ∧
    ((levels.follow (interrupted bypass) .whenGenerated untilBypass).history (interrupted bypass)
      .whenGenerated turns).expandedNodes.map Node.state = [middle] := by
  constructor
  · have harrives : (Exhaustive.turnTaking .breadthFirst (interrupted start)).Arrives { world := () }
        ((SeenSet.insert (∅ : Std.HashSet Junction) start).2, Deque.empty.pushBack (.root start 0))
        { world := () } := .begun rfl
    have hstop := ((searches_stop_promptly (ρ := Unit) (interrupted start)).1 .breadthFirst harrives).2
      (.root start 0) ((SeenSet.insert (∅ : Std.HashSet Junction) start).2, Deque.empty) rfl rfl
    exact ⟨_, _, _, _, _, harrives, rfl, hstop (by decide +kernel)⟩
  · have hprepare : PoolSearch.prepareConcurrent (interrupted bypass) .tail ⟨(), [(), ()]⟩ { world := () } =
        .ok levels { world := () } := rfl
    have hasked : (levels.follow (interrupted bypass) .whenGenerated untilBypass).shared.stopped = true := by
      decide +kernel
    have hwinds := (searches_stop_promptly (interrupted bypass)).2.2.1 hprepare untilBypass turns hasked
    exact ⟨hasked, hwinds, by decide +kernel⟩

end Junction

end StateSearch
