import Mathlib.Data.List.Perm.Subperm
import StateSearch.Deadline
import StateSearch.Proofs.BestFirst
import StateSearch.Proofs.Pool.Accounts

/-!
# What becomes of a search whose time is over

When the timer goes off it raises the stop flag of the search. If the search has begun by then, the flag
stays up and no further node is taken, whatever happens next. If it has not, the flag is lowered as soon as
it begins, and what it does from then on is what it would do without a timer
(`Background.StopsOnceBegun`). This is so for all searches and all orders of events
(`searches_stop_once_begun`), so a timer that goes off too early stops nobody.
-/

namespace StateSearch

variable {ω S M F ρ σ α : Type}

/-- A stop by the timer reaches a task that has begun: its flag stays up, and nothing leaves what waits. A task
that has not begun forgets it: once begun, it is where it would be without the timer. -/
def Background.StopsOnceBegun (task : Background σ) (waiting : σ → List α) : Prop :=
  ∀ (start : σ) (earlier later : List Race.Event) (race after : Race σ),
    Race.run task { task := start } earlier = some race →
    Race.run task race (.expire :: later) = some after →
      after.verdict = some .deadlineElapsed ∧
        if race.begun then
          task.isStopped after.task = true ∧ (waiting race.task).Subperm (waiting after.task)
        else if after.begun then Race.run task race later = some { after with verdict := none }
        else task.isStopped after.task = true

/-- What a task does about its stop flag. The states that satisfy `Ok` are those of tasks that have begun. -/
structure Background.Heeds (task : Background σ) (waiting : σ → List α) (Ok : σ → Prop) : Prop where
  begin : ∀ s, Ok (task.begin s)
  stop : ∀ s, Ok s → Ok (task.stop s)
  advance : ∀ s s', Ok s → task.advance s = some s' → Ok s'
  isStopped_stop : ∀ s, task.isStopped (task.stop s) = true
  waiting_stop : ∀ s, waiting (task.stop s) = waiting s
  /-- A task that begins forgets whether it was stopped before. -/
  begin_stop : ∀ s, task.begin (task.stop s) = task.begin s
  /-- A task that is stopped takes nothing from what waits. -/
  keeps : ∀ s s', Ok s → task.isStopped s = true → task.advance s = some s' →
    task.isStopped s' = true ∧ (waiting s).Subperm (waiting s')

/-! ### Races -/

namespace Race

variable {task : Background σ} {waiting : σ → List α} {Ok : σ → Prop} {race next after : Race σ}
  {events : List Event}

theorem run_nil : run task race [] = some race := rfl

theorem run_cons {event : Event} : run task race (event :: events) = some after ↔
    ∃ next, step task race event = some next ∧ run task next events = some after := by
  unfold run
  rw [List.foldlM_cons]
  exact Option.bind_eq_some_iff

/-- What an event does to a race. -/
inductive Happens (task : Background σ) (race : Race σ) : Event → Race σ → Prop
  | begins (hbegun : race.begun = false) :
    Happens task race .begin { race with begun := true, task := task.begin race.task }
  | advances {s : σ} (hbegun : race.begun = true) (hended : race.ended = false)
      (hadvance : task.advance race.task = some s) : Happens task race .advance { race with task := s }
  | ends (hbegun : race.begun = true) (hended : race.ended = false)
      (hadvance : task.advance race.task = none) : Happens task race .advance { race with ended := true }
  | expires (hverdict : race.verdict = none) : Happens task race .expire
      { race with task := task.stop race.task, verdict := some .deadlineElapsed }
  | delivers (hended : race.ended = true) (hverdict : race.verdict = none) :
    Happens task race .deliver { race with verdict := some .inTime }

theorem step_eq_some_iff {event : Event} :
    step task race event = some next ↔ Happens task race event next := by
  obtain ⟨s, begun, ended, verdict⟩ := race
  constructor
  · intro h
    cases event with
    | begin =>
      cases begun <;> cases h
      exact .begins rfl
    | advance =>
      cases begun <;> cases ended <;> try cases h
      simp only [step, Bool.not_false, Bool.and_true, if_true] at h
      split at h <;> cases h
      · exact .advances rfl rfl ‹_›
      · exact .ends rfl rfl ‹_›
    | expire =>
      cases verdict <;> cases h
      exact .expires rfl
    | deliver =>
      cases ended <;> cases verdict <;> cases h
      exact .delivers rfl rfl
  · intro h
    cases h with
    | begins hbegun => cases hbegun; rfl
    | advances hbegun hended hadvance | ends hbegun hended hadvance =>
      cases hbegun
      cases hended
      simp only [step, Bool.not_false, Bool.and_true, if_true]
      rw [hadvance]
    | expires hverdict => cases hverdict; rfl
    | delivers hended hverdict => cases hended; cases hverdict; rfl

/-- A task that has begun is in one of its states. -/
theorem ok_of_run (hheeds : task.Heeds waiting Ok) (h : race.begun = true → Ok race.task)
    (hrun : run task race events = some after) : after.begun = true → Ok after.task := by
  induction events generalizing race with
  | nil =>
    cases hrun
    exact h
  | cons event events ih =>
    obtain ⟨next, hstep, hrun⟩ := run_cons.1 hrun
    refine ih ?_ hrun
    cases step_eq_some_iff.1 hstep with
    | begins => exact fun _ => hheeds.begin _
    | advances hbegun _ hadvance => exact fun _ => hheeds.advance _ _ (h hbegun) hadvance
    | expires => exact fun hbegun => hheeds.stop _ (h hbegun)
    | ends | delivers => exact h

theorem begun_of_run (hrun : run task race events = some after) (hbegun : race.begun = true) :
    after.begun = true := by
  induction events generalizing race with
  | nil =>
    cases hrun
    exact hbegun
  | cons event events ih =>
    obtain ⟨next, hstep, hrun⟩ := run_cons.1 hrun
    refine ih hrun ?_
    cases step_eq_some_iff.1 hstep with
    | begins => rfl
    | _ => exact hbegun

/-- After the timer has gone off, a task that has begun stays stopped, and takes nothing from what waits. -/
theorem stopped_of_run (hheeds : task.Heeds waiting Ok) (hrun : run task race events = some after)
    (hverdict : race.verdict = some .deadlineElapsed) (hbegun : race.begun = true) (hok : Ok race.task)
    (hstopped : task.isStopped race.task = true) :
    task.isStopped after.task = true ∧ (waiting race.task).Subperm (waiting after.task) := by
  induction events generalizing race with
  | nil =>
    cases hrun
    exact ⟨hstopped, List.Subperm.refl _⟩
  | cons event events ih =>
    obtain ⟨next, hstep, hrun⟩ := run_cons.1 hrun
    have hnext : next.verdict = some .deadlineElapsed ∧ next.begun = true ∧ Ok next.task ∧
        task.isStopped next.task = true ∧ (waiting race.task).Subperm (waiting next.task) := by
      cases step_eq_some_iff.1 hstep with
      | begins h => rw [hbegun] at h; cases h
      | advances _ _ hadvance =>
        exact ⟨hverdict, hbegun, hheeds.advance _ _ hok hadvance, hheeds.keeps _ _ hok hstopped hadvance⟩
      | ends => exact ⟨hverdict, hbegun, hok, hstopped, List.Subperm.refl _⟩
      | expires h | delivers _ h => rw [hverdict] at h; cases h
    obtain ⟨hverdict, hbegun, hok, hstopped, hwaiting⟩ := hnext
    obtain ⟨hstopped, hlater⟩ := ih hrun hverdict hbegun hok hstopped
    exact ⟨hstopped, hwaiting.trans hlater⟩

/-- Whether the timer has gone off makes no difference to what the task does from then on. -/
theorem run_without_verdict (hrun : run task race events = some after)
    (hverdict : race.verdict = some .deadlineElapsed) : after.verdict = some .deadlineElapsed ∧
      run task { race with verdict := none } events = some { after with verdict := none } := by
  induction events generalizing race with
  | nil =>
    cases hrun
    exact ⟨hverdict, rfl⟩
  | cons event events ih =>
    obtain ⟨next, hstep, hrun⟩ := run_cons.1 hrun
    have hnext : next.verdict = some .deadlineElapsed ∧
        Happens task { race with verdict := none } event { next with verdict := none } := by
      cases step_eq_some_iff.1 hstep with
      | begins hbegun => exact ⟨hverdict, .begins hbegun⟩
      | advances hbegun hended hadvance => exact ⟨hverdict, .advances hbegun hended hadvance⟩
      | ends hbegun hended hadvance => exact ⟨hverdict, .ends hbegun hended hadvance⟩
      | expires h | delivers _ h => rw [hverdict] at h; cases h
    obtain ⟨hverdict, hlater⟩ := ih hrun hnext.1
    exact ⟨hverdict, run_cons.2 ⟨_, step_eq_some_iff.2 hnext.2, hlater⟩⟩

end Race

/-- A task that heeds its flag is stopped by the timer if and only if it has begun. -/
theorem Background.Heeds.stopsOnceBegun {task : Background σ} {waiting : σ → List α} {Ok : σ → Prop}
    (hheeds : task.Heeds waiting Ok) : task.StopsOnceBegun waiting := by
  intro start earlier later race after hearlier hlater
  obtain ⟨s, begun, ended, verdict⟩ := race
  obtain ⟨expired, hexpire, hlater⟩ := Race.run_cons.1 hlater
  cases Race.step_eq_some_iff.1 hexpire with
  | expires hverdict =>
    cases hverdict
    refine ⟨(Race.run_without_verdict hlater rfl).1, ?_⟩
    cases begun with
    | true =>
      have hok := Race.ok_of_run hheeds (fun h => by cases h) hearlier rfl
      have hstopped := Race.stopped_of_run hheeds hlater rfl rfl (hheeds.stop _ hok)
        (hheeds.isStopped_stop _)
      rw [hheeds.waiting_stop] at hstopped
      exact hstopped
    | false =>
      cases later with
      | nil =>
        cases hlater
        exact hheeds.isStopped_stop s
      | cons event later =>
        -- The first thing that can happen is that the task begins.
        obtain ⟨next, hstep, hrest⟩ := Race.run_cons.1 hlater
        cases Race.step_eq_some_iff.1 hstep with
        | begins =>
          have hafter := (Race.run_without_verdict hrest rfl).2
          simp only [hheeds.begin_stop] at hafter
          rw [if_neg Bool.false_ne_true, if_pos (Race.begun_of_run hrest rfl)]
          exact Race.run_cons.2 ⟨_, Race.step_eq_some_iff.2 (.begins rfl), hafter⟩
        | advances h | ends h => cases h
        | expires h | delivers _ h => cases h

/-! ### Searches -/

variable [DecidableEq S] [Hashable S]

namespace Exhaustive

theorem advance_of_stopped (d : Discipline) (p : Problem ω S M) {state : Running ω S M}
    (hstopped : state.arena.stopped = true) : (background d p).advance state = none := by
  have hturn : turn d p state.seen state.waiting state.arena = _ :=
    (turnTaking d p).turn_of_stopped (state.seen, state.waiting) hstopped
  simp only [background, hturn]
  cases ((turnTaking d p).take? (state.seen, state.waiting)).isNone <;> rfl

theorem heeds_background (d : Discipline) (p : Problem ω S M) :
    (background d p).Heeds (fun s => s.waiting.toList) fun _ => True where
  begin _ := trivial
  stop _ _ := trivial
  advance _ _ _ _ := trivial
  isStopped_stop _ := rfl
  waiting_stop _ := rfl
  begin_stop _ := rfl
  keeps s s' _ hstopped hadvance := by
    rw [advance_of_stopped d p hstopped] at hadvance
    cases hadvance

end Exhaustive

namespace BestFirst

theorem advance_of_stopped (p : Problem ω S M) {state : Running ω S M}
    (hstopped : state.arena.stopped = true) : (background p).advance state = none := by
  have hturn : turn p state.closed state.waiting state.arena = _ :=
    (turnTaking p).turn_of_stopped (state.closed, state.waiting) hstopped
  simp only [background, hturn]
  cases ((turnTaking p).take? (state.closed, state.waiting)).isNone <;> rfl

theorem heeds_background (p : Problem ω S M) :
    (background p).Heeds (fun s => s.waiting.toList) fun _ => True where
  begin _ := trivial
  stop _ _ := trivial
  advance _ _ _ _ := trivial
  isStopped_stop _ := rfl
  waiting_stop _ := rfl
  begin_stop _ := rfl
  keeps s s' _ hstopped hadvance := by
    rw [advance_of_stopped p hstopped] at hadvance
    cases hadvance

end BestFirst

namespace PoolSearch

open StateSearch.Random LawfulFrontier

variable [Frontier F (Node S M)] [LawfulFrontier F (Node S M)] [Coin ρ] {claiming : Claiming}

/-- The nodes that wait in the queue, if there is one by now. -/
def Running.waiting (state : Running ω S M F ρ) : List (Node S M) :=
  (state.pool.map fun pool => nodes pool.shared.queue.frontier).getD []

theorem waiting_of_step {p : Problem ω S M} {pool next : Pool ω S M F ρ} {actor : Actor}
    (ho : pool.Orderly) (hstopped : pool.shared.stopped = true)
    (hstep : pool.step p claiming actor = some next) :
    (nodes pool.shared.queue.frontier).Subperm (nodes next.shared.queue.frontier) := by
  rcases Pool.step_cases hstep with ⟨before, w, after, w', shared', -, -, hacts, rfl⟩ |
    ⟨waiting', shared', -, hwaits, rfl⟩ | ⟨-, rfl⟩
  · generalize w.phase = phase at hacts
    cases hacts with
    | taken h =>
      rw [(WorkQueue.take_eq_taken h).2.1] at hstopped
      cases hstopped
    | task h =>
      rw [(Stage.frame_of_step_eq h).queue]
    | completed h =>
      obtain ⟨-, hperm, -⟩ := WorkQueue.complete_eq_ok ho.sound h
      exact (List.sublist_append_right _ _).subperm.trans hperm.symm.subperm
    | _ => exact List.Subperm.refl _
  · generalize pool.waiting = waiting at hwaits
    cases hwaits <;> exact List.Subperm.refl _
  · exact List.Subperm.refl _

omit [LawfulFrontier F (Node S M)] in
theorem advance_eq_some {p : Problem ω S M} {workers : Nat} {prepare : Act ω (Pool ω S M F ρ)}
    {state state' : Running ω S M F ρ}
    (hadvance : (background p claiming workers prepare).advance state = some state') :
    ∃ pool, state.pool = some pool ∧
      state'.pool = some ((pool.step p claiming (state.schedule 0)).getD pool) := by
  simp only [background] at hadvance
  split at hadvance
  · cases hadvance
  · split at hadvance
    · cases hadvance
    · cases hadvance
      exact ⟨_, ‹_›, rfl⟩

theorem heeds_background (p : Problem ω S M) (claiming : Claiming) (workers : Nat)
    {prepare : Act ω (Pool ω S M F ρ)}
    (hprepare : ∀ arena pool after, prepare arena = .ok pool after → pool.Orderly) :
    (background p claiming workers prepare).Heeds Running.waiting
      fun state => ∀ pool ∈ state.pool, pool.Orderly where
  begin state pool hpool := by
    simp only [background] at hpool
    split at hpool
    · cases hpool
      exact hprepare _ _ _ ‹_›
    · cases hpool
  stop state h pool hpool := by
    obtain ⟨pool, hmem, rfl⟩ := Option.map_eq_some_iff.1 hpool
    have hstep : pool.step p claiming .outsider =
        some { pool with shared := { pool.shared with stopped := true } } := rfl
    exact (h pool hmem).step hstep
  advance state state' h hadvance pool' hpool' := by
    obtain ⟨pool, hpool, hnext⟩ := advance_eq_some hadvance
    cases hnext.symm.trans hpool'
    cases hstep : pool.step p claiming (state.schedule 0) with
    | none => exact h pool hpool
    | some next => exact (h pool hpool).step hstep
  isStopped_stop state := by
    cases hpool : state.pool <;> simp [background, hpool]
  waiting_stop state := by
    cases hpool : state.pool <;> simp [background, Running.waiting, hpool]
  begin_stop state := rfl
  keeps state state' h hstopped hadvance := by
    obtain ⟨pool, hpool, hnext⟩ := advance_eq_some hadvance
    have hpool_stopped : pool.shared.stopped = true := by
      simpa [background, hpool] using hstopped
    simp only [background, Running.waiting, hpool, hnext, Option.map_some, Option.getD_some]
    cases hstep : pool.step p claiming (state.schedule 0) with
    | none => exact ⟨hpool_stopped, List.Subperm.refl _⟩
    | some next =>
      exact ⟨Pool.stopped_of_step hstep hpool_stopped, waiting_of_step (h pool hpool) hpool_stopped hstep⟩

end PoolSearch

/-- In whatever order a search begins, goes on and is timed out: if it has begun when the timer goes off, its
flag stays up and it takes no further node, and if it has not, it does what it would do without a timer. -/
theorem searches_stop_once_begun [Random.Coin ρ] (p : Problem ω S M) (placement : Placement)
    (plan : PoolSearch.Plan ρ) :
    (∀ d, (Exhaustive.background d p).StopsOnceBegun fun state => state.waiting.toList) ∧
      (BestFirst.background p).StopsOnceBegun (fun state => state.waiting.toList) ∧
      (PoolSearch.background p .whenGenerated plan.coins.length
        (PoolSearch.prepareConcurrent p placement plan)).StopsOnceBegun PoolSearch.Running.waiting ∧
      (PoolSearch.background p .whenTaken plan.coins.length
        (PoolSearch.prepareAStar p plan)).StopsOnceBegun PoolSearch.Running.waiting := by
  refine ⟨fun d => (Exhaustive.heeds_background d p).stopsOnceBegun,
    (BestFirst.heeds_background p).stopsOnceBegun,
    (PoolSearch.heeds_background p _ _ fun arena pool after h => ?_).stopsOnceBegun,
    (PoolSearch.heeds_background p _ _ fun arena pool after h => ?_).stopsOnceBegun⟩
  · exact (PoolSearch.isFresh_of_prepareConcurrent h).1.orderly
  · obtain ⟨_, _, -, hfresh, -⟩ := PoolSearch.isFresh_of_prepareAStar h
    exact hfresh.orderly

namespace Junction

/-- The timer goes off before the search begins. The search expands its first node all the same. -/
theorem early_stop_lost :
    let task := Exhaustive.background .breadthFirst detour.toProblem
    let start : Race (Exhaustive.Running Unit Junction Junction) := { task := { arena := { world := () } } }
    ∃ after, Race.run task start [.expire, .begin, .advance] = some after ∧
      after.verdict = some .deadlineElapsed ∧ after.task.arena.stopped = false ∧
      after.task.arena.stats.expanded = 1 ∧
      Race.run task start [.begin, .advance] = some { after with verdict := none } := by
  intro task start
  have hfacts : (Race.run task start [.expire, .begin, .advance]).map (fun race =>
      (race.begun, race.task.arena.stopped, race.task.arena.stats.expanded)) = some (true, false, 1) := by
    decide +kernel
  obtain ⟨after, hrun, hafter⟩ := Option.map_eq_some_iff.1 hfacts
  simp only [Prod.mk.injEq] at hafter
  obtain ⟨hbegun, hstopped, hexpanded⟩ := hafter
  have hstops := (searches_stop_once_begun (detour.toProblem : Problem Unit Junction Junction) .tail
    (PoolSearch.Plan.ofSeed 1 42)).1 .breadthFirst _ [] [.begin, .advance] _ _ Race.run_nil hrun
  rw [if_neg Bool.false_ne_true, if_pos hbegun] at hstops
  exact ⟨after, hrun, hstops.1, hstopped, hexpanded, hstops.2⟩

end Junction

end StateSearch
