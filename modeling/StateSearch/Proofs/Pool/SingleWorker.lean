import StateSearch.Proofs.Pool.Lockstep

/-!
# A single worker does what an exhaustive search does

Where an exhaustive search has a result, a search with one worker has the same one and leaves the same
arena behind, in whatever order the worker and the one who waits take their steps
(`PoolSearch.single_worker`). The one who waits cannot get in the way: it closes the queue only when the
slot is resolved, and then the worker has nothing left to do but to go home (`Pool.Aligned.step`). If
everybody has a turn again and again, the worker does get there (`Pool.Aligned.exists_leaves`,
`Pool.Aligned.exists_ended`).
-/

namespace StateSearch

open StateSearch.Random

variable {ω S M F ρ α : Type}

theorem Slot.ne_pending_of_resolution? {slot : Slot α} {outcome : Option α}
    (h : slot.resolution? = some outcome) : slot.content ≠ .pending := by
  intro hpending
  rw [content_of_resolution? h] at hpending
  cases outcome <;> cases hpending

variable [DecidableEq S] [Hashable S]

namespace Pool

/-! ### Going home -/

variable [Frontier F (Node S M)] [LawfulFrontier F (Node S M)] [Coin ρ] {p : Problem ω S M}
  {claiming : Claiming} {goal goal' : Option (Node S M)} {after : Arena ω} {w w' : Worker S M ρ}
  {shared shared' : Shared ω S M F}
  {pool next : Pool ω S M F ρ} {actor : Actor}

namespace Leaves

omit [Frontier F (Node S M)] [LawfulFrontier F (Node S M)] [Coin ρ] in
theorem waits (h : Leaves goal after w shared) {waiting waiting' : Waiting S M}
    (hwaits : Waits shared waiting waiting' shared') : Leaves goal after w shared' := by
  cases hwaits with
  | closed =>
    obtain ⟨hresolved, hleaving⟩ := h
    exact .intro hresolved hleaving.of_close
  | _ => exact h

omit [LawfulFrontier F (Node S M)] [Coin ρ] in
theorem not_blocked (h : Leaves goal after w shared) (hidle : w.phase = .idle) :
    shared.queue.take shared.stopped ≠ (.blocked : Taking F (Node S M)) := by
  obtain ⟨-, hleaving⟩ := h
  rw [hidle] at hleaving
  intro hblocked
  rw [WorkQueue.take_eq_blocked_iff] at hblocked
  simp [WorkQueue.isBlocked, Arena.shared, show _ = true from hleaving] at hblocked

/-- Whatever the worker does, it is on the way home, and closer to it. -/
theorem step (h : Leaves goal after w shared) (hsound : LawfulFrontier.Sound shared.queue.frontier)
    (hunbroken : ∀ n error, w'.phase ≠ .broken n error)
    (hstep : stepWorker p claiming 0 w shared = some (w', shared')) :
    Leaves goal after w' shared' ∧ w'.phase.wayHome < w.phase.wayHome := by
  have hacts := acts_of_stepWorker hstep
  have hslot := hacts.slot_eq
  obtain @⟨seen, queue, slot, hresolved, hleaving⟩ := h
  generalize hph : w.phase = phase at hacts hleaving
  cases hacts with
  | refused => exact ⟨.intro hresolved trivial, Nat.zero_lt_one⟩
  | taken ht => cases hleaving.symm.trans (WorkQueue.take_eq_taken ht).1
  | closed => exact ⟨.intro hresolved ⟨rfl, rfl⟩, Nat.lt_succ_self 3⟩
  | @completed n children exhausted queue' coin' hc =>
    obtain ⟨-, -, -, -, -, -, hclosed, -⟩ := WorkQueue.complete_eq_ok hsound hc
    have hclosed' : queue'.closed = true := by
      rw [hclosed]
      show (queue.closed || exhausted) = true
      rw [hleaving.2]
      rfl
    cases exhausted with
    | true => exact ⟨.intro hresolved hclosed', Nat.lt_succ_self 2⟩
    | false => exact ⟨.intro hresolved hclosed', Nat.le_succ 2⟩
  | broke => exact absurd rfl (hunbroken _ _)
  | exhausted =>
    refine ⟨?_, Nat.lt_succ_self 1⟩
    show Leaves goal after _ (after.shared seen queue slot.markExhausted)
    rw [show slot.markExhausted = slot from hslot (Slot.ne_pending_of_resolution? hresolved)]
    exact .intro hresolved hleaving
  | _ => cases hleaving

end Leaves

omit [LawfulFrontier F (Node S M)] in
theorem step_of_stepWorker (hw : pool.workers = [w])
    (hstep : stepWorker p claiming 0 w pool.shared = some (w', shared')) :
    pool.step p claiming (.worker 0) = some ⟨shared', [w'], pool.waiting⟩ := by
  obtain ⟨shared, workers, waiting⟩ := pool
  obtain rfl : workers = [w] := hw
  show Option.bind _ _ = _
  rw [hstep]
  rfl

omit [LawfulFrontier F (Node S M)] in
theorem Heads.unstopped (h : Heads p claiming goal after w shared) (hstop : after.stopped = false) :
    shared.stopped = false := by
  induction h with
  | here hl =>
    cases hl
    exact hstop
  | @ahead w w' shared shared' pending hstep _ ih =>
    -- In a pool nobody lowers the flag, and so the worker is put into one.
    have hs : (⟨shared, [w], .poll⟩ : Pool ω S M F ρ).step p claiming (.worker 0) =
        some ⟨shared', [w'], .poll⟩ := step_of_stepWorker rfl hstep
    exact unstopped_of_step hs ih

omit [LawfulFrontier F (Node S M)] in
theorem stepWorker_of_over (h : Phase.isOver w.phase = true) :
    stepWorker p claiming 0 w shared = none := by
  obtain ⟨phase, coin⟩ := w
  cases phase with
  | ended | broken => rfl
  | _ => cases h

omit [LawfulFrontier F (Node S M)] in
/-- What a step may be if there is only one worker and nobody outside the pool interferes. -/
theorem step_only (hw : pool.workers = [w]) (hactor : actor ≠ .outsider)
    (hs : pool.step p claiming actor = some next) :
    (∃ w' shared', actor = .worker 0 ∧
      stepWorker p claiming 0 w pool.shared = some (w', shared') ∧
      next = ⟨shared', [w'], pool.waiting⟩) ∨
    ∃ waiting' shared', actor = .waiter ∧ Waits pool.shared pool.waiting waiting' shared' ∧
      next = ⟨shared', [w], waiting'⟩ := by
  obtain ⟨shared, workers, waiting⟩ := pool
  obtain rfl : workers = [w] := hw
  cases actor with
  | worker index =>
    left
    obtain ⟨v, hv, h⟩ := Option.bind_eq_some_iff.1 hs
    obtain ⟨⟨w', shared'⟩, hstep, heq⟩ := Option.bind_eq_some_iff.1 h
    cases index with
    | zero =>
      cases hv
      cases heq
      exact ⟨w', shared', rfl, hstep, rfl⟩
    | succ index => cases hv
  | waiter =>
    right
    obtain ⟨⟨waiting', shared'⟩, hstep, h⟩ := Option.bind_eq_some_iff.1 hs
    cases h
    exact ⟨waiting', shared', rfl, waits_of_stepWaiting hstep, rfl⟩
  | outsider => exact absurd rfl hactor

omit [Coin ρ] in
/-- The one who waits has nothing to close while the slot is pending. -/
theorem Orderly.shared_of_waits {waiting' : Waiting S M} (h : pool.Orderly)
    (hopen : pool.shared.stopped = false) (hpending : pool.shared.slot.content = .pending)
    (hwaits : Waits pool.shared pool.waiting waiting' shared') : shared' = pool.shared := by
  generalize hwaiting : pool.waiting = waiting at hwaits
  cases hwaits with
  | @closed outcome =>
    rcases h.waiting outcome (.inl hwaiting) with hstopped | hresolved
    · cases hopen.symm.trans hstopped
    · exact absurd hpending (Slot.ne_pending_of_resolution? hresolved)
  | _ => rfl

/-- There is one worker, and it is going to find this goal and leave this arena behind. -/
structure Aligned (p : Problem ω S M) (claiming : Claiming) (goal : Option (Node S M)) (after : Arena ω)
    (pool : Pool ω S M F ρ) : Prop where
  orderly : pool.Orderly
  heads : ∃ w, pool.workers = [w] ∧ Heads p claiming goal after w pool.shared

namespace Aligned

variable (hstop : after.stopped = false)
include hstop

/-- The one who waits cannot interfere: there is nothing to wait for before the search is over, and
nothing to spoil afterwards. -/
theorem step (h : Aligned p claiming goal after pool) (hactor : actor ≠ .outsider)
    (hs : pool.step p claiming actor = some next) : Aligned p claiming goal after next := by
  have honext := h.orderly.step hs
  obtain ⟨w, hw, hheads⟩ := h.heads
  rcases step_only hw hactor hs with ⟨w', shared', -, hstep, rfl⟩ | ⟨waiting', shared', -, hwaits, rfl⟩
  · refine ⟨honext, w', rfl, ?_⟩
    cases hheads with
    | here hl =>
      exact .here (hl.step h.orderly.sound (honext.unbroken w' (List.mem_singleton_self _)) hstep).1
    | ahead _ hstep' h' =>
      cases hstep.symm.trans hstep'
      exact h'
  · have hopen := hheads.unstopped hstop
    refine ⟨honext, w, rfl, ?_⟩
    cases hheads with
    | here hl => exact .here (hl.waits hwaits)
    | ahead hpending hstep' h' =>
      rw [h.orderly.shared_of_waits hopen hpending hwaits]
      exact .ahead hpending hstep' h'

theorem follow (h : Aligned p claiming goal after pool) {actors : List Actor} (hactors : .outsider ∉ actors) :
    Aligned p claiming goal after (pool.follow p claiming actors) :=
  follow_induction_quiet (fun _ _ _ hactor h hs => h.step hstop hactor hs) h hactors

theorem of_outcome? (h : Aligned p claiming goal after pool) (hout : pool.outcome? = some goal') :
    goal' = goal ∧ ∃ seen queue slot, pool.shared = after.shared seen queue slot := by
  obtain ⟨hwaiting, -⟩ := ended_of_outcome? hout
  obtain ⟨w, hw, hheads⟩ := h.heads
  have hopen := hheads.unstopped hstop
  have hresolved := (h.orderly.waiting goal' (.inr hwaiting)).resolve_left
    (by rw [hopen]; exact Bool.false_ne_true)
  cases hheads with
  | here hl =>
    generalize pool.shared = shared at hl hresolved
    obtain @⟨seen, queue, slot, hgoal, -⟩ := hl
    exact ⟨Option.some.inj (hresolved.symm.trans hgoal), seen, queue, slot, rfl⟩
  | ahead hpending _ _ => exact absurd hpending (Slot.ne_pending_of_resolution? hresolved)

end Aligned

/-! ### Everybody has turns again and again -/

namespace Aligned

variable {schedule : Nat → Actor} (hfair : Fair 1 schedule) (hquiet : ∀ k, schedule k ≠ .outsider)
include hfair hquiet

omit [LawfulFrontier F (Node S M)] in
/-- What the one who waits does not change is still there when it is the worker's turn. -/
theorem exists_turn {I : Shared ω S M F → Prop} {k : Nat} (hw : (pool.played p claiming schedule k).workers = [w])
    (hshared : I (pool.played p claiming schedule k).shared)
    (hkeep : ∀ l waiting' shared', I (pool.played p claiming schedule l).shared →
      Waits (pool.played p claiming schedule l).shared (pool.played p claiming schedule l).waiting waiting'
        shared' → I shared') :
    ∃ l, schedule l = .worker 0 ∧ (pool.played p claiming schedule l).workers = [w] ∧
      I (pool.played p claiming schedule l).shared := by
  obtain ⟨l, hl, hturn⟩ := hfair.worker 0 Nat.zero_lt_one k
  -- Either nothing has happened by then, or the worker had an earlier turn.
  have hstill : ∀ l ≥ k, ((pool.played p claiming schedule l).workers = [w] ∧
        I (pool.played p claiming schedule l).shared) ∨
      ∃ m, schedule m = .worker 0 ∧ (pool.played p claiming schedule m).workers = [w] ∧
        I (pool.played p claiming schedule m).shared := by
    intro l hl
    induction l, hl using Nat.le_induction with
    | base => exact .inl ⟨hw, hshared⟩
    | succ l hl ih =>
      rcases ih with ⟨hwl, hsharedl⟩ | h
      · by_cases hturn : schedule l = .worker 0
        · exact .inr ⟨l, hturn, hwl, hsharedl⟩
        · refine .inl (played_succ_ind (P := fun next => next.workers = [w] ∧ I next.shared)
            ⟨hwl, hsharedl⟩ fun next hs => ?_)
          rcases step_only hwl (hquiet l) hs with ⟨_, _, hworker, -, -⟩ | ⟨_, _, -, hwaits, rfl⟩
          · exact absurd hworker hturn
          · exact ⟨rfl, hkeep l _ _ hsharedl hwaits⟩
      · exact .inr h
  rcases hstill l hl with ⟨hwl, hsharedl⟩ | h
  · exact ⟨l, hturn, hwl, hsharedl⟩
  · exact h

variable (haligned : ∀ k, Aligned p claiming goal after (pool.played p claiming schedule k))
include haligned

/-- The worker finishes the search. -/
theorem exists_leaves (hstop : after.stopped = false) :
    ∃ k w, (pool.played p claiming schedule k).workers = [w] ∧
      Leaves goal after w (pool.played p claiming schedule k).shared := by
  -- The induction is on what is still to be done.
  have hahead : ∀ w shared, Heads p claiming goal after w shared → ∀ k,
      (pool.played p claiming schedule k).workers = [w] → (pool.played p claiming schedule k).shared = shared →
      ∃ k w, (pool.played p claiming schedule k).workers = [w] ∧
        Leaves goal after w (pool.played p claiming schedule k).shared := by
    intro w shared h
    induction h with
    | here hl => exact fun k hw hshared => ⟨k, _, hw, hshared ▸ hl⟩
    | @ahead w w' shared shared' hpending hstep h ih =>
      intro k hw hshared
      have hopen : shared.stopped = false := (Heads.ahead hpending hstep h).unstopped hstop
      have hkeep : ∀ l waiting' other, (pool.played p claiming schedule l).shared = shared →
          Waits (pool.played p claiming schedule l).shared (pool.played p claiming schedule l).waiting waiting'
            other → other = shared := by
        intro l waiting' other hsharedl hwaits
        rw [← hsharedl] at hopen hpending
        exact ((haligned l).orderly.shared_of_waits hopen hpending hwaits).trans hsharedl
      obtain ⟨l, hturn, hwl, hsharedl⟩ :=
        exists_turn (I := fun other => other = shared) hfair hquiet hw hshared hkeep
      have hnext : pool.played p claiming schedule (l + 1) =
          ⟨shared', [w'], (pool.played p claiming schedule l).waiting⟩ := by
        rw [played_succ, hturn, step_of_stepWorker hwl (hsharedl.symm ▸ hstep)]
        rfl
      exact ih (l + 1) (by rw [hnext]) (by rw [hnext])
  obtain ⟨w, hw, hheads⟩ := (haligned 0).heads
  exact hahead w _ hheads 0 hw rfl

theorem exists_ended {w : Worker S M ρ} {k : Nat} (hw : (pool.played p claiming schedule k).workers = [w])
    (hleaves : Leaves goal after w (pool.played p claiming schedule k).shared) :
    ∃ k w, (pool.played p claiming schedule k).workers = [w] ∧ Phase.isOver w.phase = true := by
  -- With every turn the worker is closer to its home.
  induction hn : w.phase.wayHome using Nat.strong_induction_on generalizing w k with
  | _ n ih =>
    obtain ⟨l, hturn, hwl, hleavesl⟩ :=
      exists_turn hfair hquiet hw hleaves fun _ _ _ hleavesl hwaits => hleavesl.waits hwaits
    cases hs : (pool.played p claiming schedule l).step p claiming (.worker 0) with
    | none =>
      have hget : (pool.played p claiming schedule l).workers[0]? = some w := by
        rw [hwl]
        rfl
      rcases resting_of_step_eq_none hget hs with ⟨hidle, hblocked⟩ | hover
      · exact absurd hblocked (hleavesl.not_blocked hidle)
      · exact ⟨l, w, hwl, hover⟩
    | some next =>
      have hnext : pool.played p claiming schedule (l + 1) = next := by
        rw [played_succ, hturn, hs]
        rfl
      have horderly := (haligned (l + 1)).orderly
      rw [hnext] at horderly
      rcases step_only hwl Actor.noConfusion hs with ⟨w', _, -, hstep, rfl⟩ | ⟨_, _, hwaiter, -, -⟩
      · obtain ⟨hleaves', hlt⟩ := hleavesl.step (haligned l).orderly.sound
          (horderly.unbroken w' (List.mem_singleton_self _)) hstep
        refine ih _ (hn ▸ hlt) (k := l + 1) (w := w') ?_ ?_ rfl
        · rw [hnext]
        · rw [hnext]
          exact hleaves'
      · cases hwaiter

theorem exists_outcome (hstop : after.stopped = false) :
    ∃ k goal, (pool.played p claiming schedule k).outcome? = some goal := by
  obtain ⟨k, w, hw, hleaves⟩ := exists_leaves hfair hquiet haligned hstop
  obtain ⟨k, w, hw, hover⟩ := exists_ended hfair hquiet haligned hw hleaves
  have hstay : ∀ l ≥ k, (pool.played p claiming schedule l).workers = [w] := by
    intro l hl
    induction l, hl using Nat.le_induction with
    | base => exact hw
    | succ l hl ih =>
      refine played_succ_ind (P := fun next => next.workers = [w]) ih fun next hs => ?_
      rcases step_only ih (hquiet l) hs with ⟨w', shared', -, hstep, -⟩ | ⟨_, _, -, -, rfl⟩
      · rw [stepWorker_of_over hover] at hstep
        cases hstep
      · rfl
  refine exists_outcome_of_over (k := k) ?_ (fun l => (haligned l).orderly) (fun l hl v hv => ?_)
    hfair.waiter
  · obtain ⟨v, hv, -⟩ := (haligned 0).heads
    exact List.ne_nil_of_mem (hv.symm ▸ List.mem_singleton_self v)
  · rw [hstay l hl, List.mem_singleton] at hv
    rwa [hv]

end Aligned

end Pool

namespace PoolSearch

open Act

variable {p : Problem ω S M} {goal : Option (Node S M)} {path : Option (Path M)} {world : ω}
  {middle after final : Arena ω}

theorem finish_eq_conclude {pool : Pool ω S M F ρ} {seen : Std.HashSet S} {queue : WorkQueue F}
    {slot : Slot (Node S M)} (hmiddle : middle.Precedes after) (hfaults : middle.faults = [])
    (hshared : pool.shared = after.shared seen queue slot) :
    finish p pool goal middle = conclude p goal after := by
  have hadopt : adopt pool middle = .ok () after := by
    obtain ⟨world, stopped, ⟨expanded, generated, duplicates, cost, workers⟩, faults⟩ := after
    obtain ⟨-, rfl, rfl, rfl⟩ := hmiddle
    show EStateM.Result.ok () _ = _
    rw [hshared, hfaults]
    rfl
  exact bind_eq hadopt

omit [DecidableEq S] [Hashable S] in
theorem stopped_of_conclude (h : conclude p goal after = .ok path final) (hstop : final.stopped = false) :
    after.stopped = false := by
  obtain ⟨_, _, hcost, hnoted⟩ := of_bind_eq_ok h
  obtain ⟨_, _, hget, hread⟩ := of_bind_eq_ok hnoted
  obtain ⟨_, _, htell, hgiven⟩ := of_bind_eq_ok hread
  cases hcost
  cases hget
  cases hgiven
  exact (Advances.ask _ _ _ _ htell).stopped hstop

/-- As long as nobody asks the pool to stop, it ends with this path and in this arena only, and it does end if
everybody has a turn again and again. -/
structure Lands (p : Problem ω S M) (claiming : Claiming) [Frontier F (Node S M)] [Coin ρ]
    (pool : Pool ω S M F ρ) (middle : Arena ω) (path : Option (Path M)) (final : Arena ω) : Prop where
  result : ∀ actors goal, .outsider ∉ actors →
    (pool.follow p claiming actors).outcome? = some goal →
    finish p (pool.follow p claiming actors) goal middle = .ok path final
  ends : ∀ schedule, Pool.Fair pool.workers.length schedule → (∀ k, schedule k ≠ .outsider) →
    ∃ k goal, (pool.played p claiming schedule k).outcome? = some goal

theorem lands_of_aligned {claiming : Claiming} [Frontier F (Node S M)] [LawfulFrontier F (Node S M)]
    [Coin ρ] {pool : Pool ω S M F ρ} (hfaults : middle.faults = []) (hmiddle : middle.Precedes after)
    (hopen : after.stopped = false) (hconclude : conclude p goal after = .ok path final)
    (haligned : pool.Aligned p claiming goal after) : Lands p claiming pool middle path final := by
  refine ⟨fun actors goal' hactors hout => ?_, fun schedule hfair hquiet => ?_⟩
  · obtain ⟨rfl, seen, queue, slot, hshared⟩ := (haligned.follow hopen hactors).of_outcome? hopen hout
    rw [finish_eq_conclude hmiddle hfaults hshared]
    exact hconclude
  · obtain ⟨w, hw, -⟩ := haligned.heads
    rw [hw] at hfair
    refine Pool.Aligned.exists_outcome hfair hquiet (fun k => haligned.follow hopen ?_) hopen
    intro hmem
    obtain ⟨l, -, hl⟩ := List.mem_map.1 hmem
    exact hquiet l hl

/-- The pool of a search with one worker, from the beginning, and what is left to do after it. -/
theorem aligned_of_solve {d : Discipline} [Coin ρ] (hblind : ∀ coin : ρ, (Coin.toss 0 coin).1 = false)
    (plan : Plan ρ) {coin : ρ} (hcoins : plan.coins = [coin])
    (hsolve : Exhaustive.solve d p { world, stats := { workers := 1 } } = .ok path final)
    (hstop : final.stopped = false) :
    ∃ pool middle goal after, prepareConcurrent p (.ofBias d.bias) plan
        { world, stats := { workers := 1 } } = .ok pool middle ∧
      middle.faults = [] ∧ middle.Precedes after ∧ after.stopped = false ∧
      conclude p goal after = .ok path final ∧ pool.Aligned p .whenGenerated goal after := by
  obtain ⟨⟨known, seen⟩, middle, hinquire, hsolve⟩ := of_bind_eq_ok hsolve
  obtain ⟨goal, after, hrun, hconclude⟩ := of_bind_eq_ok hsolve
  have hopen := stopped_of_conclude hconclude hstop
  have hstats : middle.stats = { workers := 1 } := (Keeps.inquire_stats _ _ _).of_eq_ok hinquire
  obtain ⟨world', stopped, stats, faults⟩ := middle
  obtain rfl : stats = { workers := 1 } := hstats
  have hprepare : prepareConcurrent p (.ofBias d.bias) plan { world, stats := { workers := 1 } } =
      .ok (Pool.start (Arena.shared ⟨world', stopped, { workers := 1 }, faults⟩ seen
        (WorkQueue.seed { frontier := { placement := .ofBias d.bias } } (.root p.initial 0) plan.first).1
          {}) plan.coins) ⟨world', stopped, { workers := 1 }, faults⟩ := bind_eq hinquire
  refine ⟨_, _, goal, after, hprepare, (Advances.inquire _ _ _ _ _ _ hinquire).faults,
    Exhaustive.run_advances _ _ _ _ _ _ _ hrun, hopen, hconclude,
    (isFresh_of_prepareConcurrent hprepare).1.orderly, ⟨.idle, coin⟩, ?_, ?_⟩
  · rw [hcoins]
    rfl
  · have hready := Pool.Heads.run hblind hrun hopen
    rw [Discipline.ofBias_bias]
    exact hready _ coin (WorkQueue.Serves.seed hblind d _ plan.first)

theorem toss_zero (coin : Generator) : (Coin.toss 0 coin).1 = false := by
  show decide (coin.next.1 < 0) = false
  exact decide_eq_false UInt64.not_lt_zero

/-- Where an exhaustive search has a result and nobody asked it to stop, a search with one worker has the
same result, whatever the seed, and leaves the same arena behind: the same counters, and the same world,
however the problem records there what it is told and asked. New nodes always have to go to the tail for a
breadth-first search, and never for a depth-first search. -/
theorem single_worker (d : Discipline) (seed : UInt64)
    (hsolve : Exhaustive.solve d p { world, stats := { workers := 1 } } = .ok path final)
    (hstop : final.stopped = false) :
    ∃ pool middle, prepareConcurrent p (.ofBias d.bias) (.ofSeed 1 seed)
        { world, stats := { workers := 1 } } = .ok pool middle ∧
      Lands p .whenGenerated pool middle path final := by
  obtain ⟨pool, middle, goal, after, hprepare, hfaults, hmiddle, hopen, hconclude, haligned⟩ :=
    aligned_of_solve toss_zero (.ofSeed 1 seed) rfl hsolve hstop
  exact ⟨pool, middle, hprepare, lands_of_aligned hfaults hmiddle hopen hconclude haligned⟩

end PoolSearch

/-! ### An example -/

theorem Act.eq_ok_of_run' {act : Act ω α} {arena : Arena ω} {value : α} (h : act.run' arena = some value) :
    act arena = .ok value (arenaAfter (act arena)) := by
  unfold EStateM.run' EStateM.run at h
  split at h
  · rename_i hr
    cases h
    rw [hr]
    rfl
  · cases h

/-- What a search tells its problem. -/
inductive Notice (S M : Type) where
  | progress (state : S) (tries : Nat)
  | finished (path : Option (Path M)) (state : S) (tries : Nat)
  deriving DecidableEq

/-- The problem in a world that lists what it is told, the latest first. -/
def PureProblem.recording (q : PureProblem S M) : Problem (List (Notice S M)) S M :=
  { (q.toProblem : Problem (List (Notice S M)) S M) with
    onProgress := fun state tries log => ⟨.progress state tries :: log, false, .ok ()⟩
    onFinished := fun path state tries log => ⟨.finished path state tries :: log, false, .ok ()⟩ }

namespace Junction

/-- Nothing has been told yet, and the search is going to have one worker. -/
def silent : Arena (List (Notice Junction Junction)) := { world := [], stats := { workers := 1 } }

/-- The middle is listed after the bypass. Depth first, it is tried before it, and breadth first after it. -/
theorem single_worker_detour :
    ∃ deep wide,
      Exhaustive.solve .depthFirst detour.recording silent = .ok (some ⟨[middle, finish], 6⟩) deep ∧
      Exhaustive.solve .breadthFirst detour.recording silent = .ok (some ⟨[middle, finish], 6⟩) wide ∧
      deep.world = [.finished (some ⟨[middle, finish], 6⟩) finish 3, .progress middle 2,
        .progress start 1] ∧
      wide.world = [.finished (some ⟨[middle, finish], 6⟩) finish 4, .progress middle 3,
        .progress bypass 2, .progress start 1] ∧
      deep.stats = ⟨3, 3, 0, some 6, 1⟩ ∧ wide.stats = ⟨4, 4, 1, some 6, 1⟩ ∧
      deep.stopped = false ∧ wide.stopped = false ∧
      (∃ pool middle', PoolSearch.prepareConcurrent detour.recording (.ofBias 0.0) (.ofSeed 1 42) silent =
          .ok pool middle' ∧
        PoolSearch.Lands detour.recording .whenGenerated pool middle' (some ⟨[middle, finish], 6⟩) deep) ∧
      ∃ pool middle', PoolSearch.prepareConcurrent detour.recording (.ofBias 1.0) (.ofSeed 1 42) silent =
          .ok pool middle' ∧
        PoolSearch.Lands detour.recording .whenGenerated pool middle' (some ⟨[middle, finish], 6⟩) wide := by
  have hdeep := Act.eq_ok_of_run' (show (Exhaustive.solve .depthFirst detour.recording).run' silent =
    some (some ⟨[middle, finish], 6⟩) by decide +kernel)
  have hwide := Act.eq_ok_of_run' (show (Exhaustive.solve .breadthFirst detour.recording).run' silent =
    some (some ⟨[middle, finish], 6⟩) by decide +kernel)
  have hdeepStop : (arenaAfter (Exhaustive.solve .depthFirst detour.recording silent)).stopped = false := by
    decide +kernel
  have hwideStop : (arenaAfter (Exhaustive.solve .breadthFirst detour.recording silent)).stopped = false := by
    decide +kernel
  exact ⟨_, _, hdeep, hwide, by decide +kernel, by decide +kernel, by decide +kernel, by decide +kernel,
    hdeepStop, hwideStop, PoolSearch.single_worker .depthFirst 42 hdeep hdeepStop,
    PoolSearch.single_worker .breadthFirst 42 hwide hwideStop⟩

end Junction

end StateSearch
