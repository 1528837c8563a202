import StateSearch.Proofs.Pool.SingleWorker
import Mathlib.Logic.Relation

/-!
# A worker on its own

With a single worker the order of the steps does not matter, whatever the problem does: calls may fail, and
answers may depend on what was asked before. Until a call raises the stop flag, the pool does what the worker
would do if nobody else took a step (`Pool.Follows`). The one who waits can only close the queue, and does so
when there is an outcome; by then the worker has closed it, or is about to. So two runs that come to an end
leave the same behind (`Pool.Solitary.eq_of_outcome?`).
-/

namespace StateSearch

open StateSearch.Random

variable {ω S M F ρ : Type} [DecidableEq S] [Hashable S]

namespace Shared

def shut (shared : Shared ω S M F) : Shared ω S M F := { shared with queue := shared.queue.close }

theorem shut_eq_self {shared : Shared ω S M F} (h : shared.queue.closed = true) : shared.shut = shared := by
  obtain ⟨world, stopped, ⟨frontier, inFlight, layer, closed, outstanding⟩⟩ := shared
  cases h
  rfl

end Shared

namespace Pool

variable [Frontier F (Node S M)] [LawfulFrontier F (Node S M)] [Coin ρ] {p : Problem ω S M}
  {claiming : Claiming} {pool next solo : Pool ω S M F ρ} {actor : Actor}

/-! ### The only worker -/

/-- There is one worker. Once there is an outcome, the queue is closed, or the worker is about to close it. -/
structure Solitary (pool : Pool ω S M F ρ) : Prop where
  orderly : pool.Orderly
  alone : ∃ w, pool.workers = [w]
  closing : pool.shared.slot.content ≠ .pending → pool.shared.queue.closed = true ∨
    ∃ w ∈ pool.workers, ∃ n, w.phase = .close n

omit [Coin ρ] in
theorem IsFresh.solitary {root : Node S M} (h : pool.IsFresh root) (hone : pool.workers.length = 1) :
    pool.Solitary :=
  ⟨h.orderly, List.length_eq_one_iff.1 hone, fun hs => absurd (congrArg Slot.content h.slot) hs⟩

theorem Acts.closing {index : Nat} {shared shared' : Shared ω S M F} {coin : ρ} {phase : Phase S M}
    {w' : Worker S M ρ} (h : Acts p claiming index shared coin phase w' shared')
    (hsound : LawfulFrontier.Sound shared.queue.frontier)
    (hexhaust : phase = .exhaust → shared.queue.closed = true)
    (hclosing : shared.slot.content ≠ .pending → shared.queue.closed = true ∨ ∃ n, phase = .close n) :
    shared'.slot.content ≠ .pending → shared'.queue.closed = true ∨ ∃ n, w'.phase = .close n := by
  cases h with
  | won => exact fun _ => .inr ⟨_, rfl⟩
  | closed => exact fun _ => .inl rfl
  | exhausted => exact fun _ => .inl (hexhaust rfl)
  | task ht =>
    have hframe := Stage.frame_of_step_eq ht
    rw [hframe.slot, hframe.queue]
    exact fun hs => .inl ((hclosing hs).resolve_right nofun)
  | taken ht =>
    have hopen := (WorkQueue.take_eq_taken ht).1
    exact fun hs => absurd ((hclosing hs).resolve_right nofun) (by rw [hopen]; exact Bool.false_ne_true)
  | completed hc =>
    obtain ⟨-, -, -, -, -, -, hclosed, -⟩ := WorkQueue.complete_eq_ok hsound hc
    intro hs
    rw [hclosed, (hclosing hs).resolve_right nofun]
    exact .inl rfl
  | _ => exact fun hs => .inl ((hclosing hs).resolve_right nofun)

theorem Solitary.step (h : pool.Solitary) (hactor : actor ≠ .outsider)
    (hs : pool.step p claiming actor = some next) : next.Solitary := by
  have honext := h.orderly.step hs
  obtain ⟨w, hw⟩ := h.alone
  rcases step_only hw hactor hs with ⟨w', shared', -, hstep, rfl⟩ | ⟨waiting', shared', -, hwaits, rfl⟩
  · refine ⟨honext, ⟨w', rfl⟩, fun hresolved => ?_⟩
    have hmem : w ∈ pool.workers := by simp [hw]
    -- Whoever found that the task was the last one has found the queue empty, and so it is closed.
    have hexhaust : w.phase = .exhaust → pool.shared.queue.closed = true := by
      intro hphase
      obtain ⟨hnodes, hheld⟩ := h.orderly.drained (.inr ⟨w, hmem, hphase⟩)
      by_contra hopen
      exact (h.orderly.isOpen (eq_false_of_ne_true hopen)).elim (absurd hnodes) (absurd hheld)
    have hclosing := (acts_of_stepWorker hstep).closing h.orderly.sound hexhaust fun hs => by
      simpa [hw] using h.closing hs
    simpa using hclosing hresolved
  · refine ⟨honext, ⟨w, rfl⟩, ?_⟩
    have hclosing := h.closing
    rw [hw] at hclosing
    generalize pool.waiting = waiting at hwaits
    cases hwaits with
    | closed => exact fun _ => .inl rfl
    | _ => exact hclosing

/-! ### The worker alone -/

def Toils (p : Problem ω S M) (claiming : Claiming) (pool next : Pool ω S M F ρ) : Prop :=
  pool.step p claiming (.worker 0) = some next

abbrev Toiled (p : Problem ω S M) (claiming : Claiming) : Pool ω S M F ρ → Pool ω S M F ρ → Prop :=
  Relation.ReflTransGen (Toils p claiming)

theorem Solitary.toiled (h : pool.Solitary) (ht : Toiled p claiming pool solo) : solo.Solitary := by
  induction ht with
  | refl => exact h
  | tail _ hs ih =>
    have hactor : Actor.worker 0 ≠ .outsider := nofun
    exact ih.step hactor hs

omit [LawfulFrontier F (Node S M)] in
theorem stopped_of_toiled (ht : Toiled p claiming pool solo) (hs : pool.shared.stopped = true) :
    solo.shared.stopped = true := by
  induction ht with
  | refl => exact hs
  | tail _ h ih => exact stopped_of_step h ih

omit [LawfulFrontier F (Node S M)] in
/-- When there is nothing left to do, this was all that the worker could do. -/
theorem toiled_of_stuck {last : Pool ω S M F ρ} (hlast : Toiled p claiming pool last)
    (hstuck : last.step p claiming (.worker 0) = none) (ht : Toiled p claiming pool solo) :
    Toiled p claiming solo last := by
  rcases Relation.ReflTransGen.total_of_right_unique (fun _ _ _ h h' => Option.some.inj (h.symm.trans h'))
    ht hlast with h | h
  · exact h
  · rcases h.cases_head with rfl | ⟨middle, hs, -⟩
    · exact .refl
    · cases hstuck.symm.trans hs

/-! ### The worker and the one who waits -/

/-- The pool has come as far as the worker alone, but for the queue that the worker is about to close. -/
structure Follows (solo pool : Pool ω S M F ρ) : Prop where
  workers : pool.workers = solo.workers
  shared : pool.shared = solo.shared ∨
    pool.shared = solo.shared.shut ∧ ∃ w ∈ solo.workers, ∃ n, w.phase = .close n

omit [Frontier F (Node S M)] [LawfulFrontier F (Node S M)] [Coin ρ] in
theorem Follows.stopped (h : Follows solo pool) : pool.shared.stopped = solo.shared.stopped := by
  rcases h.shared with hshared | ⟨hshared, -⟩ <;> exact hshared ▸ rfl

omit [Frontier F (Node S M)] [LawfulFrontier F (Node S M)] [Coin ρ] in
theorem Follows.slot (h : Follows solo pool) : pool.shared.slot = solo.shared.slot := by
  rcases h.shared with hshared | ⟨hshared, -⟩ <;> exact hshared ▸ rfl

theorem Follows.step (h : Follows solo pool) (hsolo : solo.Solitary) (horderly : pool.Orderly)
    (hopen : solo.shared.stopped = false) (hactor : actor ≠ .outsider)
    (hs : pool.step p claiming actor = some next) :
    Follows solo next ∨ ∃ solo', Toils p claiming solo solo' ∧ Follows solo' next := by
  obtain ⟨w, hw⟩ := hsolo.alone
  rcases step_only (h.workers.trans hw) hactor hs with
    ⟨w', shared', -, hstep, rfl⟩ | ⟨waiting', shared', -, hwaits, rfl⟩
  · right
    rcases h.shared with hshared | ⟨hshared, v, hv, n, hn⟩
    · rw [hshared] at hstep
      exact ⟨_, step_of_stepWorker hw hstep, rfl, .inl rfl⟩
    · obtain rfl : v = w := by simpa [hw] using hv
      rw [hshared] at hstep
      obtain ⟨phase, coin⟩ := v
      obtain rfl : phase = .close n := hn
      cases hstep
      exact ⟨_, step_of_stepWorker hw rfl, rfl, .inl rfl⟩
  · left
    refine ⟨hw.symm, ?_⟩
    generalize hwaiting : pool.waiting = waiting at hwaits
    cases hwaits with
    | @closed outcome =>
      -- The one who waits has seen an outcome, so the worker has closed the queue, or does so next.
      have hresolved := (horderly.waiting outcome (.inl hwaiting)).resolve_left
        (by rw [h.stopped, hopen]; exact Bool.false_ne_true)
      rw [h.slot] at hresolved
      have hshut : pool.shared.shut = solo.shared.shut := by
        rcases h.shared with hshared | ⟨hshared, -⟩ <;> rw [hshared]
        rfl
      show pool.shared.shut = _ ∨ pool.shared.shut = _ ∧ _
      rw [hshut]
      exact (hsolo.closing (Slot.ne_pending_of_resolution? hresolved)).imp Shared.shut_eq_self fun hclose =>
        ⟨rfl, hclose⟩
    | _ => exact h.shared

/-- The pool does what the worker would do alone, at least until the flag is raised. -/
theorem Solitary.exists_toiled (p : Problem ω S M) (claiming : Claiming) (h : pool.Solitary)
    {actors : List Actor} (hactors : .outsider ∉ actors) :
    ∃ solo, Toiled p claiming pool solo ∧ (Follows solo (pool.follow p claiming actors) ∨
      solo.shared.stopped = true ∧ (pool.follow p claiming actors).shared.stopped = true) := by
  suffices h : (pool.follow p claiming actors).Orderly ∧ _ from h.2
  refine follow_induction_quiet (I := fun next => next.Orderly ∧ ∃ solo, Toiled p claiming pool solo ∧
    (Follows solo next ∨ solo.shared.stopped = true ∧ next.shared.stopped = true)) ?_
    ⟨h.orderly, pool, .refl, .inl ⟨rfl, .inl rfl⟩⟩ hactors
  rintro between next actor hactor ⟨horderly, solo, htoiled, hsolo⟩ hs
  refine ⟨horderly.step hs, ?_⟩
  rcases hsolo with hfollows | ⟨hstopped, hstopped'⟩
  · cases hopen : solo.shared.stopped with
    | true => exact ⟨solo, htoiled, .inr ⟨hopen, stopped_of_step hs (hfollows.stopped.trans hopen)⟩⟩
    | false =>
      rcases hfollows.step (h.toiled htoiled) horderly hopen hactor hs with hnext | ⟨solo', htoils, hnext⟩
      · exact ⟨solo, htoiled, .inl hnext⟩
      · exact ⟨solo', htoiled.tail htoils, .inl hnext⟩
  · exact ⟨solo, htoiled, .inr ⟨hstopped, stopped_of_step hs hstopped'⟩⟩

/-! ### At the end -/

/-- The worker has ended, and so there is nothing to be closed any more. -/
theorem Follows.of_outcome? (p : Problem ω S M) (claiming : Claiming) (h : Follows solo pool)
    (hsolo : solo.Solitary) {goal : Option (Node S M)} (hend : pool.outcome? = some goal) :
    pool.shared = solo.shared ∧ solo.step p claiming (.worker 0) = none := by
  obtain ⟨w, hw⟩ := hsolo.alone
  have hover : Phase.isOver w.phase = true := by
    refine (ended_of_outcome? hend).2 w ?_
    rw [h.workers, hw]
    exact List.mem_singleton_self _
  refine ⟨h.shared.resolve_right ?_, ?_⟩
  · rintro ⟨-, v, hv, n, hn⟩
    obtain rfl : v = w := by simpa [hw] using hv
    rw [hn] at hover
    cases hover
  · obtain ⟨shared, workers, waiting⟩ := solo
    obtain rfl : workers = [w] := hw
    show Option.bind _ _ = _
    rw [stepWorker_of_over hover]
    rfl

/-- All runs that come to an end leave the same behind, if in one of them the flag stays down. -/
theorem Solitary.eq_of_outcome? (h : pool.Solitary) {actors actors' : List Actor} (hactors : .outsider ∉ actors)
    (hactors' : .outsider ∉ actors') {goal goal' : Option (Node S M)}
    (hend : (pool.follow p claiming actors).outcome? = some goal)
    (hend' : (pool.follow p claiming actors').outcome? = some goal')
    (hopen : (pool.follow p claiming actors').shared.stopped = false) :
    (pool.follow p claiming actors).shared = (pool.follow p claiming actors').shared ∧ goal = goal' := by
  have hdown : ¬ (pool.follow p claiming actors').shared.stopped = true := by
    rw [hopen]
    exact Bool.false_ne_true
  obtain ⟨last, hlast, hfollows'⟩ := h.exists_toiled p claiming hactors'
  obtain ⟨hshared', hstuck'⟩ :=
    (hfollows'.resolve_right fun hs => hdown hs.2).of_outcome? p claiming (h.toiled hlast) hend'
  obtain ⟨solo, htoiled, hfollows⟩ := h.exists_toiled p claiming hactors
  -- The worker alone has one way to go, on which the other run cannot have left this one behind.
  have hrest := toiled_of_stuck hlast hstuck' htoiled
  have hquiet : ¬ solo.shared.stopped = true := fun hs => hdown (hshared' ▸ stopped_of_toiled hrest hs)
  obtain ⟨hshared, hstuck⟩ :=
    (hfollows.resolve_right fun hs => hquiet hs.1).of_outcome? p claiming (h.toiled htoiled) hend
  obtain rfl : solo = last := by
    rcases hrest.cases_head with heq | ⟨middle, hs, -⟩
    · exact heq
    · cases hstuck.symm.trans hs
  have heq := hshared.trans hshared'.symm
  have horderly : (pool.follow p claiming actors).Orderly := h.orderly.follow actors
  have horderly' : (pool.follow p claiming actors').Orderly := h.orderly.follow actors'
  have hresolved := (horderly.waiting goal (.inr (ended_of_outcome? hend).1)).resolve_left (heq ▸ hdown)
  have hresolved' := (horderly'.waiting goal' (.inr (ended_of_outcome? hend').1)).resolve_left hdown
  rw [heq] at hresolved
  exact ⟨heq, Option.some.inj (hresolved.symm.trans hresolved')⟩

end Pool

end StateSearch
