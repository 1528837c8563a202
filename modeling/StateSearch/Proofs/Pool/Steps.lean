import StateSearch.Pool.Basic
import StateSearch.Proofs.Pool.Frontier

/-!
# The steps of a pool

`Acts` lists what a worker can do, one constructor for each kind of step, and `Waits` what the one who
waits can do. `step_cases` says that a step of the pool is one of these, or raises the stop flag. What
every step keeps holds after any run (`follow_induction`), whatever the order of the steps.
-/

namespace StateSearch

open StateSearch.Random

namespace Pool

variable {ω S M F ρ : Type} [DecidableEq S] [Hashable S] [Frontier F (Node S M)] [Coin ρ]

/-- A step of worker `index`, who has this coin and is going to do what the phase says. -/
inductive Acts (p : Problem ω S M) (claiming : Claiming) (index : Nat) (shared : Shared ω S M F)
    (coin : ρ) : Phase S M → Worker S M ρ → Shared ω S M F → Prop
  | refused (h : shared.queue.take shared.stopped = (.refused : Taking F (Node S M))) :
    Acts p claiming index shared coin .idle ⟨.ended, coin⟩ shared
  | taken {n : Node S M} {queue : WorkQueue F}
      (h : shared.queue.take shared.stopped = .taken n queue) :
    Acts p claiming index shared coin .idle ⟨.working n (claiming.begin S M), coin⟩
      { shared with queue }
  | task {n : Node S M} {stage : Stage S M} {progress : Progress S M} {shared' : Shared ω S M F}
      (h : stage.step p claiming n shared = (progress, shared')) :
    Acts p claiming index shared coin (.working n stage) ⟨afterTask n progress, coin⟩ shared'
  | tooLate {n : Node S M} (h : shared.slot.flag = true) :
    Acts p claiming index shared coin (.announce n) ⟨.complete n [], coin⟩ shared
  | announced {n : Node S M} (h : shared.slot.flag = false) :
    Acts p claiming index shared coin (.announce n) ⟨.publish n, coin⟩ shared
  | won {n : Node S M} (h : shared.slot.content = .pending) :
    Acts p claiming index shared coin (.publish n) ⟨.close n, coin⟩
      { shared with slot := ⟨.assigned n, true⟩ }
  | beaten {n : Node S M} (h : shared.slot.content ≠ .pending) :
    Acts p claiming index shared coin (.publish n) ⟨.complete n [], coin⟩ shared
  | closed {n : Node S M} :
    Acts p claiming index shared coin (.close n) ⟨.complete n [], coin⟩
      { shared with queue := shared.queue.close }
  | forgone {n : Node S M} {children : List (Node S M)} (h : shared.slot.flag = true) :
    Acts p claiming index shared coin (.judgeFlag n children) ⟨.complete n [], coin⟩ shared
  | kept {n : Node S M} {children : List (Node S M)} (h : shared.slot.flag = false) :
    Acts p claiming index shared coin (.judgeFlag n children) ⟨.judgeStop n children, coin⟩ shared
  | judged {n : Node S M} {children : List (Node S M)} :
    Acts p claiming index shared coin (.judgeStop n children)
      ⟨.complete n (if shared.stopped then [] else children), coin⟩ shared
  | blamed {n : Node S M} {fault : Fault} :
    Acts p claiming index shared coin (.blame n fault) ⟨.complete n [], coin⟩
      (shared.addFault ⟨index, n.depth, fault.report⟩)
  | completed {n : Node S M} {children : List (Node S M)} {exhausted : Bool} {queue : WorkQueue F}
      {coin' : ρ} (h : shared.queue.complete children coin = .ok (exhausted, queue, coin')) :
    Acts p claiming index shared coin (.complete n children)
      ⟨if exhausted then .exhaust else .idle, coin'⟩ { shared with queue }
  | broke {n : Node S M} {children : List (Node S M)} {error : QueueError}
      (h : shared.queue.complete children coin = .error error) :
    Acts p claiming index shared coin (.complete n children) ⟨.broken n error, coin⟩ shared
  | exhausted :
    Acts p claiming index shared coin .exhaust ⟨.idle, coin⟩
      { shared with slot := shared.slot.markExhausted }

theorem acts_of_stepWorker {p : Problem ω S M} {claiming : Claiming} {index : Nat}
    {worker worker' : Worker S M ρ} {shared shared' : Shared ω S M F}
    (h : stepWorker p claiming index worker shared = some (worker', shared')) :
    Acts p claiming index shared worker.coin worker.phase worker' shared' := by
  obtain ⟨phase, coin⟩ := worker
  cases phase with
  | idle =>
    simp only [stepWorker] at h
    split at h
    · cases h; exact .refused ‹_›
    · cases h
    · cases h; exact .taken ‹_›
  | working n stage =>
    cases h
    exact .task rfl
  | announce n =>
    cases h
    by_cases hf : shared.slot.flag = true
    · rw [if_pos hf]; exact .tooLate hf
    · rw [if_neg hf]; exact .announced (eq_false_of_ne_true hf)
  | publish n =>
    cases h
    split
    · exact .won ‹_›
    · exact .beaten ‹_›
  | close n => cases h; exact .closed
  | judgeFlag n children =>
    cases h
    by_cases hf : shared.slot.flag = true
    · rw [if_pos hf]; exact .forgone hf
    · rw [if_neg hf]; exact .kept (eq_false_of_ne_true hf)
  | judgeStop n children => cases h; exact .judged
  | blame n fault => cases h; exact .blamed
  | complete n children =>
    simp only [stepWorker] at h
    split at h
    · cases h; exact .completed ‹_›
    · cases h; exact .broke ‹_›
  | exhaust => cases h; exact .exhausted
  | ended => cases h
  | broken n error => cases h

/-- A step of the one who waits for the outcome. -/
inductive Waits (shared : Shared ω S M F) : Waiting S M → Waiting S M → Shared ω S M F → Prop
  | resolved {outcome : Option (Node S M)} (h : shared.slot.resolution? = some outcome) :
    Waits shared .poll (.close outcome) shared
  | unresolved (h : shared.slot.resolution? = none) : Waits shared .poll .lookAtStop shared
  | stopped (h : shared.stopped = true) : Waits shared .lookAtStop (.close none) shared
  | unstopped (h : shared.stopped = false) : Waits shared .lookAtStop .poll shared
  | closed {outcome : Option (Node S M)} :
    Waits shared (.close outcome) (.ended outcome) { shared with queue := shared.queue.close }

omit [Frontier F (Node S M)] in
theorem waits_of_stepWaiting {waiting waiting' : Waiting S M} {shared shared' : Shared ω S M F}
    (h : stepWaiting waiting shared = some (waiting', shared')) :
    Waits shared waiting waiting' shared' := by
  cases waiting with
  | poll =>
    simp only [stepWaiting] at h
    split at h
    · cases h; exact .resolved ‹_›
    · cases h; exact .unresolved ‹_›
  | lookAtStop =>
    cases h
    by_cases hs : shared.stopped = true
    · rw [if_pos hs]; exact .stopped hs
    · rw [if_neg hs]; exact .unstopped (eq_false_of_ne_true hs)
  | close outcome => cases h; exact .closed
  | ended outcome => cases h

variable {p : Problem ω S M} {claiming : Claiming} {pool next : Pool ω S M F ρ} {actor : Actor}

/-- What a step of the pool may be. The worker who acts stands between other workers. -/
theorem step_cases (h : pool.step p claiming actor = some next) :
    (∃ before w after w' shared', actor = .worker before.length ∧
      pool.workers = before ++ w :: after ∧
      Acts p claiming before.length pool.shared w.coin w.phase w' shared' ∧
      next = ⟨shared', before ++ w' :: after, pool.waiting⟩) ∨
    (∃ waiting' shared', actor = .waiter ∧ Waits pool.shared pool.waiting waiting' shared' ∧
      next = ⟨shared', pool.workers, waiting'⟩) ∨
    actor = .outsider ∧ next = { pool with shared := { pool.shared with stopped := true } } := by
  obtain ⟨shared, workers, waiting⟩ := pool
  cases actor with
  | worker index =>
    left
    obtain ⟨w, hw, h⟩ := Option.bind_eq_some_iff.1 h
    obtain ⟨⟨w', shared'⟩, hstep, h⟩ := Option.bind_eq_some_iff.1 h
    cases h
    obtain ⟨hlt, rfl⟩ := List.getElem?_eq_some_iff.1 hw
    have hlength : (workers.take index).length = index := List.length_take_of_le (Nat.le_of_lt hlt)
    refine ⟨workers.take index, workers[index], workers.drop (index + 1), w', shared', ?_, ?_, ?_, ?_⟩
    · rw [hlength]
    · rw [List.getElem_cons_drop, List.take_append_drop]
    · rw [hlength]
      exact acts_of_stepWorker hstep
    · rw [List.set_eq_take_append_cons_drop, if_pos hlt]
  | waiter =>
    right; left
    obtain ⟨⟨waiting', shared'⟩, hstep, h⟩ := Option.bind_eq_some_iff.1 h
    cases h
    exact ⟨waiting', shared', rfl, waits_of_stepWaiting hstep, rfl⟩
  | outsider =>
    right; right
    cases h
    exact ⟨rfl, rfl⟩

/-- When one worker is replaced, the others have to be looked at only for what they share. -/
theorem forall_mem_replace {α : Type} {P Q : α → Prop} {before after : List α} {a b : α}
    (h : ∀ x ∈ before ++ a :: after, P x) (hmono : ∀ x, P x → Q x) (hb : Q b) :
    ∀ x ∈ before ++ b :: after, Q x := by
  intro x hx
  rcases List.mem_append.1 hx with hx | hx
  · exact hmono x (h x (List.mem_append_left _ hx))
  · rcases List.mem_cons.1 hx with rfl | hx
    · exact hb
    · exact hmono x (h x (List.mem_append_right _ (List.mem_cons_of_mem _ hx)))

theorem exists_mem_middle {α : Type} {P : α → Prop} {before after : List α} {a : α} :
    (∃ x ∈ before ++ a :: after, P x) ↔ P a ∨ ∃ x ∈ before ++ after, P x := by
  simp only [List.mem_append, List.mem_cons]
  constructor
  · rintro ⟨x, hx | rfl | hx, h⟩
    · exact .inr ⟨x, .inl hx, h⟩
    · exact .inl h
    · exact .inr ⟨x, .inr hx, h⟩
  · rintro (h | ⟨x, hx | hx, h⟩)
    · exact ⟨a, .inr (.inl rfl), h⟩
    · exact ⟨x, .inl hx, h⟩
    · exact ⟨x, .inr (.inr hx), h⟩

/-- What the steps of these actors keep is true after a run of theirs. -/
theorem follow_induction_mem {I : Pool ω S M F ρ → Prop} {actors : List Actor}
    (hstep : ∀ pool next, ∀ actor ∈ actors, I pool → pool.step p claiming actor = some next → I next)
    (h : I pool) : I (pool.follow p claiming actors) := by
  induction actors generalizing pool with
  | nil => exact h
  | cons actor actors ih =>
    have hnext : I ((pool.step p claiming actor).getD pool) := by
      cases hs : pool.step p claiming actor with
      | none => exact h
      | some next => exact hstep pool next actor List.mem_cons_self h hs
    exact ih (fun pool next actor hm => hstep pool next actor (List.mem_cons_of_mem _ hm)) hnext

/-- What every step keeps is true after a run. -/
theorem follow_induction {I : Pool ω S M F ρ → Prop}
    (hstep : ∀ pool next actor, I pool → pool.step p claiming actor = some next → I next)
    (h : I pool) (actors : List Actor) : I (pool.follow p claiming actors) :=
  follow_induction_mem (fun pool next actor _ => hstep pool next actor) h

/-- Nobody outside the pool interferes. -/
theorem follow_induction_quiet {I : Pool ω S M F ρ → Prop} {actors : List Actor}
    (hstep : ∀ pool next actor, actor ≠ .outsider → I pool → pool.step p claiming actor = some next → I next)
    (h : I pool) (hactors : .outsider ∉ actors) : I (pool.follow p claiming actors) :=
  follow_induction_mem (fun pool next actor hm => hstep pool next actor (ne_of_mem_of_not_mem hm hactors)) h

theorem follow_append (actors actors' : List Actor) :
    pool.follow p claiming (actors ++ actors') =
      (pool.follow p claiming actors).follow p claiming actors' :=
  List.foldl_append

/-- Nobody joins the workers or leaves them. -/
theorem length_follow (actors : List Actor) :
    (pool.follow p claiming actors).workers.length = pool.workers.length := by
  refine follow_induction (I := fun next => next.workers.length = pool.workers.length) ?_ rfl actors
  intro pool next actor hlength hs
  rcases step_cases hs with ⟨before, w, after, w', shared', -, hw, -, rfl⟩ |
    ⟨waiting', shared', -, -, rfl⟩ | ⟨-, rfl⟩
  · rw [← hlength, hw, List.length_append, List.length_append]
    rfl
  · exact hlength
  · exact hlength

end Pool

end StateSearch
