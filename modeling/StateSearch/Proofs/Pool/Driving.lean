import StateSearch.Proofs.Pool.Labour
import StateSearch.Proofs.Pool.SingleWorker

/-!
# Keeping to a timetable

`Pool.drive` lets everybody act when the timetable says so, and gives up after so many steps. Whoever it picks
has a step to take, and when it picks nobody the pool has ended (`next?_cases`). So if every step of a worker
brings some bound down, a run with more steps than that, and a few for the one who waits, comes to its end
(`exists_drive_eq`). From a fresh pool that takes no more steps than there are for its states, whichever way
the workers claim them (`IsFresh.exists_drive_whenGenerated`, `IsFresh.exists_drive_whenTaken`). Searches are
given `stepLimit` steps.
-/

namespace StateSearch

open StateSearch.Random LawfulFrontier

variable {ω S M F ρ : Type} [DecidableEq S] [Hashable S] [Frontier F (Node S M)]

namespace Pool

/-! ### Who acts next -/

section

variable {shared : Shared ω S M F} {workers : List (Worker S M ρ)} {due : List Nat} {now index : Nat}

theorem canAct_of_nextOf {other time : Nat} (h : nextOf shared now index workers due = some (other, time)) :
    ∃ k w, other = index + k ∧ workers[k]? = some w ∧ canAct w shared = true := by
  induction workers generalizing index due other time with
  | nil => cases h
  | cons w workers ih =>
    cases due with
    | nil => cases h
    | cons first due =>
      -- The worker who is picked is one of those after `w`.
      have hlater : ∀ {other time}, nextOf shared now (index + 1) workers due = some (other, time) →
          ∃ k v, other = index + k ∧ (w :: workers)[k]? = some v ∧ canAct v shared = true := by
        intro other time h
        obtain ⟨k, v, rfl, hv, hact⟩ := ih h
        exact ⟨k + 1, v, by omega, hv, hact⟩
      simp only [nextOf] at h
      split at h
      · exact hlater h
      · rename_i hact
        have hfirst : ∃ k v, index = index + k ∧ (w :: workers)[k]? = some v ∧ canAct v shared = true :=
          ⟨0, w, rfl, rfl, by simpa using hact⟩
        split at h
        · cases h
          exact hfirst
        · split at h
          · rename_i hrest
            split at h
            · cases h
              exact hlater hrest
            · cases h
              exact hfirst
          · cases h
            exact hfirst

theorem not_canAct_of_nextOf (hdue : due.length = workers.length)
    (h : nextOf shared now index workers due = none) : ∀ w ∈ workers, canAct w shared = false := by
  induction workers generalizing index due with
  | nil => exact fun _ hw => by cases hw
  | cons w workers ih =>
    cases due with
    | nil => cases hdue
    | cons first due =>
      simp only [nextOf] at h
      split at h
      · rename_i hact
        exact List.forall_mem_cons.2 ⟨by simpa using hact, ih (Nat.succ.inj hdue) h⟩
      · split at h
        · cases h
        · split at h
          · split at h <;> cases h
          · cases h

end

variable [LawfulFrontier F (Node S M)] {p : Problem ω S M} {claiming : Claiming} {pool next : Pool ω S M F ρ}
  {table : Timetable} {actor : Actor}
  {time : Nat}

omit [Frontier F (Node S M)] [LawfulFrontier F (Node S M)] in
theorem length_due_reschedule (pace : Pace) (table : Timetable) (actor : Actor) (time : Nat)
    (pool : Pool ω S M F ρ) : (reschedule pace table actor time pool).due.length = table.due.length := by
  cases actor with
  | worker index =>
    simp only [reschedule]
    cases pool.workers[index]? with
    | none => rfl
    | some w =>
      simp only [Option.elim, Timetable.advance]
      split
      · exact List.length_set
      · rfl
  | _ => rfl

/-- When no worker has a step to take, all of them have gone home. -/
theorem Orderly.over_of_not_canAct (h : pool.Orderly)
    (hact : ∀ w ∈ pool.workers, canAct w pool.shared = false) :
    ∀ w ∈ pool.workers, Phase.isOver w.phase = true := by
  have hresting : ∀ w ∈ pool.workers, w.phase = .idle ∧
      pool.shared.queue.take pool.shared.stopped = (.blocked : Taking F (Node S M)) ∨
        Phase.isOver w.phase = true := by
    intro w hw
    have hw := hact w hw
    unfold canAct at hw
    split at hw
    · rename_i hidle
      exact .inl ⟨hidle, WorkQueue.take_eq_blocked_iff.2 (by simpa using hw)⟩
    · exact .inr (by simpa using hw)
  have hheld : held pool.workers = [] := by
    rw [List.eq_nil_iff_forall_not_mem]
    intro n hn
    obtain ⟨w, hw, hn⟩ := mem_held.1 hn
    rcases hresting w hw with ⟨hidle, -⟩ | hover
    · rw [hidle] at hn
      cases hn
    · rw [h.ended_of_over hw hover] at hn
      cases hn
  intro w hw
  rcases hresting w hw with ⟨-, hblocked⟩ | hover
  · exact absurd hblocked (h.not_blocked hheld)
  · exact hover

variable [Coin ρ]

/-- Either the pool has ended, or somebody is picked: a worker who has a step to take, or the one who waits,
after all workers have gone home. -/
theorem next?_cases (p : Problem ω S M) (claiming : Claiming) (h : pool.Orderly)
    (hdue : table.due.length = pool.workers.length) :
    (pool.next? table = none ∧ ∃ goal, pool.outcome? = some goal) ∨
    (∃ index time next, pool.next? table = some (.worker index, time) ∧
      pool.step p claiming (.worker index) = some next) ∨
    ∃ time next, pool.next? table = some (.waiter, time) ∧ pool.step p claiming .waiter = some next ∧
      ∀ w ∈ pool.workers, Phase.isOver w.phase = true := by
  unfold next?
  cases hnext : nextOf pool.shared table.now 0 pool.workers table.due with
  | some picked =>
    obtain ⟨index, time⟩ := picked
    obtain ⟨k, w, rfl, hw, hact⟩ := canAct_of_nextOf hnext
    rw [Nat.zero_add] at hnext ⊢
    cases hs : pool.step p claiming (.worker k) with
    | some next => exact .inr (.inl ⟨k, time, next, rfl, hs⟩)
    | none =>
      rcases resting_of_step_eq_none hw hs with ⟨hidle, hblocked⟩ | hover
      · simp [canAct, hidle, WorkQueue.take_eq_blocked_iff.1 hblocked] at hact
      · unfold canAct at hact
        split at hact
        · rename_i hidle
          rw [hidle] at hover
          cases hover
        · rw [hover] at hact
          cases hact
  | none =>
    have hover := h.over_of_not_canAct (not_canAct_of_nextOf hdue hnext)
    have hall : (pool.workers.all fun w => Phase.isOver w.phase) = true := List.all_eq_true.2 hover
    cases hs : pool.step p claiming .waiter with
    | none =>
      obtain ⟨goal, hgoal⟩ := ended_of_step_eq_none hs
      refine .inl ⟨by rw [hgoal], goal, ?_⟩
      unfold outcome?
      rw [hgoal]
      exact if_pos hall
    | some next =>
      refine .inr (.inr ⟨waitingTime table.now pool.waiting, next, ?_, rfl, hover⟩)
      simp only [hall, if_true]
      cases hwaiting : pool.waiting with
      | ended goal =>
        obtain ⟨shared, workers, waiting⟩ := pool
        obtain rfl : waiting = .ended goal := hwaiting
        cases hs
      | _ => rfl

/-! ### The end of the run -/

omit [Frontier F (Node S M)] [LawfulFrontier F (Node S M)] [Coin ρ] in
theorem patience_le (pool : Pool ω S M F ρ) : pool.patience ≤ 3 := by
  unfold patience
  split
  · exact Nat.zero_le _
  · exact (by decide : 1 ≤ 3)
  · split <;> decide
  · split <;> decide

omit [LawfulFrontier F (Node S M)] in
theorem workers_of_step_waiter (hs : pool.step p claiming .waiter = some next) :
    next.workers = pool.workers := by
  obtain ⟨_, -, h⟩ := Option.bind_eq_some_iff.1 hs
  cases h
  rfl

/-- If every step of a worker brings `effort` down, the pool has ended before that, and the patience of the
one who waits, are used up. -/
theorem exists_drive_eq {I : Pool ω S M F ρ → Prop} {effort : Pool ω S M F ρ → Nat}
    (horderly : ∀ pool, I pool → pool.Orderly)
    (hI : ∀ pool actor next, I pool → pool.step p claiming actor = some next → I next)
    (heffort : ∀ pool index next, I pool → pool.step p claiming (.worker index) = some next →
      effort next < effort pool)
    {steps : Nat} (hinv : I pool) (hne : pool.workers ≠ [])
    (hdue : table.due.length = pool.workers.length)
    (hsteps : effort pool + 3 < steps ∨
      (∀ w ∈ pool.workers, Phase.isOver w.phase = true) ∧ pool.patience < steps) :
    ∃ actors goal, .outsider ∉ actors ∧
      pool.drive p claiming none steps table = some (pool.follow p claiming actors) ∧
      (pool.follow p claiming actors).outcome? = some goal := by
  induction steps generalizing pool table with
  | zero => rcases hsteps with hlt | ⟨-, hlt⟩ <;> cases hlt
  | succ steps ih =>
    rw [drive]
    -- Whoever acts, the others go on from there.
    have hafter : ∀ actor time next, actor ≠ .outsider → pool.step p claiming actor = some next →
        (effort next + 3 < steps ∨
          (∀ w ∈ next.workers, Phase.isOver w.phase = true) ∧ next.patience < steps) →
        ∃ actors goal, .outsider ∉ actors ∧
          next.drive p claiming none steps (reschedule p.pace table actor time next) =
            some (pool.follow p claiming actors) ∧
          (pool.follow p claiming actors).outcome? = some goal := by
      intro actor time next hactor hs hsteps
      have hfollow : ∀ actors, pool.follow p claiming (actor :: actors) = next.follow p claiming actors := by
        intro actors
        show ((pool.step p claiming actor).getD pool).follow p claiming actors = _
        rw [hs]
        rfl
      have hlength : next.workers.length = pool.workers.length := by
        have hone : (pool.follow p claiming [actor]).workers.length = pool.workers.length := length_follow _
        rwa [hfollow] at hone
      have hdue' : (reschedule p.pace table actor time next).due.length = next.workers.length := by
        rw [length_due_reschedule, hdue, hlength]
      have hne' : next.workers ≠ [] := by
        rwa [← List.length_pos_iff, hlength, List.length_pos_iff]
      obtain ⟨actors, goal, hactors, hdrive, hout⟩ := ih (hI _ _ _ hinv hs) hne' hdue' hsteps
      refine ⟨actor :: actors, goal, ?_, ?_, ?_⟩
      · rw [List.mem_cons, not_or]
        exact ⟨Ne.symm hactor, hactors⟩
      · rw [hfollow]
        exact hdrive
      · rw [hfollow]
        exact hout
    rcases next?_cases p claiming (horderly pool hinv) hdue with
      ⟨hnone, goal, hout⟩ | ⟨index, time, next, hnext, hs⟩ | ⟨time, next, hnext, hs, hover⟩
    · rw [hnone]
      exact ⟨[], goal, List.not_mem_nil, rfl, hout⟩
    · rw [hnext]
      simp only [Option.any_none, Bool.false_eq_true, if_false, hs]
      refine hafter _ _ _ Actor.noConfusion hs (.inl ?_)
      have hlt := heffort _ _ _ hinv hs
      rcases hsteps with hsteps | ⟨hover, -⟩
      · omega
      · -- Who has gone home takes no step.
        rcases patience_of_step hover ((horderly pool hinv).resolved_of_over hne hover) hs with
          ⟨hactor, -⟩ | ⟨hactor, -⟩ <;> cases hactor
    · rw [hnext]
      simp only [Option.any_none, Bool.false_eq_true, if_false, hs]
      have hle := pool.patience_le
      refine hafter _ _ _ Actor.noConfusion hs (.inr ⟨workers_of_step_waiter hs ▸ hover, ?_⟩)
      rcases patience_of_step hover ((horderly pool hinv).resolved_of_over hne hover) hs with
        ⟨-, hlt⟩ | ⟨hactor, -⟩
      · omega
      · cases hactor

/-! ### Fresh pools -/

section

variable {rules : Rules S M} {states : List S} {root : Node S M} {steps : Nat}
  (hp : p.Respects rules) (h : pool.IsFresh root) (hroot : root.state ∈ states) (hne : pool.workers ≠ [])
include hp h hroot hne

/-- Workers who claim states when they generate them come to the end, if there are not so many states that the
steps are used up. -/
theorem IsFresh.exists_drive_whenGenerated (hplain : p.Plain)
    (hclosed : ∀ s ∈ states, ∀ m t, rules.IsLegal s m → rules.applyMove s m = .ok t → t ∈ states)
    (hsteps : 2 * rules.efforts states + 3 + pool.workers.length < steps) :
    ∃ actors goal, .outsider ∉ actors ∧
      pool.drive p .whenGenerated none steps ⟨0, pool.workers.map fun _ => 0⟩ =
        some (pool.follow p .whenGenerated actors) ∧
      (pool.follow p .whenGenerated actors).outcome? = some goal := by
  have heffort : pool.effort rules states ≤ _ := h.effort_le hroot
  refine exists_drive_eq (I := fun pool => pool.Steady p rules states) (fun _ h => h.orderly)
    (fun _ _ _ h hs => h.step hp hplain hclosed hs) (fun _ index _ h hs => ?_) (h.steady hroot) hne
    (List.length_map _) (.inl (?_ : pool.effort rules states + 3 < steps))
  · exact (effort_of_step hp hplain h hclosed hs).resolve_right fun ⟨hactor, _⟩ => hactor index rfl
  · omega

/-- The same for workers who claim states when they take them. -/
theorem IsFresh.exists_drive_whenTaken {rep : S → S} (hrecords : p.Records rep)
    (hstates : rules.Confines rep states)
    (hsteps : 2 * rules.efforts states + 10 + pool.workers.length < steps) :
    ∃ actors goal, .outsider ∉ actors ∧
      pool.drive p .whenTaken none steps ⟨0, pool.workers.map fun _ => 0⟩ =
        some (pool.follow p .whenTaken actors) ∧
      (pool.follow p .whenTaken actors).outcome? = some goal := by
  have hlabour : pool.labour rules states ≤ _ := h.labour_le
  refine exists_drive_eq (I := fun pool => pool.Laborious p rules rep states) (fun _ h => h.orderly)
    (fun _ _ _ h hs => h.step hp hrecords hstates hs) (fun _ index _ h hs => ?_) (h.laborious hroot) hne
    (List.length_map _) (.inl (?_ : pool.labour rules states + 3 < steps))
  · exact (labour_of_step hp hrecords hstates h hs).resolve_right fun ⟨hactor, _⟩ => hactor index rfl
  · omega

end

end Pool

namespace PoolSearch

open Act

variable [Coin ρ] {rules : Rules S M} {p : Problem ω S M} {rep : S → S} {states : List S} {plan : Plan ρ}
  {path : Option (Path M)} {arena middle final : Arena ω}

theorem run_eq {claiming : Claiming} {pool : Pool ω S M F ρ} {actors : List Actor} {goal : Option (Node S M)}
    (hdrive : pool.drive p claiming none stepLimit ⟨0, pool.workers.map fun _ => 0⟩ =
      some (pool.follow p claiming actors))
    (hout : (pool.follow p claiming actors).outcome? = some goal) :
    run p claiming none pool = some <$> finish p (pool.follow p claiming actors) goal := by
  unfold run
  simp only [hdrive, hout]

/-- Where there is only one way for the pool to end, the search ends that way, if there are not so many states
that the steps it may take are used up. -/
theorem concurrentAStar_eq {pool : Pool ω S M (OpenList S M) ρ} (hp : p.Respects rules)
    (hrecords : p.Records rep) (hstates : rules.Confines rep states) (hinitial : p.initial ∈ states)
    (hne : pool.workers ≠ [])
    (hsteps : 2 * rules.efforts states + 10 + pool.workers.length < stepLimit)
    (hprepare : prepareAStar p plan arena = .ok pool middle)
    (hlands : Lands p .whenTaken pool middle path final) :
    concurrentAStar p plan none arena = .ok (some path) final := by
  obtain ⟨remaining, -, -, hfresh, -⟩ := isFresh_of_prepareAStar hprepare
  obtain ⟨actors, goal, hactors, hdrive, hout⟩ :=
    hfresh.exists_drive_whenTaken hp hinitial hne hrecords hstates hsteps
  refine (bind_eq hprepare).trans ?_
  simp only [run_eq hdrive hout]
  show EStateM.map some (finish p _ goal) middle = _
  unfold EStateM.map
  rw [hlands.result actors goal hactors hout]

end PoolSearch

end StateSearch
