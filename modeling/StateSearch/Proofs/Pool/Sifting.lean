import StateSearch.Proofs.Pool.Driving

/-!
# A pool that folds states when it generates them comes to its end

A worker who claims states when they are generated may record one state for a whole class of them. What such a
worker does differs from what is done without folding in the two steps that record a state (`Stage.Sifts.cases`),
so for all others the bound `Pool.effort` is known to go down. A state that is recorded for another one pays for
the expansion of that other one, if as many moves have to be tried in it (`Rules.Confines`). So the pool ends, if
everybody has a turn again and again (`IsFresh.exists_outcome_folded`) and on the timetable of a search
(`IsFresh.exists_drive_folded`).
-/

namespace StateSearch

open StateSearch.Random LawfulFrontier

variable {ω S M F ρ : Type} {rules : Rules S M} {p : Problem ω S M} {rep : S → S} {n : Node S M}

/-- The problem that records every state as it is. -/
def Problem.literal (p : Problem ω S M) : Problem ω S M :=
  { p with alreadySeen := fun s => .answer (.record s) }

theorem Problem.plain_literal (p : Problem ω S M) : p.literal.Plain := fun _ _ _ h => (Except.ok.inj h).symm

theorem Problem.Respects.literal (hp : p.Respects rules) : p.literal.Respects rules :=
  ⟨hp.initial, hp.isGoal, hp.legalMoves, hp.applyMove, hp.moveCost⟩

/-! ### The steps of a task -/

/-- The stages of a task that claims states when it generates them, if one state is recorded for a class. -/
def Stage.Sifts (rep : S → S) : Stage S M → Prop
  | screenBy _ _ t query => query = .record (rep t) ∨ ∃ known, query = .answer known
  | claim | claimBy _ | drop | estimate .. => False
  | count | test _ | list _ | lookAtFlag .. | lookAtStop .. | apply .. | generate .. | screen ..
  | discard _ | price .. | report _ => True

def Phase.Sifts (rep : S → S) : Phase S M → Prop
  | working _ stage => stage.Sifts rep
  | _ => True

theorem Sweep.sifts_next (sweep : Sweep S M) : sweep.next.Sifts rep := by
  obtain ⟨tries, rest, children⟩ := sweep
  cases rest <;> trivial

variable [DecidableEq S] [Hashable S] {states : List S} {stage : Stage S M}

theorem Stage.Sifts.step (hrecords : p.Records rep) (h : stage.Sifts rep) (n : Node S M)
    (shared : Shared ω S M F) :
    (Pool.afterTask n (stage.step p .whenGenerated n shared).1).Sifts rep := by
  let P : Progress S M × Shared ω S M F → Prop := fun result => (Pool.afterTask n result.1).Sifts rep
  cases stage with
  | claim | claimBy | drop | estimate => exact h.elim
  | count | generate => trivial
  | test tries => exact calling_ind P (fun reached _ => by cases reached <;> trivial) fun _ _ => trivial
  | list tries => exact calling_ind P (fun _ _ => Sweep.sifts_next _) fun _ _ => trivial
  | lookAtFlag | lookAtStop =>
    simp only [Stage.step]
    split <;> trivial
  | apply | report => exact calling_ind P (fun _ _ => trivial) fun _ _ => trivial
  | screen sweep m t => exact calling_ind P (fun _ hq => .inl (hrecords _ _ _ hq)) fun _ _ => trivial
  | screenBy sweep m t query =>
    obtain rfl | ⟨known, rfl⟩ := h
    · exact .inr ⟨_, rfl⟩
    · cases known <;> trivial
  | discard => exact Sweep.sifts_next _
  | price => exact calling_ind P (fun _ _ => Sweep.sifts_next _) fun _ _ => trivial

/-- Only where a state is recorded does it matter which one is. -/
theorem Stage.Sifts.cases (p : Problem ω S M) (h : stage.Sifts rep) :
    (∃ sweep m t, stage = .screen sweep m t) ∨ (∃ sweep m t, stage = .screenBy sweep m t (.record (rep t))) ∨
      stage.Shaped ∧ ∀ n (shared : Shared ω S M F),
        stage.step p .whenGenerated n shared = stage.step p.literal .whenGenerated n shared := by
  cases stage with
  | claim | claimBy | drop | estimate => exact h.elim
  | screen sweep m t => exact .inl ⟨sweep, m, t, rfl⟩
  | screenBy sweep m t query =>
    obtain rfl | ⟨known, rfl⟩ := h
    · exact .inr (.inl ⟨sweep, m, t, rfl⟩)
    · exact .inr (.inr ⟨.inr ⟨known, rfl⟩, fun _ _ => rfl⟩)
  | _ => exact .inr (.inr ⟨trivial, fun _ _ => rfl⟩)

/-- Each step of a task brings its end nearer. A state is due from when another one has been recorded for it. -/
theorem Stage.Sifts.effort_lt (hp : p.Respects rules) (hrecords : p.Records rep)
    (hstates : rules.Confines rep states) (h : stage.Sifts rep)
    (hmem : ∀ sweep m t query, stage = .screenBy sweep m t query → t ∈ states) (shared : Shared ω S M F) :
    rules.efforts (unseen states (stage.step p .whenGenerated n shared).2.seen) +
        (Pool.afterTask n (stage.step p .whenGenerated n shared).1).effort rules <
      rules.efforts (unseen states shared.seen) + (Phase.working n stage).effort rules := by
  rcases h.cases p with ⟨sweep, m, t, rfl⟩ | ⟨sweep, m, t, rfl⟩ | ⟨hshaped, hstep⟩
  · let P : Progress S M × Shared ω S M F → Prop := fun result =>
      rules.efforts (unseen states result.2.seen) + (Pool.afterTask n result.1).effort rules <
        rules.efforts (unseen states shared.seen) + (Phase.working n (.screen sweep m t)).effort rules
    refine calling_ind P (fun query hq => ?_) fun _ _ => ?_
    · obtain rfl := hrecords _ _ _ hq
      exact Nat.add_lt_add_left (Nat.add_lt_add_right (Nat.lt_succ_self _) _) _
    · refine Nat.add_lt_add_left (Nat.lt_of_lt_of_le (by decide : 4 < 10) ?_) _
      exact Nat.le_trans (Nat.le_add_left _ _) (Nat.le_add_right _ _)
  · simp only [Stage.step, converse_record]
    by_cases hseen : rep t ∈ shared.seen
    · rw [decide_eq_true hseen, unseen_congr fun _ => Shared.mem_record_of_mem _ hseen]
      exact Nat.add_lt_add_left (Nat.add_lt_add_right (Nat.lt_succ_self _) _) _
    · have ht := hmem _ _ _ _ rfl
      have hle := rules.efforts_unseen_le (hstates.rep_mem _ ht) hseen fun s =>
        Shared.mem_record (s := rep t) (t := s) shared
      have hchoices := hstates.choices _ ht
      have hdue : (Phase.working n (.screenBy sweep m t (.answer false))).due =
          t :: (Phase.working n (.screenBy sweep m t (.record (rep t)))).due := rfl
      rw [decide_eq_false hseen]
      simp only [Rules.effort] at hle
      simp only [Pool.afterTask, Phase.effort, Phase.steps, Stage.effort, SeenQuery.record, hdue,
        Rules.efforts_cons, Rules.effort]
      omega
  · have hlt := hshaped.steps_lt hp.literal p.plain_literal n shared
    have hle := (hshaped.effect p.plain_literal n shared).efforts_le rules hmem
    rw [hstep]
    simp only [Phase.effort] at hlt hle ⊢
    show _ < _ + (stage.effort rules n + _)
    omega

/-! ### The steps of the pool -/

namespace Pool

variable [Frontier F (Node S M)] {pool next : Pool ω S M F ρ} {actor : Actor} {shared shared' : Shared ω S M F}
  {before after : List (Worker S M ρ)} {w w' : Worker S M ρ} {waiting : Waiting S M} {index : Nat}

variable [Coin ρ]

/-- Only in tasks is the problem asked anything. -/
theorem Acts.congr {q : Problem ω S M} {claiming : Claiming} {coin : ρ} {phase : Phase S M}
    (h : Acts p claiming index shared coin phase w' shared')
    (hstep : ∀ n stage, phase = .working n stage →
      stage.step p claiming n shared = stage.step q claiming n shared) :
    Acts q claiming index shared coin phase w' shared' := by
  cases h with
  | task ht => exact .task ((hstep _ _ rfl).symm.trans ht)
  | refused h => exact .refused h
  | taken h => exact .taken h
  | tooLate h => exact .tooLate h
  | announced h => exact .announced h
  | won h => exact .won h
  | beaten h => exact .beaten h
  | closed => exact .closed
  | forgone h => exact .forgone h
  | kept h => exact .kept h
  | judged => exact .judged
  | blamed => exact .blamed
  | completed h => exact .completed h
  | broke h => exact .broke h
  | exhausted => exact .exhausted

variable [LawfulFrontier F (Node S M)]

theorem effort_lt_of_acts_folded (hp : p.Respects rules) (hrecords : p.Records rep)
    (hstates : rules.Confines rep states) (hsound : Sound shared.queue.frontier) (hsifts : w.phase.Sifts rep)
    (hcarries : w.phase.Carries p rules (fun n => n.state ∈ states) .whenGenerated)
    (h : Acts p .whenGenerated index shared w.coin w.phase w' shared') :
    effort rules states ⟨shared', before ++ w' :: after, waiting⟩ <
      effort rules states ⟨shared, before ++ w :: after, waiting⟩ := by
  obtain ⟨phase, coin⟩ := w
  cases phase with
  | working n stage =>
    have hmem : ∀ sweep m t query, stage = .screenBy sweep m t query → t ∈ states := by
      rintro sweep m t query rfl
      exact hstates.closed _ hcarries.1 m t hcarries.2.2.1 hcarries.2.2.2
    cases h with
    | @task _ _ progress _ ht =>
      have hlt := Stage.Sifts.effort_lt (n := n) hp hrecords hstates hsifts hmem shared
      rw [ht] at hlt
      rw [effort_middle, effort_middle, (Stage.frame_of_step_eq ht).queue]
      simp only at hlt ⊢
      omega
  | _ =>
    -- Outside tasks nothing is asked, and it does not matter how states are recorded.
    exact effort_lt_of_acts hp.literal p.plain_literal hsound trivial hcarries hstates.closed
      (h.congr fun _ _ hphase => by cases hphase)

/-- What is known of the pool at every time of a run. -/
structure Sifting (p : Problem ω S M) (rules : Rules S M) (rep : S → S) (states : List S)
    (pool : Pool ω S M F ρ) : Prop where
  orderly : pool.Orderly
  carries : pool.Carries p rules (fun n => n.state ∈ states) .whenGenerated
  sifts : ∀ w ∈ pool.workers, w.phase.Sifts rep

theorem Sifting.step (hp : p.Respects rules) (hrecords : p.Records rep) (hstates : rules.Confines rep states)
    (h : pool.Sifting p rules rep states) (hs : pool.step p .whenGenerated actor = some next) :
    next.Sifting p rules rep states := by
  refine ⟨h.orderly.step hs, h.carries.step hp (inherited_mem hstates.closed p _) hs, ?_⟩
  obtain ⟨shared, workers, waiting⟩ := pool
  rcases step_cases hs with ⟨before, w, after, w', shared', rfl, hw, hacts, rfl⟩ |
    ⟨waiting', shared', rfl, hwaits, rfl⟩ | ⟨rfl, rfl⟩
  · obtain rfl : workers = _ := hw
    refine forall_mem_replace h.sifts (fun _ h => h) ?_
    have hsifts := h.sifts w (by simp)
    generalize w.phase = phase at hacts hsifts
    cases hacts with
    | @task n stage progress shared'' ht =>
      have := Stage.Sifts.step hrecords hsifts n shared
      rwa [ht] at this
    | @completed n children exhausted queue coin' hc => cases exhausted <;> trivial
    | _ => trivial
  · exact h.sifts
  · exact h.sifts

theorem effort_of_step_folded (hp : p.Respects rules) (hrecords : p.Records rep)
    (hstates : rules.Confines rep states) (h : pool.Sifting p rules rep states)
    (hs : pool.step p .whenGenerated actor = some next) :
    next.effort rules states < pool.effort rules states ∨
      (∀ index, actor ≠ .worker index) ∧ next.workers = pool.workers ∧
        next.effort rules states = pool.effort rules states := by
  obtain ⟨shared, workers, waiting⟩ := pool
  rcases step_cases hs with ⟨before, w, after, w', shared', rfl, hw, hacts, rfl⟩ |
    ⟨waiting', shared', rfl, hwaits, rfl⟩ | ⟨rfl, rfl⟩
  · obtain rfl : workers = _ := hw
    left
    exact effort_lt_of_acts_folded hp hrecords hstates h.orderly.sound (h.sifts w (by simp))
      (h.carries.workers w (by simp)) hacts
  · right
    cases hwaits <;> exact ⟨fun _ h => Actor.noConfusion h, rfl, rfl⟩
  · exact .inr ⟨fun _ h => Actor.noConfusion h, rfl, rfl⟩

namespace IsFresh

variable {root : Node S M}

omit [Coin ρ] in
theorem sifting (h : pool.IsFresh root) (hroot : root.state ∈ states) : pool.Sifting p rules rep states := by
  refine ⟨h.orderly, h.carries hroot, fun w hw => ?_⟩
  rw [h.idle w hw]
  trivial

variable (hp : p.Respects rules) (hrecords : p.Records rep) (hstates : rules.Confines rep states)
  (h : pool.IsFresh root) (hroot : root.state ∈ states) (hne : pool.workers ≠ [])
include hp hrecords hstates h hroot hne

/-- The pool ends if everybody has a turn again and again. -/
theorem exists_outcome_folded {schedule : Nat → Actor} (hfair : Fair pool.workers.length schedule) :
    ∃ k goal, (pool.played p .whenGenerated schedule k).outcome? = some goal := by
  have hsifting : ∀ k, (pool.played p .whenGenerated schedule k).Sifting p rules rep states := fun k =>
    follow_induction (fun _ _ _ h hs => h.step hp hrecords hstates hs) (h.sifting hroot) _
  exact exists_outcome_of_fair (fun k _ hs => effort_of_step_folded hp hrecords hstates (hsifting k) hs)
    (fun k => (hsifting k).orderly) hne hfair

/-- The pool ends on its timetable, if there are not so many states that the steps are used up. -/
theorem exists_drive_folded {steps : Nat} (hsteps : 2 * rules.efforts states + 3 + pool.workers.length < steps) :
    ∃ actors goal, .outsider ∉ actors ∧
      pool.drive p .whenGenerated none steps ⟨0, pool.workers.map fun _ => 0⟩ =
        some (pool.follow p .whenGenerated actors) ∧
      (pool.follow p .whenGenerated actors).outcome? = some goal := by
  have heffort : pool.effort rules states ≤ _ := h.effort_le hroot
  refine exists_drive_eq (I := fun pool => pool.Sifting p rules rep states) (fun _ h => h.orderly)
    (fun _ _ _ h hs => h.step hp hrecords hstates hs) (fun _ index _ h hs => ?_) (h.sifting hroot) hne
    (List.length_map _) (.inl (?_ : pool.effort rules states + 3 < steps))
  · exact (effort_of_step_folded hp hrecords hstates h hs).resolve_right fun ⟨hactor, _⟩ => hactor index rfl
  · omega

end IsFresh

end Pool

end StateSearch
