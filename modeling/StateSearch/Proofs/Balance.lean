import StateSearch.Proofs.Endings
import StateSearch.Proofs.Observer
import StateSearch.Proofs.Pool.Expansions
import StateSearch.Proofs.Pool.SingleWorker
import StateSearch.Proofs.Soundness

/-!
# The counters of a search add up

Every state that is generated, and the initial one, is expanded or dropped as a duplicate, or it still waits.
So a search counts at most one expansion or duplicate more than it counts generated states, and exactly one
more if it comes to the end without a goal and nobody gets in its way (`Solver.counters_add_up`). This is so for
all searches, whatever the problem answers and in whatever order workers take their steps.

Without workers the books balance between two turns (`Stats.Balance`). With workers, some of the states are in
the hands of a worker (`Phase.owed`), and states get lost when a task fails, when a goal is found and when the
search is stopped: a pool that has lost any of them shows it (`Pool.Disturbed`, `Pool.Tallied`).
-/

namespace StateSearch

open StateSearch.Random LawfulFrontier Act

variable {ω S M F ρ α : Type}

namespace Stats

/-- All but so many of the states that were generated, and of the initial one, were expanded or dropped. -/
def Balance (stats : Stats) (waiting : Nat) : Prop :=
  stats.expanded + stats.duplicates + waiting = stats.generated + 1

/-- Nothing was expanded or dropped that was not generated, except the initial state. -/
def Covered (stats : Stats) : Prop := stats.expanded + stats.duplicates ≤ stats.generated + 1

theorem Balance.covered {stats : Stats} {waiting : Nat} (h : stats.Balance waiting) : stats.Covered := by
  unfold Balance at h
  unfold Covered
  omega

end Stats

/-- The counters add up after such an end: if there is no path, and no stop and no fault to blame for it, all
states that were generated were expanded or dropped. -/
structure AddsUp (outcome : Upshot ω M) : Prop where
  covered : (arenaAfter outcome).stats.Covered
  balance : ∀ after, outcome = .ok (some none) after → after.stopped = false → after.faults = [] →
    after.stats.Balance 0

namespace Act

variable {arena : Arena ω}

/-- The counters of a search that found this, or nothing. -/
structure Cleared (found : Option α) (arena : Arena ω) : Prop where
  covered : arena.stats.Covered
  balance : found = none → arena.stopped = false → arena.faults = [] → arena.stats.Balance 0

theorem Cleared.addsUp {act : Act ω (Option (Path M))}
    (h : wp act Cleared (fun _ after => after.stats.Covered) arena) : AddsUp ((some <$> act) arena) := by
  show AddsUp (EStateM.map some act arena)
  unfold wp at h
  unfold EStateM.map
  cases hr : act arena with
  | error fault after =>
    rw [hr] at h
    exact ⟨h, nofun⟩
  | ok path after =>
    rw [hr] at h
    refine ⟨h.covered, fun after' heq => ?_⟩
    cases heq
    exact h.balance rfl

/-- Closing a search notes the cost and counts nothing. -/
theorem Cleared.conclude {goal : Option (Node S M)} (p : Problem ω S M) (h : Cleared goal arena) :
    wp (conclude p goal) Cleared (fun _ after => after.stats.Covered) arena := by
  let counts : Stats → Nat × Nat × Nat := fun stats => (stats.expanded, stats.generated, stats.duplicates)
  have hkeeps : Keeps (fun arena : Arena ω => counts arena.stats) (Act.conclude p goal) :=
    .conclude p goal (fun _ _ => rfl) fun _ => .of_stats counts (.ask_stats _)
  have hcounts := hkeeps arena
  have hfaults := Keeps.conclude_faults p goal arena
  have hcovered := h.covered
  unfold wp
  cases hr : Act.conclude p goal arena with
  | error fault after =>
    rw [hr] at hcounts
    obtain ⟨he, hg, hd⟩ : _ ∧ _ ∧ _ := by simpa [counts, arenaAfter] using hcounts
    simp only [Stats.Covered] at hcovered ⊢
    omega
  | ok path after =>
    rw [hr] at hcounts hfaults
    obtain ⟨he, hg, hd⟩ : _ ∧ _ ∧ _ := by simpa [counts, arenaAfter] using hcounts
    refine ⟨?_, fun hpath hstop hnone => ?_⟩
    · simp only [Stats.Covered] at hcovered ⊢
      omega
    · have hgoal : goal = none := Option.map_eq_none_iff.1 ((path_of_conclude hr).symm.trans hpath)
      have := h.balance hgoal (PoolSearch.stopped_of_conclude hr hstop) (hfaults.symm.trans hnone)
      simp only [Stats.Balance] at this ⊢
      omega

end Act

variable [DecidableEq S] [Hashable S]

/-! ### Exhaustive search -/

namespace Exhaustive

variable {d : Discipline} {p : Problem ω S M} {n : Node S M} {seen : Std.HashSet S}
  {waiting : Deque (Node S M)} {arena : Arena ω}

theorem wp_explore_balance (moves : List M) (h : arena.stats.Balance waiting.toList.length) :
    wp (explore p n moves seen waiting) (fun lists after => after.stats.Balance lists.2.toList.length)
      (fun _ after => after.stats.Covered) arena := by
  induction moves generalizing seen waiting arena with
  | nil => exact h
  | cons m rest ih =>
    simp only [explore, wp_bind]
    refine (Keeps.ask_stats _).wp (fun t asked ht => ?_) fun _ _ ht => ht ▸ h.covered
    refine wp_countGenerated_tally ?_ fun _ => ht ▸ h.covered
    -- The generated state is neither a duplicate nor in the queue yet.
    have hmade : (asked.tally 0 1 0).stats.Balance (waiting.toList.length + 1) := by
      simp only [Stats.Balance, Arena.tally, ht] at h ⊢
      omega
    refine (Keeps.inquire_stats _ _ _).wp (fun result after hi => ?_) fun _ _ hi => hi ▸ hmade.covered
    split
    · rw [wp_bind]
      refine wp_countDuplicate_tally (ih ?_) fun _ => hi ▸ hmade.covered
      rw [← hi] at hmade
      simp only [Stats.Balance, Arena.tally] at hmade ⊢
      omega
    · rw [wp_bind]
      refine (Keeps.ask_stats _).wp (fun c priced hc => ih ?_) fun _ _ hc => hc ▸ hi ▸ hmade.covered
      rw [Deque.toList_pushBack, List.length_append, hc, hi]
      exact hmade

theorem wp_turn_balance (h : arena.stats.Balance waiting.toList.length) :
    wp (turn d p seen waiting) (fun result after => result.Ends
      (fun _ waiting after => after.stats.Balance waiting.toList.length) Cleared after)
      (fun _ after => after.stats.Covered) arena := by
  refine wp_turn_taken (fun ht => ?_) (fun hstop => ?_) fun n rest ht _ => ?_
  · rw [Discipline.toList_of_take?_eq_none ht] at h
    exact ⟨h.covered, fun _ _ _ => h⟩
  · exact ⟨h.covered, fun _ hopen => absurd (hstop.symm.trans hopen) nofun⟩
  · rw [(Discipline.toList_of_take? ht).length_eq, List.length_cons] at h
    simp only [expand, wp_bind]
    refine wp_countExpanded_tally ?_ fun _ => h.covered
    have hcounted : (arena.tally 1 0 0).stats.Balance rest.toList.length := by
      simp only [Stats.Balance, Arena.tally] at h ⊢
      omega
    refine (Keeps.ask_stats _).wp (fun reached tested hr => ?_) fun _ _ hr => hr ▸ hcounted.covered
    split
    · exact ⟨hr ▸ hcounted.covered, fun hnone => by cases hnone⟩
    · rw [wp_bind]
      refine (Keeps.ask_stats _).wp (fun moves listed hm => ?_)
        fun _ _ hm => hm ▸ hr ▸ hcounted.covered
      rw [wp_bind]
      refine (wp_explore_balance moves (hm ▸ hr ▸ hcounted)).mono fun lists after hlists => ?_
      rw [wp_bind]
      refine (Keeps.ask_stats _).wp (fun _ told ho => ?_) fun _ _ ho => ho ▸ hlists.covered
      show told.stats.Balance lists.2.toList.length
      rwa [ho]

theorem addsUp_solve (d : Discipline) (p : Problem ω S M) (h : arena.stats.Balance 1) :
    AddsUp ((some <$> solve d p) arena) := by
  refine Cleared.addsUp ?_
  rw [solve, wp_bind]
  refine (Keeps.inquire_stats _ _ _).wp (fun result after hi => ?_) fun _ _ hi => hi ▸ h.covered
  rw [wp_bind]
  refine (wp_run (fun _ _ _ h => wp_turn_balance h) ?_).mono fun goal after hgoal => hgoal.conclude p
  rw [Deque.toList_pushBack, Deque.toList_empty, hi]
  exact h

end Exhaustive

/-! ### Best-first search -/

namespace BestFirst

variable {p : Problem ω S M} {n : Node S M} {closed : Std.HashMap S Cost} {waiting : OpenList S M}
  {arena : Arena ω}

/-- What holds of the open list and the counters between two turns. -/
structure Balanced (waiting : OpenList S M) (arena : Arena ω) : Prop where
  sound : waiting.Sound
  balance : arena.stats.Balance waiting.toList.length

theorem wp_explore_balance (moves : List M) (h : Balanced waiting arena) :
    wp (explore p n closed moves waiting) Balanced (fun _ after => after.stats.Covered) arena := by
  induction moves generalizing waiting arena with
  | nil => exact h
  | cons m rest ih =>
    obtain ⟨hsound, h⟩ := h
    simp only [explore, wp_bind]
    refine (Keeps.ask_stats _).wp (fun t asked ht => ?_) fun _ _ ht => ht ▸ h.covered
    refine wp_countGenerated_tally ?_ fun _ => ht ▸ h.covered
    have hmade : (asked.tally 0 1 0).stats.Balance (waiting.toList.length + 1) := by
      simp only [Stats.Balance, Arena.tally, ht] at h ⊢
      omega
    refine (Keeps.ask_stats _).wp (fun c priced hc => ?_) fun _ _ hc => hc ▸ hmade.covered
    split
    · rw [wp_bind]
      refine wp_countDuplicate_tally (ih ⟨hsound, ?_⟩) fun _ => hc ▸ hmade.covered
      rw [← hc] at hmade
      simp only [Stats.Balance, Arena.tally] at hmade ⊢
      omega
    · rw [wp_bind]
      refine (Keeps.ask_stats _).wp (fun remaining after hh => ih ⟨hsound.push _, ?_⟩)
        fun _ _ hh => hh ▸ hc ▸ hmade.covered
      rw [(OpenList.toList_push hsound _).length_eq, List.length_cons, hh, hc]
      exact hmade

theorem wp_turn_balance (h : Balanced waiting arena) :
    wp (turn p closed waiting) (fun result after => result.Ends
      (fun _ waiting after => Balanced waiting after) Cleared after)
      (fun _ after => after.stats.Covered) arena := by
  obtain ⟨hsound, h⟩ := h
  refine wp_turn_taken (fun ht => ?_) (fun hstop => ?_) fun n rest ht _ => ?_
  · rw [OpenList.pop?_eq_none ht] at h
    exact ⟨h.covered, fun _ _ _ => h⟩
  · exact ⟨h.covered, fun _ hopen => absurd (hstop.symm.trans hopen) nofun⟩
  · have hrest := hsound.of_pop? ht
    rw [(OpenList.toList_of_pop? ht).length_eq, List.length_cons] at h
    simp only [claim, wp_bind]
    refine (Keeps.inquire_stats _ _ _).wp (fun result asked hi => ?_) fun _ _ hi => hi ▸ h.covered
    rw [← hi] at h
    split
    · rw [wp_bind]
      refine wp_countDuplicate_tally ⟨hrest, ?_⟩ fun _ => h.covered
      simp only [Stats.Balance, Arena.tally] at h ⊢
      omega
    · simp only [expand, wp_bind]
      refine wp_countExpanded_tally ?_ fun _ => h.covered
      have hcounted : (asked.tally 1 0 0).stats.Balance rest.toList.length := by
        simp only [Stats.Balance, Arena.tally] at h ⊢
        omega
      refine (Keeps.ask_stats _).wp (fun reached tested hr => ?_)
        fun _ _ hr => hr ▸ hcounted.covered
      split
      · exact ⟨hr ▸ hcounted.covered, fun hnone => by cases hnone⟩
      · rw [wp_bind]
        refine (Keeps.ask_stats _).wp (fun moves listed hm => ?_)
          fun _ _ hm => hm ▸ hr ▸ hcounted.covered
        rw [wp_bind]
        refine (wp_explore_balance moves ⟨hrest, hm ▸ hr ▸ hcounted⟩).mono fun waiting after hwaiting => ?_
        rw [wp_bind]
        exact (Keeps.ask_stats _).wp (fun _ _ ho => ⟨hwaiting.sound, ho ▸ hwaiting.balance⟩)
          fun _ _ ho => ho ▸ hwaiting.balance.covered

theorem addsUp_solve (p : Problem ω S M) (h : arena.stats.Balance 1) :
    AddsUp ((some <$> solve p) arena) := by
  refine Cleared.addsUp ?_
  rw [solve, wp_bind]
  refine (Keeps.ask_stats _).wp (fun remaining after hh => ?_) fun _ _ hh => hh ▸ h.covered
  rw [wp_bind]
  refine (wp_run (fun _ _ _ h => wp_turn_balance h) ⟨OpenList.Sound.empty.push _, ?_⟩).mono
    fun goal after hgoal => hgoal.conclude p
  rw [(OpenList.toList_push OpenList.Sound.empty _).length_eq, hh]
  exact h

end BestFirst

/-! ### Pools -/

/-- How many states a task has on its hands: its own, until it is expanded or dropped, and those that it
generated, until they are dropped or handed in. -/
def Stage.owed : Stage S M → Nat
  | claim | claimBy _ | drop | count => 1
  | test _ | list _ => 0
  | lookAtFlag sweep _ | lookAtStop sweep _ | apply sweep _ | generate sweep _ _ | report sweep =>
    sweep.children.length
  | screen sweep _ _ | screenBy sweep _ _ _ | discard sweep | price sweep _ _ | estimate sweep _ _ _ =>
    sweep.children.length + 1

def Phase.owed : Phase S M → Nat
  | working _ stage => stage.owed
  | judgeFlag _ children | judgeStop _ children | complete _ children => children.length
  | idle | announce _ | publish _ | close _ | blame _ _ | exhaust | ended | broken _ _ => 0

omit [DecidableEq S] [Hashable S] in
theorem Sweep.owed_next (sweep : Sweep S M) : sweep.next.owed = sweep.children.length := by
  obtain ⟨tries, rest, children⟩ := sweep
  cases rest <;> rfl

omit [DecidableEq S] [Hashable S] in
theorem Claiming.owed_begin (claiming : Claiming) : (claiming.begin S M).owed = 1 := by
  cases claiming <;> rfl

/-- A step of a task counts what it takes off its hands. Only a task that fails loses any. -/
theorem Stage.exists_lost (p : Problem ω S M) (claiming : Claiming) (n : Node S M) (shared : Shared ω S M F)
    (stage : Stage S M) : ∃ lost,
      (stage.step p claiming n shared).2.expanded + (stage.step p claiming n shared).2.duplicates +
          (Pool.afterTask n (stage.step p claiming n shared).1).owed + lost + shared.generated =
        shared.expanded + shared.duplicates + stage.owed + (stage.step p claiming n shared).2.generated ∧
      (lost ≠ 0 → ∃ fault, (stage.step p claiming n shared).1 = .failed fault) := by
  let P : Progress S M × Shared ω S M F → Prop := fun result => ∃ lost,
    result.2.expanded + result.2.duplicates + (Pool.afterTask n result.1).owed + lost + shared.generated =
      shared.expanded + shared.duplicates + stage.owed + result.2.generated ∧
    (lost ≠ 0 → ∃ fault, result.1 = .failed fault)
  have hkept : ∀ {result : Progress S M × Shared ω S M F},
      result.2.expanded + result.2.duplicates + (Pool.afterTask n result.1).owed + shared.generated =
        shared.expanded + shared.duplicates + stage.owed + result.2.generated → P result :=
    fun h => ⟨0, h, fun hlost => absurd rfl hlost⟩
  -- A call counts nothing, so what is on hand stays, or is lost as a whole.
  have hcalling : ∀ {β : Type} (call : Call ω β) (onward : β → Progress S M),
      (∀ value, (Pool.afterTask n (onward value)).owed = stage.owed) → P (calling call shared onward) := by
    intro β call onward howed
    refine calling_ind P (fun value _ => hkept ?_) fun fault _ => ⟨stage.owed, ?_, fun _ => ⟨fault, rfl⟩⟩
    · rw [howed]
      rfl
    · show shared.expanded + shared.duplicates + 0 + stage.owed + shared.generated =
        shared.expanded + shared.duplicates + stage.owed + shared.generated
      omega
  have hconverse : ∀ (query : SeenQuery S) (continued : SeenQuery S → Progress S M) (known absent : Progress S M),
      (∀ query, (Pool.afterTask n (continued query)).owed = stage.owed) →
      (Pool.afterTask n known).owed = stage.owed → (Pool.afterTask n absent).owed = stage.owed →
      P (converse query shared continued known absent) := by
    intro query continued known absent hcontinued hknown habsent
    cases query with
    | answer b => cases b <;> refine hkept ?_ <;> simp only [converse, hknown, habsent]
    | fail fault =>
      refine ⟨stage.owed, ?_, fun _ => ⟨fault, rfl⟩⟩
      show shared.expanded + shared.duplicates + 0 + stage.owed + shared.generated =
        shared.expanded + shared.duplicates + stage.owed + shared.generated
      omega
    | insert s next =>
      refine hkept ?_
      simp only [converse, hcontinued]
      rfl
    | contains s next | size next =>
      refine hkept ?_
      simp only [converse, hcontinued]
  cases stage with
  | claim | screen => exact hcalling _ _ fun _ => rfl
  | claimBy | screenBy => exact hconverse _ _ _ _ (fun _ => rfl) rfl rfl
  | drop | count =>
    refine hkept ?_
    simp only [Stage.step, Pool.afterTask, Phase.owed, Stage.owed, List.length_nil]
    omega
  | test tries => exact hcalling _ _ fun reached => by cases reached <;> rfl
  | list tries => exact hcalling _ _ fun moves => Sweep.owed_next _
  | lookAtFlag | lookAtStop =>
    refine hkept ?_
    simp only [Stage.step]
    split <;> rfl
  | apply sweep m => exact hcalling _ _ fun _ => rfl
  | generate sweep m t =>
    refine hkept ?_
    cases claiming <;> simp only [Stage.step, Pool.afterTask, Phase.owed, Stage.owed] <;> omega
  | discard sweep =>
    refine hkept ?_
    have hnext : sweep.next.owed = sweep.children.length := Sweep.owed_next sweep
    have howed : (Stage.discard sweep : Stage S M).owed = sweep.children.length + 1 := rfl
    simp only [Stage.step, Pool.afterTask, Phase.owed, hnext, howed]
    omega
  | price sweep m t =>
    refine hcalling _ _ fun c => ?_
    cases claiming with
    | whenGenerated => exact Sweep.owed_next _
    | whenTaken => rfl
  | estimate sweep m t c => exact hcalling _ _ fun _ => Sweep.owed_next _
  | report sweep => exact hcalling _ _ fun _ => List.length_reverse

namespace Pool

variable {pool next : Pool ω S M F ρ} {actor : Actor} {shared shared' : Shared ω S M F}
  {before after : List (Worker S M ρ)} {w w' : Worker S M ρ} {waiting : Waiting S M} {p : Problem ω S M}
  {claiming : Claiming}

/-- Something came between the workers and the end of their work. -/
inductive Disturbed (pool : Pool ω S M F ρ) : Prop
  | stopped (h : pool.shared.stopped = true)
  | found (h : pool.shared.slot.flag = true)
  | failed (h : pool.shared.faults ≠ [])
  | failing {w : Worker S M ρ} {n : Node S M} {fault : Fault} (hw : w ∈ pool.workers)
      (h : w.phase = .blame n fault)

/-- What was generated, and the first node, is counted as expanded or dropped, waits in the queue, is in the
hands of a worker, or is lost. -/
def Tallied [Frontier F (Node S M)] [LawfulFrontier F (Node S M)] (pool : Pool ω S M F ρ) : Prop :=
  ∃ lost, pool.shared.expanded + pool.shared.duplicates + (nodes pool.shared.queue.frontier).length +
      (pool.workers.map fun w => w.phase.owed).sum + lost = pool.shared.generated + 1 ∧
    (lost ≠ 0 → pool.Disturbed)

variable [Frontier F (Node S M)] [Coin ρ]

/-- Nobody undoes a disturbance. -/
theorem Disturbed.step (h : pool.Disturbed) (hs : pool.step p claiming actor = some next) :
    next.Disturbed := by
  cases h with
  | stopped h => exact .stopped (stopped_of_step hs h)
  | found h =>
    refine .found (eq_true_of_ne_false fun hflag => ?_)
    rw [flag_of_step hs hflag] at h
    cases h
  | failed h =>
    refine .failed ?_
    rcases step_cases hs with ⟨before, w, after, w', shared', -, -, hacts, rfl⟩ |
      ⟨waiting', shared', -, hwaits, rfl⟩ | ⟨-, rfl⟩
    · generalize w.phase = phase at hacts
      cases hacts with
      | task ht =>
        rw [(Stage.frame_of_step_eq ht).faults]
        exact h
      | blamed => exact List.cons_ne_nil _ _
      | _ => exact h
    · generalize pool.waiting = waiting at hwaits
      cases hwaits <;> exact h
    · exact h
  | @failing v n fault hv h =>
    obtain ⟨shared, workers, waiting⟩ := pool
    rcases step_cases hs with ⟨before, w, after, w', shared', -, hw, hacts, rfl⟩ |
      ⟨waiting', shared', -, hwaits, rfl⟩ | ⟨-, rfl⟩
    · obtain rfl : workers = _ := hw
      by_cases hvw : v = w
      · subst hvw
        rw [h] at hacts
        cases hacts
        exact .failed (List.cons_ne_nil _ _)
      · refine .failing (w := v) ?_ h
        simp only [List.mem_append, List.mem_cons] at hv ⊢
        exact hv.imp_right fun hv => .inr (hv.resolve_left hvw)
    · exact .failing hv h
    · exact .failing hv h

variable [LawfulFrontier F (Node S M)]

omit [Coin ρ] in
/-- The step of one worker has to be looked at only for what it counts, and for what it gives away. -/
theorem Tallied.replace (h : Tallied ⟨shared, before ++ w :: after, waiting⟩) (lost : Nat)
    (hcount : shared'.expanded + shared'.duplicates + (nodes shared'.queue.frontier).length + w'.phase.owed +
        lost + shared.generated =
      shared.expanded + shared.duplicates + (nodes shared.queue.frontier).length + w.phase.owed +
        shared'.generated)
    (hkept : Disturbed ⟨shared, before ++ w :: after, waiting⟩ →
      Disturbed ⟨shared', before ++ w' :: after, waiting⟩)
    (hlost : lost ≠ 0 → Disturbed ⟨shared', before ++ w' :: after, waiting⟩) :
    Tallied ⟨shared', before ++ w' :: after, waiting⟩ := by
  obtain ⟨lost', hsum, hlost'⟩ := h
  refine ⟨lost' + lost, ?_, fun hne => ?_⟩
  · simp only [List.map_append, List.map_cons, List.sum_append, List.sum_cons] at hsum ⊢
    omega
  · by_cases hzero : lost = 0
    · exact hkept (hlost' (by omega))
    · exact hlost hzero

theorem Tallied.step (h : pool.Tallied) (ho : pool.Orderly)
    (hs : pool.step p claiming actor = some next) : next.Tallied := by
  have hkept : pool.Disturbed → next.Disturbed := fun h => h.step hs
  have hunbroken := (ho.step hs).unbroken
  obtain ⟨shared, workers, waiting⟩ := pool
  rcases step_cases hs with ⟨before, w, after, w', shared', -, hw, hacts, rfl⟩ |
    ⟨waiting', shared', -, hwaits, rfl⟩ | ⟨-, rfl⟩
  · obtain rfl : workers = _ := hw
    have hmem : w' ∈ before ++ w' :: after := by simp
    generalize hph : w.phase = phase at hacts
    cases hacts with
    | @taken n queue ht =>
      obtain ⟨-, -, frontier, hpop, rfl, -⟩ := WorkQueue.take_eq_taken ht
      have hnodes := (nodes_pop ho.sound hpop).length_eq
      refine h.replace 0 ?_ hkept fun hlost => absurd rfl hlost
      rw [List.length_cons] at hnodes
      simp only [hph, Phase.owed, claiming.owed_begin] at hnodes ⊢
      omega
    | @task n stage progress shared'' ht =>
      obtain ⟨lost, hcount, hlost⟩ := stage.exists_lost p claiming n shared
      rw [ht] at hcount hlost
      refine h.replace lost ?_ hkept fun hne => ?_
      · rw [(Stage.frame_of_step_eq ht).queue, hph]
        simp only [Phase.owed] at hcount ⊢
        omega
      · obtain ⟨fault, rfl⟩ := hlost hne
        exact .failing hmem rfl
    | @forgone n children hflag =>
      refine h.replace children.length ?_ hkept fun _ => .found hflag
      simp only [hph, Phase.owed, List.length_nil]
      omega
    | @judged n children =>
      cases hstop : shared.stopped with
      | true =>
        refine h.replace children.length ?_ (by simpa only [hstop] using hkept) fun _ => .stopped hstop
        simp only [hph, Phase.owed, if_true, List.length_nil]
        omega
      | false =>
        refine h.replace 0 ?_ (by simpa only [hstop] using hkept) fun hlost => absurd rfl hlost
        simp [hph, Phase.owed]
    | @completed n children exhausted queue coin' hc =>
      have hsound : Sound shared.queue.frontier := ho.sound
      have hnodes := (WorkQueue.complete_eq_ok hsound hc).2.1.length_eq
      refine h.replace 0 ?_ hkept fun hlost => absurd rfl hlost
      rw [List.length_append] at hnodes
      cases exhausted <;> simp only [hph, Phase.owed, if_true, Bool.false_eq_true, if_false] <;> omega
    | broke => exact absurd rfl (hunbroken _ hmem _ _)
    | _ =>
      refine h.replace 0 ?_ hkept fun hlost => absurd rfl hlost
      simp [hph, Phase.owed, WorkQueue.close, Shared.addFault]
  · cases hwaits <;> exact h.imp fun _ h => ⟨h.1, fun hlost => hkept (h.2 hlost)⟩
  · exact h.imp fun _ h => ⟨h.1, fun hlost => hkept (h.2 hlost)⟩

theorem Tallied.follow (h : pool.Tallied) (ho : pool.Orderly) (actors : List Actor) :
    (pool.follow p claiming actors).Tallied :=
  (follow_induction (I := fun pool => pool.Orderly ∧ pool.Tallied)
    (fun _ _ _ ⟨ho, h⟩ hs => ⟨ho.step hs, h.step ho hs⟩) ⟨ho, h⟩ actors).2

omit [Coin ρ] in
theorem IsFresh.tallied {root : Node S M} (h : pool.IsFresh root) (hexpanded : pool.shared.expanded = 0)
    (hgenerated : pool.shared.generated = 0) (hduplicates : pool.shared.duplicates = 0) : pool.Tallied := by
  have howed : (pool.workers.map fun w => w.phase.owed).sum = 0 := by
    refine List.sum_eq_zero fun k hk => ?_
    obtain ⟨w, hw, rfl⟩ := List.mem_map.1 hk
    rw [h.idle w hw]
    rfl
  refine ⟨0, ?_, fun hlost => absurd rfl hlost⟩
  rw [hexpanded, hgenerated, hduplicates, howed, h.nodes]
  rfl

omit [Coin ρ] in
/-- When everybody has gone home without a goal and undisturbed, nothing is left over. -/
theorem Tallied.cleared {goal : Option (Node S M)} (h : pool.Tallied) (ho : pool.Orderly)
    (hend : pool.outcome? = some goal) {arena : Arena ω} (hexpanded : arena.stats.expanded = pool.shared.expanded)
    (hgenerated : arena.stats.generated = pool.shared.generated)
    (hduplicates : arena.stats.duplicates = pool.shared.duplicates)
    (hstopped : arena.stopped = pool.shared.stopped) (hfaults : arena.faults = pool.shared.faults.reverse) :
    Cleared goal arena := by
  obtain ⟨lost, hsum, hlost⟩ := h
  refine ⟨by unfold Stats.Covered; omega, fun hgoal hopen hnone => ?_⟩
  subst hgoal
  have hended : ∀ w ∈ pool.workers, w.phase = .ended :=
    fun w hw => ho.ended_of_over hw ((ended_of_outcome? hend).2 w hw)
  have hcontent := ho.content_of_outcome? (hstopped.symm.trans hopen) hend
  have hnodes := (ho.drained (.inl hcontent)).1
  have howed : (pool.workers.map fun w => w.phase.owed).sum = 0 := by
    refine List.sum_eq_zero fun k hk => ?_
    obtain ⟨w, hw, rfl⟩ := List.mem_map.1 hk
    rw [hended w hw]
    rfl
  have hcalm : ¬ pool.Disturbed := by
    rintro (hstop | hflag | hfailed | ⟨hw, hblame⟩)
    · cases hopen.symm.trans (hstopped.trans hstop)
    · obtain ⟨n, hn⟩ := ho.flag.1 hflag
      cases hcontent.symm.trans hn
    · exact hfailed (List.reverse_eq_nil_iff.1 (hfaults.symm.trans hnone))
    · cases (hended _ hw).symm.trans hblame
  have hzero : lost = 0 := by
    by_contra hne
    exact hcalm (hlost hne)
  rw [hnodes, howed, hzero] at hsum
  unfold Stats.Balance
  simp only [List.length_nil] at hsum
  omega

end Pool

namespace PoolSearch

variable [Frontier F (Node S M)] [LawfulFrontier F (Node S M)] [Coin ρ] {p : Problem ω S M}
  {claiming : Claiming} {prepare : Act ω (Pool ω S M F ρ)} {arena : Arena ω} {outcome : Upshot ω M}

theorem Ends.addsUp (h : Ends p claiming prepare arena outcome) (hfresh : arena.stats.Balance 1)
    (hkeeps : Keeps Arena.stats prepare)
    (hprepare : ∀ pool middle, prepare arena = .ok pool middle → pool.Orderly ∧ pool.Tallied) :
    AddsUp outcome := by
  cases h with
  | unprepared h =>
    refine ⟨?_, nofun⟩
    have hstats := hkeeps arena
    rw [h] at hstats
    exact hstats ▸ hfresh.covered
  | finished h actors hend =>
    obtain ⟨ho, ht⟩ := hprepare _ _ h
    refine Cleared.addsUp ?_
    rw [finish, wp_bind]
    exact ((ht.follow ho actors).cleared (ho.follow actors) hend rfl rfl rfl rfl rfl).conclude p

end PoolSearch

variable {p : Problem ω S M} {arena : Arena ω} {strategy : Strategy} {outcome : Upshot ω M}

/-- In whatever way a search ends that starts with fresh counters, they add up. -/
theorem Ends.addsUp (h : Ends p arena strategy outcome) (hfresh : arena.stats.Balance 1) : AddsUp outcome := by
  cases h with
  | depthFirst | breadthFirst => exact Exhaustive.addsUp_solve _ p hfresh
  | aStar => exact BestFirst.addsUp_solve p hfresh
  | concurrent h =>
    refine h.addsUp hfresh (PoolSearch.keeps_stats_prepareConcurrent _ _ _) fun pool middle hprepare => ?_
    have hpool := (PoolSearch.isFresh_of_prepareConcurrent hprepare).1
    obtain ⟨_, _, -, hseeded⟩ := of_bind_eq_ok hprepare
    cases hseeded
    exact ⟨hpool.orderly, hpool.tallied rfl rfl rfl⟩
  | concurrentAStar h =>
    refine h.addsUp hfresh (PoolSearch.keeps_stats_prepareAStar _ _) fun pool middle hprepare => ?_
    obtain ⟨_, _, -, hpool, -⟩ := PoolSearch.isFresh_of_prepareAStar hprepare
    obtain ⟨_, _, -, hseeded⟩ := of_bind_eq_ok hprepare
    cases hseeded
    exact ⟨hpool.orderly, hpool.tallied rfl rfl rfl⟩

/-! ### Solvers -/

namespace Solver

variable {solver : Solver} {world : ω}

/-- The counters that a search left behind add up. -/
structure Consistent (result : Solver × ω × Ending M) : Prop where
  covered : result.1.stats.expanded + result.1.stats.duplicates ≤ result.1.stats.generated + 1
  balance : result.2.2 = .answered none → result.1.stopped = false → result.1.faults = [] →
    result.1.stats.expanded + result.1.stats.duplicates = result.1.stats.generated + 1

omit [DecidableEq S] [Hashable S] in
theorem consistent_close (solver : Solver) (h : AddsUp outcome) : Consistent (solver.close outcome) := by
  cases outcome with
  | ok result after =>
    refine ⟨h.covered, fun hnone hstop hfaults => ?_⟩
    rcases result with _ | _ | path
    · cases hnone
    · exact h.balance after rfl hstop hfaults
    · cases hnone
  | error fault after => exact ⟨h.covered, nofun⟩

omit [DecidableEq S] [Hashable S] in
/-- A failure that is forgiven is still to be seen by its faults. -/
theorem consistent_forgive (solver : Solver) (h : AddsUp outcome) :
    Consistent (forgive (solver.close outcome)) := by
  have hclose := consistent_close solver h
  unfold forgive
  split
  · rename_i after world error hresult
    rw [hresult] at hclose
    refine ⟨hclose.covered, fun _ _ hfaults => ?_⟩
    -- The search was taken for a failure because of the faults that the solver keeps.
    cases outcome with
    | ok result final =>
      rcases result with _ | _ | path
      · cases hresult
      · simp only [close, endingOf, Prod.mk.injEq] at hresult
        obtain ⟨rfl, -, hending⟩ := hresult
        rw [show final.faults = [] from hfaults] at hending
        cases hending
      · cases hresult
    | error fault final => cases hresult
  · exact hclose

omit [DecidableEq S] [Hashable S] in
theorem Consistent.restoreBias {result : Solver × ω × Ending M} (h : Consistent result) (other : Solver) :
    Consistent (other.restoreBias result) := by
  obtain ⟨after, world, ending⟩ := result
  cases ending <;> exact ⟨h.covered, h.balance⟩

/-- The call for the initial state counts nothing. -/
theorem Leaves.exists_addsUp {first : Call ω S} {result : Solver × ω × Ending M}
    (h : solver.Leaves p first world result) : ∃ outcome, AddsUp outcome ∧ result = solver.close outcome := by
  have hstats := Keeps.ask_stats first (solver.arena world)
  have hfresh : (solver.arena world).stats.Balance 1 := rfl
  cases h with
  | @unbegun fault after hfirst =>
    rw [hfirst] at hstats
    rw [← hstats] at hfresh
    exact ⟨.error fault after, ⟨hfresh.covered, nofun⟩, rfl⟩
  | begun hfirst hends =>
    rw [hfirst] at hstats
    rw [← hstats] at hfresh
    exact ⟨_, hends.addsUp hfresh, rfl⟩

/-- Whatever the problem does, in whatever order workers take their steps and however a search ends, the
counters that it leaves add up. -/
theorem counters_add_up (solver : Solver) (p : Problem ω S M) (world : ω) :
    (∀ first result, solver.Leaves p first world result → Consistent result ∧ Consistent (forgive result) ∧
      ∀ other : Solver, Consistent (other.restoreBias (forgive result))) ∧
    ∀ limit, Consistent (solver.trySolve p world limit) ∧ Consistent (solver.solve p world limit) := by
  have hfresh : (solver.arena world).stats.Balance 1 := rfl
  constructor
  · intro first result h
    obtain ⟨outcome, hadds, rfl⟩ := h.exists_addsUp
    have hforgive := consistent_forgive solver hadds
    exact ⟨consistent_close solver hadds, hforgive, hforgive.restoreBias⟩
  · intro limit
    suffices hadds : AddsUp (solver.search p limit (solver.arena world)) from
      ⟨consistent_close solver hadds, consistent_forgive solver hadds⟩
    rcases ends_or_unfinished solver p limit (solver.arena world) with hends | ⟨after, hsearch, hstats⟩
    · exact hends.addsUp hfresh
    · rw [hsearch]
      exact ⟨by rw [← hstats] at hfresh; exact hfresh.covered, nofun⟩

end Solver

namespace Junction

/-- Two workers who look in vain have expanded or dropped what they generated, and the start. -/
theorem counters_add_up_stroll : ∃ result, pair.Leaves stroll.toProblem (.answer start) () result ∧
    result.2.2 = .answered none ∧ result.1.stats.generated = 4 ∧
    result.1.stats.expanded + result.1.stats.duplicates = result.1.stats.generated + 1 := by
  have hprepare : PoolSearch.prepareConcurrent stroll.toProblem .tail ⟨(), [(), ()]⟩ (pair.arena ()) =
      .ok levels (pair.arena ()) := rfl
  have hend : (levels.follow stroll.toProblem .whenGenerated turns).outcome?.map Option.isNone = some true ∧
      (levels.follow stroll.toProblem .whenGenerated turns).shared.stopped = false ∧
      (levels.follow stroll.toProblem .whenGenerated turns).shared.faults.length = 0 ∧
      (levels.follow stroll.toProblem .whenGenerated turns).shared.generated = 4 := by decide +kernel
  obtain ⟨hnone, hstop, hfaults, hgenerated⟩ := hend
  obtain ⟨goal, hgoal, hisNone⟩ := Option.map_eq_some_iff.1 hnone
  obtain rfl := Option.isNone_iff_eq_none.1 hisNone
  have hends : Ends stroll.toProblem (pair.arena ()) pair.strategy _ :=
    .concurrent (.finished hprepare turns hgoal)
  generalize levels.follow stroll.toProblem .whenGenerated turns = final at *
  have hfaults' : final.shared.faults.reverse = [] := by
    rw [List.length_eq_zero_iff.1 hfaults]
    rfl
  have hanswered : (pair.close ((some <$> PoolSearch.finish stroll.toProblem final none) (pair.arena ()))).2.2 =
      .answered none := by
    show Solver.endingOf final.shared.faults.reverse (some none) = .answered none
    rw [hfaults']
    rfl
  have hleaves : pair.Leaves stroll.toProblem (.answer start) () _ := .of_ends hends
  have hconsistent := ((Solver.counters_add_up pair stroll.toProblem ()).1 _ _ hleaves).1
  refine ⟨_, hleaves, hanswered, hgenerated, hconsistent.balance hanswered ?_ hfaults'⟩
  show (final.shared.stopped || false) = false
  rw [hstop]
  rfl

end Junction

end StateSearch
