import StateSearch.Proofs.Pool.Losses
import Mathlib.Algebra.GroupWithZero.Nat
import Mathlib.Order.WellFounded

/-!
# A pool comes to its end

If the states that can be reached are finitely many and everybody has a turn again and again, a pool whose
workers claim states when they generate them comes to its end (`exists_outcome_of_fair`), whatever fails
and whoever asks for a stop.

`Pool.effort` bounds the steps that the workers still take. Each state that is not seen, and each node,
stands for the steps of its task; every step of a worker lowers the bound (`effort_lt_of_acts`). From some
time on no worker takes a step, then. A worker who waits for a node in vain would need somebody busy or
an open queue without nodes, and neither is there (`exists_over`). Then there is an outcome, and the one
who waits for it needs a few more turns to see it (`patience_of_step`).
-/

namespace StateSearch

open StateSearch.Random LawfulFrontier

variable {ω S M F ρ : Type} {rules : Rules S M} {p : Problem ω S M}

/-! ### The steps of a task -/

namespace Rules

/-- The number of moves in a state. -/
def choices (rules : Rules S M) (s : S) : Nat :=
  match rules.legalMoves s with
  | .ok moves => moves.length
  | .error _ => 0

/-- A bound on the steps of a task on the state. -/
def effort (rules : Rules S M) (s : S) : Nat := 8 * rules.choices s + 9

def efforts (rules : Rules S M) (states : List S) : Nat := (states.map rules.effort).sum

@[simp] theorem efforts_cons (s : S) (states : List S) :
    rules.efforts (s :: states) = rules.effort s + rules.efforts states := List.sum_cons

@[simp] theorem efforts_append (states states' : List S) :
    rules.efforts (states ++ states') = rules.efforts states + rules.efforts states' := by
  simp [efforts]

theorem efforts_filter_le (states : List S) (keep : S → Bool) :
    rules.efforts (states.filter keep) ≤ rules.efforts states := by
  induction states with
  | nil => exact Nat.le_refl _
  | cons s states ih =>
    rw [List.filter_cons]
    split
    · rw [efforts_cons, efforts_cons]
      exact Nat.add_le_add_left ih _
    · rw [efforts_cons]
      exact Nat.le_trans ih (Nat.le_add_left _ _)

theorem efforts_perm {states states' : List S} (h : states.Perm states') :
    rules.efforts states = rules.efforts states' :=
  (h.map rules.effort).sum_nat

theorem effort_le_efforts {s : S} {states : List S} (hs : s ∈ states) :
    rules.effort s ≤ rules.efforts states := by
  obtain ⟨before, after, rfl⟩ := List.append_of_mem hs
  rw [efforts_append, efforts_cons]
  omega

end Rules

/-- A bound on the steps that a task on `n` still takes. -/
def Stage.effort (rules : Rules S M) (n : Node S M) : Stage S M → Nat
  | claim | claimBy _ | drop | estimate .. => 0
  | count => rules.effort n.state
  | test _ => 8 * rules.choices n.state + 8
  | list _ => 8 * rules.choices n.state + 7
  | lookAtFlag sweep _ => 8 * sweep.rest.length + 14
  | lookAtStop sweep _ => 8 * sweep.rest.length + 13
  | apply sweep _ => 8 * sweep.rest.length + 12
  | generate sweep .. => 8 * sweep.rest.length + 11
  | screen sweep .. => 8 * sweep.rest.length + 10
  | screenBy sweep _ _ (.answer _) => 8 * sweep.rest.length + 8
  | screenBy sweep .. => 8 * sweep.rest.length + 9
  | discard sweep | price sweep .. => 8 * sweep.rest.length + 7
  | report _ => 6

namespace Phase

/-- A bound on the steps that a worker takes before it asks for a node again. -/
def steps (rules : Rules S M) : Phase S M → Nat
  | idle => 1
  | working n stage => stage.effort rules n
  | announce _ => 6
  | publish _ => 5
  | close _ => 4
  | judgeFlag .. => 5
  | judgeStop .. => 4
  | blame .. => 4
  | complete .. => 3
  | exhaust => 2
  | ended | broken .. => 0

/-- The states for which a worker may still hand in nodes. -/
def due : Phase S M → List S
  | working _ stage => stage.pending ++ stage.made.map Node.state
  | judgeFlag _ children | judgeStop _ children | complete _ children => children.map Node.state
  | idle | announce _ | publish _ | close _ | blame .. | exhaust | ended | broken .. => []

/-- A bound on the steps that a worker still takes, and others on the nodes it hands in. -/
def effort (rules : Rules S M) (phase : Phase S M) : Nat :=
  phase.steps rules + rules.efforts phase.due

end Phase

theorem Sweep.effort_next (n : Node S M) (sweep : Sweep S M) :
    sweep.next.effort rules n = 8 * sweep.rest.length + 6 := by
  obtain ⟨tries, rest, children⟩ := sweep
  cases rest with
  | nil => rfl
  | cons m rest =>
    simp only [Sweep.next, Stage.effort, List.length_cons]
    omega

variable [DecidableEq S] [Hashable S]

/-- Each step of a task brings its end nearer. -/
theorem Stage.Shaped.steps_lt {stage : Stage S M} (hp : p.Respects rules) (hplain : p.Plain)
    (h : stage.Shaped) (n : Node S M) (shared : Shared ω S M F) :
    (Pool.afterTask n (stage.step p .whenGenerated n shared).1).steps rules <
      stage.effort rules n := by
  let P : Progress S M × Shared ω S M F → Prop := fun result =>
    (Pool.afterTask n result.1).steps rules < stage.effort rules n
  cases stage with
  | claim | claimBy | drop | estimate => exact h.elim
  | count => exact Nat.lt_succ_self _
  | test tries =>
    refine calling_ind P (fun reached _ => ?_) fun _ _ => ?_
    · cases reached with
      | true => exact Nat.lt_of_lt_of_le (by decide : 6 < 8) (Nat.le_add_left _ _)
      | false => exact Nat.lt_succ_self _
    · exact Nat.lt_of_lt_of_le (by decide : 4 < 8) (Nat.le_add_left _ _)
  | list tries =>
    refine calling_ind P (fun moves hr => ?_) fun _ _ => ?_
    · show (Sweep.next { tries, rest := moves } : Stage S M).effort rules n < _
      rw [Sweep.effort_next, Stage.effort, Rules.choices, hp.legalMoves hr]
      exact Nat.lt_succ_self _
    · exact Nat.lt_of_lt_of_le (by decide : 4 < 7) (Nat.le_add_left _ _)
  | lookAtFlag sweep m | lookAtStop sweep m =>
    simp only [Stage.step]
    split
    · simp only [Pool.afterTask, Phase.steps, Stage.effort]
      omega
    · exact Nat.lt_succ_self _
  | apply sweep m =>
    refine calling_ind P (fun _ _ => Nat.lt_succ_self _) fun _ _ => ?_
    exact Nat.lt_of_lt_of_le (by decide : 4 < 12) (Nat.le_add_left _ _)
  | generate sweep m t => exact Nat.lt_succ_self _
  | screen sweep m t =>
    refine calling_ind P (fun query hq => ?_) fun _ _ => ?_
    · obtain rfl := hplain _ _ _ hq
      exact Nat.lt_succ_self _
    · exact Nat.lt_of_lt_of_le (by decide : 4 < 10) (Nat.le_add_left _ _)
  | screenBy sweep m t query =>
    obtain rfl | ⟨known, rfl⟩ := h
    · exact Nat.lt_succ_self _
    · cases known <;> exact Nat.lt_succ_self _
  | discard sweep =>
    show sweep.next.effort rules n < _
    rw [Sweep.effort_next]
    exact Nat.lt_succ_self _
  | price sweep m t =>
    refine calling_ind P (fun c _ => ?_) fun _ _ => ?_
    · show (sweep.add (n.child t m c 0)).next.effort rules n < _
      rw [Sweep.effort_next]
      exact Nat.lt_succ_self _
    · exact Nat.lt_of_lt_of_le (by decide : 4 < 7) (Nat.le_add_left _ _)
  | report sweep =>
    exact calling_ind P (fun _ _ => (by decide : 5 < 6)) fun _ _ => (by decide : 4 < 6)

/-! ### The steps of the pool -/

/-- The states that have not been seen yet. -/
def unseen (states : List S) (seen : Std.HashSet S) : List S :=
  states.filter fun s => s ∉ seen

theorem unseen_congr {states : List S} {seen seen' : Std.HashSet S}
    (h : ∀ s, s ∈ seen' ↔ s ∈ seen) : unseen states seen' = unseen states seen := by
  unfold unseen
  simp only [h]

/-- Recording a state takes its share from what is to be done for the others. -/
theorem Rules.efforts_unseen_le (rules : Rules S M) {states : List S} {seen seen' : Std.HashSet S}
    {s : S} (hs : s ∈ states) (hfresh : s ∉ seen) (h : ∀ t, t ∈ seen' ↔ t = s ∨ t ∈ seen) :
    rules.effort s + rules.efforts (unseen states seen') ≤ rules.efforts (unseen states seen) := by
  have hsplit : unseen states seen' = (unseen states seen).filter fun t => t ≠ s := by
    unfold unseen
    rw [List.filter_filter]
    refine List.filter_congr fun t _ => ?_
    rw [← Bool.decide_and]
    exact decide_eq_decide.2 (by rw [h, not_or])
  have hmem : s ∈ unseen states seen := List.mem_filter.2 ⟨hs, by simpa using hfresh⟩
  obtain ⟨before, after, heq⟩ := List.append_of_mem hmem
  have hbefore := rules.efforts_filter_le before fun t => t ≠ s
  have hafter := rules.efforts_filter_le after fun t => t ≠ s
  have hout : ¬ (decide (s ≠ s) = true) := by simp
  rw [hsplit, heq, List.filter_append, List.filter_cons, if_neg hout, Rules.efforts_append,
    Rules.efforts_append, Rules.efforts_cons]
  omega

/-- A step of a task moves states from those that are not seen to those that are due. -/
theorem Stage.Effect.efforts_le {n : Node S M} {stage : Stage S M} {seen seen' : Std.HashSet S}
    {progress : Progress S M} (h : stage.Effect n seen seen' progress) (rules : Rules S M)
    {states : List S} (hstates : ∀ sweep m s query, stage = .screenBy sweep m s query → s ∈ states) :
    rules.efforts (unseen states seen') + rules.efforts (Pool.afterTask n progress).due ≤
      rules.efforts (unseen states seen) + rules.efforts (Phase.working n stage).due := by
  cases h with
  | @kept stage' hs ho =>
    have hdue : (Phase.working n stage').due = (Phase.working n stage).due :=
      List.tail_eq_of_cons_eq ho
    rw [unseen_congr hs]
    show _ + rules.efforts (Phase.working n stage').due ≤ _
    rw [hdue]
  | @recorded sweep m s hstage hfresh hs =>
    have hle := rules.efforts_unseen_le (hstates _ _ _ _ hstage) hfresh hs
    have hdue : (Phase.working n stage).due = sweep.children.map Node.state := by
      rw [hstage]
      rfl
    have hdue' : (Pool.afterTask n (.onward (.screenBy sweep m s (.answer false)))).due =
        s :: sweep.children.map Node.state := rfl
    rw [hdue, hdue', Rules.efforts_cons]
    omega
  | goal hs ho =>
    rw [hs]
    exact Nat.add_le_add_left (Nat.zero_le _) _
  | finished hs ho =>
    rw [hs]
    refine Nat.add_le_add_left (Nat.le_of_eq ?_) _
    show rules.efforts (stage.made.reverse.map Node.state) =
      rules.efforts (stage.pending ++ stage.made.map Node.state)
    rw [ho, List.map_reverse, List.nil_append]
    exact Rules.efforts_perm (List.reverse_perm _)
  | failed hs =>
    rw [hs]
    exact Nat.add_le_add_left (Nat.zero_le _) _

namespace Pool

variable [Frontier F (Node S M)] [LawfulFrontier F (Node S M)] {pool next : Pool ω S M F ρ}
  {actor : Actor} {states : List S}

/-- A bound on the steps that all workers still take, if only these states can be reached. -/
def effort (rules : Rules S M) (states : List S) (pool : Pool ω S M F ρ) : Nat :=
  rules.efforts (unseen states pool.shared.seen) +
    rules.efforts ((nodes pool.shared.queue.frontier).map Node.state) +
      (pool.workers.map fun worker => worker.phase.effort rules).sum

variable {shared shared' : Shared ω S M F} {before after : List (Worker S M ρ)} {w w' : Worker S M ρ}
  {waiting : Waiting S M}

theorem effort_middle : effort rules states ⟨shared, before ++ w :: after, waiting⟩ =
    rules.efforts (unseen states shared.seen) +
      rules.efforts ((nodes shared.queue.frontier).map Node.state) + w.phase.effort rules +
        ((before ++ after).map fun worker => worker.phase.effort rules).sum := by
  simp only [effort, List.map_append, List.map_cons, List.sum_append, List.sum_cons]
  omega

/-- The steps of the whole run, if nothing has been done yet. -/
theorem IsFresh.effort_le {root : Node S M} (h : pool.IsFresh root) (hroot : root.state ∈ states) :
    pool.effort rules states ≤ 2 * rules.efforts states + pool.workers.length := by
  have hidle : pool.workers.map (fun worker => worker.phase.effort rules) =
      pool.workers.map fun _ => 1 :=
    List.map_congr_left fun w hw => by rw [h.idle w hw]; rfl
  have hunseen : rules.efforts (unseen states pool.shared.seen) ≤ rules.efforts states :=
    rules.efforts_filter_le states _
  have hqueue : rules.efforts ([root].map Node.state) ≤ rules.efforts states :=
    Rules.effort_le_efforts hroot
  rw [effort, hidle, h.nodes, List.map_const', List.sum_replicate_nat]
  omega

variable [Coin ρ]

omit [Coin ρ] in
theorem effort_lt (hseen : shared'.seen = shared.seen)
    (hfrontier : shared'.queue.frontier = shared.queue.frontier)
    (h : w'.phase.effort rules < w.phase.effort rules) :
    effort rules states ⟨shared', before ++ w' :: after, waiting⟩ <
      effort rules states ⟨shared, before ++ w :: after, waiting⟩ := by
  rw [effort_middle, effort_middle, hseen, hfrontier]
  omega

omit [Coin ρ] in
/-- What a node counts for in the queue is what its task counts for. -/
theorem effort_lt_of_take (hsound : Sound shared.queue.frontier) {n : Node S M} {queue : WorkQueue F}
    (hw : w.phase = .idle) (hw' : w'.phase = .working n (Claiming.whenGenerated.begin S M))
    (ht : shared.queue.take shared.stopped = .taken n queue) :
    effort rules states ⟨{ shared with queue }, before ++ w' :: after, waiting⟩ <
      effort rules states ⟨shared, before ++ w :: after, waiting⟩ := by
  obtain ⟨-, -, frontier, hpop, rfl, -⟩ := WorkQueue.take_eq_taken ht
  have hnodes := rules.efforts_perm ((nodes_pop hsound hpop).map Node.state)
  rw [List.map_cons, Rules.efforts_cons] at hnodes
  have hidle : w.phase.effort rules = 1 := by
    rw [hw]
    rfl
  have hbegin : w'.phase.effort rules = rules.effort n.state := by
    rw [hw']
    rfl
  rw [effort_middle, effort_middle, hidle, hbegin, hnodes]
  simp only
  omega

omit [Coin ρ] in
theorem effort_lt_of_task (hp : p.Respects rules) (hplain : p.Plain) {n : Node S M} {stage : Stage S M}
    {progress : Progress S M} (hshaped : stage.Shaped)
    (hstates : ∀ sweep m s query, stage = .screenBy sweep m s query → s ∈ states)
    (hw : w.phase = .working n stage) (hw' : w'.phase = afterTask n progress)
    (ht : stage.step p .whenGenerated n shared = (progress, shared')) :
    effort rules states ⟨shared', before ++ w' :: after, waiting⟩ <
      effort rules states ⟨shared, before ++ w :: after, waiting⟩ := by
  have hframe := Stage.frame_of_step_eq ht
  have hlt := Stage.Shaped.steps_lt hp hplain hshaped n shared
  have heffect := Stage.Shaped.effect hplain hshaped n shared
  rw [ht] at hlt heffect
  simp only at hlt heffect
  have hle := heffect.efforts_le rules hstates
  have hwork : w.phase.effort rules = stage.effort rules n +
      rules.efforts (Phase.working n stage).due := by
    rw [hw]
    rfl
  rw [effort_middle, effort_middle, hframe.queue, hwork, hw']
  simp only [Phase.effort] at hlt hle ⊢
  omega

/-- What the children count for is handed over to the queue. -/
theorem effort_lt_of_complete (hsound : Sound shared.queue.frontier) {n : Node S M}
    {children : List (Node S M)} {exhausted : Bool} {queue : WorkQueue F} {coin coin' : ρ}
    (hw : w.phase = .complete n children) (hw' : w'.phase = if exhausted then .exhaust else .idle)
    (hc : shared.queue.complete children coin = .ok (exhausted, queue, coin')) :
    effort rules states ⟨{ shared with queue }, before ++ w' :: after, waiting⟩ <
      effort rules states ⟨shared, before ++ w :: after, waiting⟩ := by
  obtain ⟨-, hnodes, -⟩ := WorkQueue.complete_eq_ok hsound hc
  have hnodes := rules.efforts_perm (hnodes.map Node.state)
  rw [List.map_append, Rules.efforts_append] at hnodes
  have hfree : w'.phase.effort rules ≤ 2 := by
    rw [hw']
    cases exhausted
    · exact (by decide : 1 ≤ 2)
    · exact (by decide : 2 ≤ 2)
  have hwork : w.phase.effort rules = 3 + rules.efforts (children.map Node.state) := by
    rw [hw]
    rfl
  rw [effort_middle, effort_middle, hwork, hnodes]
  simp only at hfree ⊢
  omega

theorem effort_lt_of_acts (hp : p.Respects rules) (hplain : p.Plain)
    (hsound : Sound shared.queue.frontier) (hshaped : w.phase.Shaped)
    (hcarries : w.phase.Carries p rules (fun n => n.state ∈ states) .whenGenerated)
    (hclosed : ∀ s ∈ states, ∀ m t, rules.IsLegal s m → rules.applyMove s m = .ok t → t ∈ states)
    {index : Nat} (h : Acts p .whenGenerated index shared w.coin w.phase w' shared') :
    effort rules states ⟨shared', before ++ w' :: after, waiting⟩ <
      effort rules states ⟨shared, before ++ w :: after, waiting⟩ := by
  generalize hph : w.phase = phase at h hshaped hcarries
  cases h with
  | refused | announced | won | closed | exhausted | blamed =>
    refine effort_lt rfl rfl ?_
    rw [hph]
    exact Nat.lt_succ_self _
  | kept =>
    refine effort_lt rfl rfl ?_
    rw [hph]
    exact Nat.add_lt_add_right (by decide : 4 < 5) _
  | tooLate =>
    refine effort_lt rfl rfl ?_
    rw [hph]
    exact (by decide : 3 < 6)
  | beaten =>
    refine effort_lt rfl rfl ?_
    rw [hph]
    exact (by decide : 3 < 5)
  | taken ht => exact effort_lt_of_take hsound hph rfl ht
  | task ht =>
    refine effort_lt_of_task hp hplain hshaped ?_ hph rfl ht
    rintro sweep m s query rfl
    exact hclosed _ hcarries.1 m s hcarries.2.2.1 hcarries.2.2.2
  | forgone =>
    refine effort_lt rfl rfl ?_
    rw [hph]
    exact Nat.lt_of_lt_of_le (by decide : 3 < 5) (Nat.le_add_right _ _)
  | @judged n children =>
    refine effort_lt rfl rfl ?_
    rw [hph]
    cases shared.stopped with
    | true => exact Nat.lt_of_lt_of_le (by decide : 3 < 4) (Nat.le_add_right _ _)
    | false => exact Nat.add_lt_add_right (by decide : 3 < 4) _
  | completed hc => exact effort_lt_of_complete hsound hph rfl hc
  | broke =>
    refine effort_lt rfl rfl ?_
    rw [hph]
    exact Nat.lt_of_lt_of_le (by decide : 0 < 3) (Nat.le_add_right _ _)

/-- What is known of the pool at every time of a run. -/
structure Steady (p : Problem ω S M) (rules : Rules S M) (states : List S)
    (pool : Pool ω S M F ρ) : Prop where
  orderly : pool.Orderly
  carries : pool.Carries p rules (fun n => n.state ∈ states) .whenGenerated
  shaped : ∀ w ∈ pool.workers, w.phase.Shaped

omit [LawfulFrontier F (Node S M)] in
theorem forall_shaped_of_step (hplain : p.Plain) (h : ∀ w ∈ pool.workers, w.phase.Shaped)
    (hs : pool.step p .whenGenerated actor = some next) : ∀ w ∈ next.workers, w.phase.Shaped := by
  obtain ⟨shared, workers, waiting⟩ := pool
  rcases step_cases hs with ⟨before, w, after, w', shared', rfl, hw, hacts, rfl⟩ |
    ⟨waiting', shared', rfl, hwaits, rfl⟩ | ⟨rfl, rfl⟩
  · obtain rfl : workers = _ := hw
    refine forall_mem_replace h (fun _ h => h) ?_
    have hshaped := h w (by simp)
    generalize w.phase = phase at hacts hshaped
    cases hacts with
    | @task n stage progress shared'' ht =>
      have := Stage.Shaped.step hplain hshaped n shared
      rwa [ht] at this
    | @completed n children exhausted queue coin' hc => cases exhausted <;> trivial
    | _ => trivial
  · exact h
  · exact h

theorem Steady.step (hp : p.Respects rules) (hplain : p.Plain)
    (hclosed : ∀ s ∈ states, ∀ m t, rules.IsLegal s m → rules.applyMove s m = .ok t → t ∈ states)
    (h : pool.Steady p rules states) (hs : pool.step p .whenGenerated actor = some next) :
    next.Steady p rules states :=
  ⟨h.orderly.step hs, h.carries.step hp (inherited_mem hclosed p _) hs,
    forall_shaped_of_step hplain h.shaped hs⟩

omit [Coin ρ] in
theorem IsFresh.steady {root : Node S M} (h : pool.IsFresh root) (hroot : root.state ∈ states) :
    pool.Steady p rules states := by
  refine ⟨h.orderly, h.carries hroot, fun w hw => ?_⟩
  rw [h.idle w hw]
  trivial

theorem effort_of_step (hp : p.Respects rules) (hplain : p.Plain) (h : pool.Steady p rules states)
    (hclosed : ∀ s ∈ states, ∀ m t, rules.IsLegal s m → rules.applyMove s m = .ok t → t ∈ states)
    (hs : pool.step p .whenGenerated actor = some next) :
    next.effort rules states < pool.effort rules states ∨
      (∀ index, actor ≠ .worker index) ∧ next.workers = pool.workers ∧
        next.effort rules states = pool.effort rules states := by
  obtain ⟨shared, workers, waiting⟩ := pool
  rcases step_cases hs with ⟨before, w, after, w', shared', rfl, hw, hacts, rfl⟩ |
    ⟨waiting', shared', rfl, hwaits, rfl⟩ | ⟨rfl, rfl⟩
  · obtain rfl : workers = _ := hw
    left
    exact effort_lt_of_acts hp hplain h.orderly.sound (h.shaped w (by simp))
      (h.carries.workers w (by simp)) hclosed hacts
  · right
    cases hwaits <;> exact ⟨nofun, rfl, rfl⟩
  · exact .inr ⟨nofun, rfl, rfl⟩

/-! ### How a pool comes to rest -/

omit [Coin ρ] in
/-- A worker does not have to wait for a node when nobody is busy. -/
theorem Orderly.not_blocked (h : pool.Orderly) (hheld : held pool.workers = []) :
    pool.shared.queue.take pool.shared.stopped ≠ (.blocked : Taking F (Node S M)) := by
  intro hb
  rw [WorkQueue.take_eq_blocked_iff] at hb
  have hflight : pool.shared.queue.inFlight = 0 := by
    rw [h.inFlight, hheld]
    rfl
  have hopen : pool.shared.queue.closed = false := by
    unfold WorkQueue.isBlocked at hb
    simp only [Bool.not_eq_true', Bool.or_eq_false_iff] at hb
    exact hb.1.1
  rcases h.isOpen hopen with hne | hne
  · exact hne (WorkQueue.nodes_of_isBlocked hb hflight)
  · exact hne hheld

omit [LawfulFrontier F (Node S M)] in
theorem resting_of_step_eq_none {claiming : Claiming} {index : Nat} (hw : pool.workers[index]? = some w)
    (hs : pool.step p claiming (.worker index) = none) :
    w.phase = .idle ∧ pool.shared.queue.take pool.shared.stopped = (.blocked : Taking F (Node S M)) ∨
      Phase.isOver w.phase = true := by
  obtain ⟨shared, workers, waiting⟩ := pool
  have hnone : stepWorker p claiming index w shared = none := by
    cases hstep : stepWorker p claiming index w shared with
    | none => rfl
    | some result => simp [step, show workers[index]? = some w from hw, hstep] at hs
  obtain ⟨phase, coin⟩ := w
  cases phase with
  | idle =>
    refine .inl ⟨rfl, ?_⟩
    simp only [stepWorker] at hnone
    split at hnone
    · cases hnone
    · assumption
    · cases hnone
  | ended | broken => exact .inr rfl
  | complete n children =>
    simp only [stepWorker] at hnone
    split at hnone <;> cases hnone
  | _ => cases hnone

omit [Coin ρ] in
theorem Orderly.ended_of_over (h : pool.Orderly) (hw : w ∈ pool.workers)
    (hover : Phase.isOver w.phase = true) : w.phase = .ended := by
  cases hph : w.phase <;> rw [hph] at hover
  case broken n error => exact absurd hph (h.unbroken w hw n error)
  all_goals cases hover

omit [Coin ρ] in
/-- When all workers have gone home, there is an outcome, unless the search is stopped. -/
theorem Orderly.resolved_of_over (h : pool.Orderly) (hne : pool.workers ≠ [])
    (hover : ∀ w ∈ pool.workers, Phase.isOver w.phase = true) :
    pool.shared.stopped = true ∨ ∃ outcome, pool.shared.slot.resolution? = some outcome := by
  obtain ⟨w, hw⟩ := List.exists_mem_of_ne_nil _ hne
  rcases h.ended w hw (h.ended_of_over hw (hover w hw)) with hclosed | hstop
  · rcases h.closed hclosed with hstop | hslot | ⟨v, hv, he⟩
    · exact .inl hstop
    · right
      unfold Slot.resolution?
      split
      · exact absurd ‹_› hslot
      · exact ⟨_, rfl⟩
      · exact ⟨_, rfl⟩
    · have hvover := hover v hv
      rw [he] at hvover
      cases hvover
  · exact .inl hstop

/-- A bound on the steps of the one who waits, once there is an outcome or the search is stopped. -/
def patience (pool : Pool ω S M F ρ) : Nat :=
  match pool.waiting with
  | .ended _ => 0
  | .close _ => 1
  | .lookAtStop => if pool.shared.stopped then 2 else 3
  | .poll => if pool.shared.slot.resolution?.isSome then 2 else 3

omit [LawfulFrontier F (Node S M)] in
theorem patience_of_step {claiming : Claiming}
    (hover : ∀ w ∈ pool.workers, Phase.isOver w.phase = true)
    (hresolved : pool.shared.stopped = true ∨ ∃ outcome, pool.shared.slot.resolution? = some outcome)
    (hs : pool.step p claiming actor = some next) :
    actor = .waiter ∧ next.patience < pool.patience ∨
      actor = .outsider ∧ next.patience ≤ pool.patience := by
  obtain ⟨shared, workers, waiting⟩ := pool
  rcases step_cases hs with ⟨before, w, after, w', shared', rfl, hw, hacts, rfl⟩ |
    ⟨waiting', shared', rfl, hwaits, rfl⟩ | ⟨rfl, rfl⟩
  · have hwover := hover w (by rw [show workers = _ from hw]; simp)
    generalize w.phase = phase at hacts hwover
    cases hacts <;> cases hwover
  · refine .inl ⟨rfl, ?_⟩
    cases hwaits with
    | resolved hr => simp [patience, hr]
    | unresolved hnone =>
      have hstop : shared.stopped = true := by
        rcases hresolved with hstop | ⟨outcome, ho⟩
        · exact hstop
        · cases hnone.symm.trans ho
      simp only at hnone
      simp [patience, hnone, hstop]
    | stopped hstop =>
      simp only at hstop
      simp [patience, hstop]
    | unstopped hstop =>
      obtain ⟨outcome, ho⟩ := hresolved.resolve_left (by rw [hstop]; nofun)
      simp only at hstop ho
      simp [patience, hstop, ho]
    | closed => exact Nat.lt_succ_self 0
  · refine .inr ⟨rfl, ?_⟩
    cases waiting with
    | lookAtStop => simp only [patience, if_true]; split <;> omega
    | _ => exact Nat.le_refl _

omit [LawfulFrontier F (Node S M)] in
theorem ended_of_step_eq_none {claiming : Claiming} (h : pool.step p claiming .waiter = none) :
    ∃ goal, pool.waiting = .ended goal := by
  obtain ⟨shared, workers, waiting⟩ := pool
  cases waiting with
  | ended goal => exact ⟨goal, rfl⟩
  | poll =>
    simp only [step, stepWaiting] at h
    split at h <;> cases h
  | _ => cases h

/-! ### Fair runs -/

/-- The pool after the first `k` turns of a schedule. -/
def played (p : Problem ω S M) (claiming : Claiming) (pool : Pool ω S M F ρ)
    (schedule : Nat → Actor) (k : Nat) : Pool ω S M F ρ :=
  pool.follow p claiming ((List.range k).map schedule)

omit [LawfulFrontier F (Node S M)] in
theorem played_succ (p : Problem ω S M) (claiming : Claiming) (pool : Pool ω S M F ρ)
    (schedule : Nat → Actor) (k : Nat) :
    pool.played p claiming schedule (k + 1) =
      ((pool.played p claiming schedule k).step p claiming (schedule k)).getD
        (pool.played p claiming schedule k) := by
  unfold played
  rw [List.range_succ, List.map_append, follow_append]
  rfl

omit [LawfulFrontier F (Node S M)] in
/-- The actor whose turn it is takes a step, or has nothing to do. -/
theorem played_succ_ind {p : Problem ω S M} {claiming : Claiming} {schedule : Nat → Actor} {k : Nat}
    {P : Pool ω S M F ρ → Prop} (hstay : P (pool.played p claiming schedule k))
    (hstep : ∀ next, (pool.played p claiming schedule k).step p claiming (schedule k) = some next →
      P next) : P (pool.played p claiming schedule (k + 1)) := by
  rw [played_succ]
  cases hs : (pool.played p claiming schedule k).step p claiming (schedule k) with
  | none => exact hstay
  | some next => exact hstep next hs

omit [LawfulFrontier F (Node S M)] in
theorem length_played (p : Problem ω S M) (claiming : Claiming) (pool : Pool ω S M F ρ)
    (schedule : Nat → Actor) (k : Nat) :
    (pool.played p claiming schedule k).workers.length = pool.workers.length :=
  length_follow _

/-- Every worker, and the one who waits, has a turn again and again. -/
structure Fair (workers : Nat) (schedule : Nat → Actor) : Prop where
  worker : ∀ index < workers, ∀ k, ∃ l ≥ k, schedule l = .worker index
  waiter : ∀ k, ∃ l ≥ k, schedule l = .waiter

variable {schedule : Nat → Actor}

/-- What never grows stays the same from some time on. -/
theorem exists_forall_ge_eq (f : Nat → Nat) (k : Nat) (hf : ∀ l ≥ k, f (l + 1) ≤ f l) :
    ∃ l ≥ k, ∀ m ≥ l, f m = f l := by
  obtain ⟨_, ⟨l, hl, rfl⟩, hmin⟩ :=
    WellFounded.has_min Nat.lt_wfRel.wf (f '' {l | k ≤ l}) ⟨f k, k, Nat.le_refl k, rfl⟩
  refine ⟨l, hl, fun m hm => ?_⟩
  induction m, hm using Nat.le_induction with
  | base => rfl
  | succ m hm ih =>
    refine Nat.le_antisymm (ih ▸ hf m (Nat.le_trans hl hm)) (Nat.not_lt.1 (hmin _ ⟨m + 1, ?_, rfl⟩))
    exact Nat.le_succ_of_le (Nat.le_trans hl hm)

/-- When all workers have gone home, the one who waits finds the outcome. -/
theorem exists_outcome_of_over {claiming : Claiming} (hne : pool.workers ≠ [])
    (horderly : ∀ l, (pool.played p claiming schedule l).Orderly) {k : Nat}
    (hover : ∀ l ≥ k, ∀ w ∈ (pool.played p claiming schedule l).workers, Phase.isOver w.phase = true)
    (hwaiter : ∀ k, ∃ l ≥ k, schedule l = .waiter) :
    ∃ k goal, (pool.played p claiming schedule k).outcome? = some goal := by
  have hresolved : ∀ l ≥ k, (pool.played p claiming schedule l).shared.stopped = true ∨
      ∃ outcome, (pool.played p claiming schedule l).shared.slot.resolution? = some outcome := by
    intro l hl
    refine (horderly l).resolved_of_over (fun hnil => hne ?_) (hover l hl)
    rw [← List.length_eq_zero_iff, ← length_played p claiming pool schedule l, hnil]
    rfl
  have hstep : ∀ l ≥ k, ∀ next,
      (pool.played p claiming schedule l).step p claiming (schedule l) = some next →
      schedule l = .waiter ∧ next.patience < (pool.played p claiming schedule l).patience ∨
        schedule l = .outsider ∧ next.patience ≤ (pool.played p claiming schedule l).patience :=
    fun l hl next hs => patience_of_step (hover l hl) (hresolved l hl) hs
  have hle : ∀ l ≥ k, (pool.played p claiming schedule (l + 1)).patience ≤
      (pool.played p claiming schedule l).patience := by
    intro l hl
    refine played_succ_ind (P := fun next => next.patience ≤ _) (Nat.le_refl _) fun next hs => ?_
    rcases hstep l hl next hs with ⟨-, hlt⟩ | ⟨-, hle⟩
    · exact Nat.le_of_lt hlt
    · exact hle
  obtain ⟨m, hm, hsame⟩ :=
    exists_forall_ge_eq (fun l => (pool.played p claiming schedule l).patience) k hle
  obtain ⟨l, hl, hturn⟩ := hwaiter m
  have hkl := Nat.le_trans hm hl
  refine ⟨l, ?_⟩
  cases hs : (pool.played p claiming schedule l).step p claiming (schedule l) with
  | none =>
    obtain ⟨goal, hgoal⟩ := ended_of_step_eq_none (hturn ▸ hs)
    refine ⟨goal, ?_⟩
    unfold outcome?
    rw [hgoal]
    exact if_pos (List.all_eq_true.2 (hover l hkl))
  | some next =>
    -- A step would use up patience, and none of it is used up any more.
    have hnext := (hsame (l + 1) (Nat.le_succ_of_le hl)).trans (hsame l hl).symm
    rw [played_succ, hs] at hnext
    rcases hstep l hkl next hs with ⟨-, hlt⟩ | ⟨houtsider, -⟩
    · exact absurd hnext (Nat.ne_of_lt hlt)
    · cases hturn.symm.trans houtsider

section

/-! In what follows, every step of a worker brings `effort` down, and nobody else changes it or touches the
workers. -/

variable {claiming : Claiming} {effort : Pool ω S M F ρ → Nat}
  (hstep : ∀ k next, (pool.played p claiming schedule k).step p claiming (schedule k) = some next →
    effort next < effort (pool.played p claiming schedule k) ∨
      (∀ index, schedule k ≠ .worker index) ∧
        next.workers = (pool.played p claiming schedule k).workers ∧
          effort next = effort (pool.played p claiming schedule k))
include hstep

omit [LawfulFrontier F (Node S M)] in
/-- From some time on no worker takes a step. -/
theorem exists_quiet : ∃ k, ∀ l ≥ k,
    (pool.played p claiming schedule l).workers = (pool.played p claiming schedule k).workers ∧
    ∀ index, schedule l = .worker index →
      (pool.played p claiming schedule l).step p claiming (.worker index) = none := by
  have hle : ∀ l ≥ 0, effort (pool.played p claiming schedule (l + 1)) ≤
      effort (pool.played p claiming schedule l) := by
    intro l _
    refine played_succ_ind (P := fun next => effort next ≤ _) (Nat.le_refl _) fun next hs => ?_
    rcases hstep l next hs with hlt | ⟨-, -, heq⟩
    · exact Nat.le_of_lt hlt
    · exact Nat.le_of_eq heq
  obtain ⟨k, -, hk⟩ :=
    exists_forall_ge_eq (fun l => effort (pool.played p claiming schedule l)) 0 hle
  have hnext : ∀ l ≥ k, ∀ next,
      (pool.played p claiming schedule l).step p claiming (schedule l) = some next →
      (∀ index, schedule l ≠ .worker index) ∧
        next.workers = (pool.played p claiming schedule l).workers := by
    intro l hl next hs
    have hsame := (hk (l + 1) (Nat.le_succ_of_le hl)).trans (hk l hl).symm
    rw [played_succ, hs] at hsame
    rcases hstep l next hs with hlt | ⟨hactor, hworkers, -⟩
    · exact absurd hsame (Nat.ne_of_lt hlt)
    · exact ⟨hactor, hworkers⟩
  refine ⟨k, fun l hl => ⟨?_, fun index hindex => ?_⟩⟩
  · induction l, hl using Nat.le_induction with
    | base => rfl
    | succ l hl ih => exact played_succ_ind ih fun next hs => (hnext l hl next hs).2.trans ih
  · cases hs : (pool.played p claiming schedule l).step p claiming (.worker index) with
    | none => rfl
    | some next => exact absurd hindex ((hnext l hl next (hindex ▸ hs)).1 index)

variable (horderly : ∀ k, (pool.played p claiming schedule k).Orderly)
include horderly

/-- From some time on all workers have gone home. -/
theorem exists_over (hfair : Fair pool.workers.length schedule) : ∃ k, ∀ l ≥ k,
    ∀ w ∈ (pool.played p claiming schedule l).workers, Phase.isOver w.phase = true := by
  obtain ⟨k, hk⟩ := exists_quiet hstep
  -- Everybody has a turn after `k`, and it comes to nothing.
  have hresting : ∀ w ∈ (pool.played p claiming schedule k).workers, w.phase = .idle ∧
      (∃ l ≥ k, (pool.played p claiming schedule l).shared.queue.take
        (pool.played p claiming schedule l).shared.stopped = (.blocked : Taking F (Node S M))) ∨
          Phase.isOver w.phase = true := by
    intro w hw
    obtain ⟨index, hlt, rfl⟩ := List.mem_iff_getElem.1 hw
    obtain ⟨l, hl, hturn⟩ :=
      hfair.worker index (length_played p claiming pool schedule k ▸ hlt) k
    have hget : (pool.played p claiming schedule l).workers[index]? =
        some (pool.played p claiming schedule k).workers[index] := by
      rw [(hk l hl).1]
      exact List.getElem?_eq_getElem hlt
    rcases resting_of_step_eq_none hget ((hk l hl).2 index hturn) with ⟨hidle, hblocked⟩ | hover
    · exact .inl ⟨hidle, l, hl, hblocked⟩
    · exact .inr hover
  -- So nobody is busy from `k` on, and then nobody has to wait for a node.
  have hheld : held (pool.played p claiming schedule k).workers = [] := by
    rw [List.eq_nil_iff_forall_not_mem]
    intro n hn
    obtain ⟨w, hw, hn⟩ := mem_held.1 hn
    rcases hresting w hw with ⟨hidle, -⟩ | hover
    · rw [hidle] at hn
      cases hn
    · rw [(horderly k).ended_of_over hw hover] at hn
      cases hn
  refine ⟨k, fun l hl w hw => ?_⟩
  rw [(hk l hl).1] at hw
  rcases hresting w hw with ⟨-, m, hm, hblocked⟩ | hover
  · exact absurd hblocked ((horderly m).not_blocked ((hk m hm).1 ▸ hheld))
  · exact hover

/-- However the turns are dealt out, if everybody has them again and again then the pool ends. -/
theorem exists_outcome_of_fair (hne : pool.workers ≠ [])
    (hfair : Fair pool.workers.length schedule) :
    ∃ k goal, (pool.played p claiming schedule k).outcome? = some goal := by
  obtain ⟨k, hover⟩ := exists_over hstep horderly hfair
  exact exists_outcome_of_over hne horderly hover hfair.waiter

end

/-- A pool whose workers claim states when they generate them ends, if the states that can be reached from
the first one are among finitely many. -/
theorem IsFresh.exists_outcome {root : Node S M} (hp : p.Respects rules) (hplain : p.Plain)
    (hclosed : ∀ s ∈ states, ∀ m t, rules.IsLegal s m → rules.applyMove s m = .ok t → t ∈ states)
    (h : pool.IsFresh root) (hroot : root.state ∈ states) (hne : pool.workers ≠ [])
    (hfair : Fair pool.workers.length schedule) :
    ∃ k goal, (pool.played p .whenGenerated schedule k).outcome? = some goal := by
  have hsteady : ∀ k, (pool.played p .whenGenerated schedule k).Steady p rules states := fun k =>
    follow_induction (fun _ _ _ h hs => h.step hp hplain hclosed hs) (h.steady hroot) _
  exact exists_outcome_of_fair (fun k _ hs => effort_of_step hp hplain (hsteady k) hclosed hs)
    (fun k => (hsteady k).orderly) hne hfair

end Pool

end StateSearch
