import StateSearch.Proofs.Pool.Runs
import StateSearch.Proofs.Pool.Tasks
import StateSearch.Proofs.Replay

/-!
# The nodes of a pool

A property of nodes that passes from each node to the children which legal moves make of it
(`Inherited`) holds of every node that a pool carries, if it holds of the first one (`Carries.follow`),
whatever the order of the steps and whatever the problem does about seen states. So all nodes are genuine,
and what a pool finds leads to a solution (`Carries.of_outcome?`).
-/

namespace StateSearch

open StateSearch.Random

variable {ω S M F ρ : Type} {rules : Rules S M} {I : Node S M → Prop} {p : Problem ω S M}
  {claiming : Claiming} {n : Node S M}

/-- A task on `n` makes `c` by a legal move. Tasks that claim states when they are generated give their
nodes no estimate. -/
def IsChild (p : Problem ω S M) (rules : Rules S M) (claiming : Claiming) (n c : Node S M) : Prop :=
  ∃ m t step h, rules.Step n.state m t step ∧ (match claiming with
    | .whenGenerated => h = 0
    | .whenTaken => ∃ world, (p.heuristic t world).result = .ok h) ∧ c = n.child t m step h

/-- `I` passes on to children. -/
def Inherited (p : Problem ω S M) (rules : Rules S M) (claiming : Claiming) (I : Node S M → Prop) :
    Prop :=
  ∀ n c, IsChild p rules claiming n c → I n → I c

theorem inherited_genuine (p : Problem ω S M) (rules : Rules S M) (claiming : Claiming) :
    Inherited p rules claiming (Node.Genuine rules) := by
  rintro n c ⟨m, t, step, h, hstep, -, rfl⟩ hn
  exact hn.child hstep h

theorem IsChild.reached {c : Node S M} (h : IsChild p rules claiming n c) :
    ∃ m, rules.IsLegal n.state m ∧ rules.applyMove n.state m = .ok c.state := by
  obtain ⟨m, t, step, remaining, hstep, -, rfl⟩ := h
  exact ⟨m, hstep.legal, hstep.apply⟩

theorem inherited_mem {states : List S}
    (hclosed : ∀ s ∈ states, ∀ m t, rules.IsLegal s m → rules.applyMove s m = .ok t → t ∈ states)
    (p : Problem ω S M) (claiming : Claiming) : Inherited p rules claiming fun n => n.state ∈ states := by
  intro n c hc hn
  obtain ⟨m, hlegal, happly⟩ := hc.reached
  exact hclosed _ hn _ _ hlegal happly

theorem IsChild.eq_successor {p : PureProblem S M} {c : Node S M}
    (h : IsChild (p.toProblem : Problem ω S M) p.rules .whenTaken n c) :
    ∃ m ∈ p.legalMoves n.state, c = p.successor n m := by
  obtain ⟨m, t, step, remaining, hstep, ⟨world, hr⟩, rfl⟩ := h
  obtain ⟨hm, rfl, rfl⟩ := PureProblem.step_rules_iff.1 hstep
  cases hr
  exact ⟨m, hm, rfl⟩

theorem inherited_fair (p : PureProblem S M) :
    Inherited (p.toProblem : Problem ω S M) p.rules .whenTaken (Node.Fair p) := by
  intro n c hc hn
  obtain ⟨m, hm, rfl⟩ := hc.eq_successor
  exact hn.successor hm

structure Sweep.Carries (p : Problem ω S M) (rules : Rules S M) (claiming : Claiming)
    (n : Node S M) (sweep : Sweep S M) : Prop where
  rest : ∀ m ∈ sweep.rest, rules.IsLegal n.state m
  children : ∀ c ∈ sweep.children, IsChild p rules claiming n c

/-- What a task on `n` has found so far is what the rules say. -/
def Stage.Carries (p : Problem ω S M) (rules : Rules S M) (claiming : Claiming) (n : Node S M) :
    Stage S M → Prop
  | claim | claimBy _ | drop | count | test _ | list _ => True
  | lookAtFlag sweep m | lookAtStop sweep m | apply sweep m =>
    sweep.Carries p rules claiming n ∧ rules.IsLegal n.state m
  | generate sweep m t | screen sweep m t | screenBy sweep m t _ | price sweep m t =>
    sweep.Carries p rules claiming n ∧ rules.IsLegal n.state m ∧ rules.applyMove n.state m = .ok t
  | estimate sweep m t c =>
    claiming = .whenTaken ∧ sweep.Carries p rules claiming n ∧ rules.Step n.state m t c
  | discard sweep | report sweep => sweep.Carries p rules claiming n

def Progress.Carries (p : Problem ω S M) (rules : Rules S M) (claiming : Claiming) (n : Node S M) :
    Progress S M → Prop
  | onward stage => stage.Carries p rules claiming n
  | goal => rules.isGoal n.state = .ok true
  | children nodes => ∀ c ∈ nodes, IsChild p rules claiming n c
  | skipped | failed _ => True

theorem Sweep.Carries.next {sweep : Sweep S M} (h : sweep.Carries p rules claiming n) :
    sweep.next.Carries p rules claiming n := by
  obtain ⟨tries, rest, children⟩ := sweep
  cases rest with
  | nil => exact h
  | cons m rest =>
    exact ⟨⟨fun m' hm' => h.rest m' (List.mem_cons_of_mem _ hm'), h.children⟩,
      h.rest m (List.mem_cons_self ..)⟩

theorem Sweep.Carries.add {sweep : Sweep S M} {c : Node S M} (h : sweep.Carries p rules claiming n)
    (hc : IsChild p rules claiming n c) :
    (sweep.add c).Carries p rules claiming n :=
  ⟨h.rest, List.forall_mem_cons.2 ⟨hc, h.children⟩⟩

variable [DecidableEq S] [Hashable S]

theorem Stage.Carries.step {stage : Stage S M} (hp : p.Respects rules)
    (h : stage.Carries p rules claiming n) (shared : Shared ω S M F) :
    (stage.step p claiming n shared).1.Carries p rules claiming n := by
  let P : Progress S M × Shared ω S M F → Prop := fun result => result.1.Carries p rules claiming n
  cases stage with
  | claim => exact calling_ind P (fun _ _ => trivial) fun _ _ => trivial
  | claimBy query =>
    cases query with
    | answer known => cases known <;> trivial
    | _ => trivial
  | drop => trivial
  | count => trivial
  | test tries =>
    refine calling_ind P (fun reached hr => ?_) fun _ _ => trivial
    cases reached with
    | true => exact hp.isGoal hr
    | false => trivial
  | list tries =>
    refine calling_ind P (fun moves hr => ?_) fun _ _ => trivial
    exact Sweep.Carries.next ⟨fun m hm => ⟨moves, hp.legalMoves hr, hm⟩, by simp⟩
  | lookAtFlag sweep m =>
    simp only [Stage.step]
    split
    · exact h.1
    · exact h
  | lookAtStop sweep m =>
    simp only [Stage.step]
    split
    · exact h.1
    · exact h
  | apply sweep m => exact calling_ind P (fun t hr => ⟨h.1, h.2, hp.applyMove hr⟩) fun _ _ => trivial
  | generate sweep m t => cases claiming <;> exact h
  | screen sweep m t => exact calling_ind P (fun _ _ => h) fun _ _ => trivial
  | screenBy sweep m t query =>
    cases query with
    | answer known =>
      cases known with
      | true => exact h.1
      | false => exact h
    | fail fault => trivial
    | insert s next => exact h
    | contains s next => exact h
    | size next => exact h
  | discard sweep => exact h.next
  | price sweep m t =>
    refine calling_ind P (fun c hr => ?_) fun _ _ => trivial
    have hstep : rules.Step n.state m t c := ⟨h.2.1, h.2.2, hp.moveCost hr⟩
    cases claiming with
    | whenGenerated => exact (h.1.add ⟨m, t, c, 0, hstep, rfl, rfl⟩).next
    | whenTaken => exact ⟨rfl, h.1, hstep⟩
  | estimate sweep m t c =>
    obtain ⟨rfl, hsweep, hstep⟩ := h
    refine calling_ind P (fun remaining hr => ?_) fun _ _ => trivial
    exact (hsweep.add ⟨m, t, c, remaining, hstep, ⟨_, hr⟩, rfl⟩).next
  | report sweep =>
    exact calling_ind P (fun _ _ c hc => h.children c (List.mem_reverse.1 hc)) fun _ _ => trivial

/-! ### Pools -/

/-- The nodes of a worker satisfy `I`. -/
def Phase.Carries (p : Problem ω S M) (rules : Rules S M) (I : Node S M → Prop)
    (claiming : Claiming) : Phase S M → Prop
  | working n stage => I n ∧ stage.Carries p rules claiming n
  | announce n | publish n => I n ∧ rules.isGoal n.state = .ok true
  | judgeFlag _ children | judgeStop _ children | complete _ children =>
    ∀ c ∈ children, I c
  | idle | close _ | blame .. | exhaust | ended | broken .. => True

namespace Pool

open LawfulFrontier

variable [Frontier F (Node S M)] [LawfulFrontier F (Node S M)] {pool next : Pool ω S M F ρ}
  {actor : Actor}

/-- All nodes of the pool satisfy `I`, and what it found are goals. -/
structure Carries (p : Problem ω S M) (rules : Rules S M) (I : Node S M → Prop)
    (claiming : Claiming) (pool : Pool ω S M F ρ) : Prop where
  sound : Sound pool.shared.queue.frontier
  queue : ∀ n ∈ nodes pool.shared.queue.frontier, I n
  workers : ∀ w ∈ pool.workers, w.phase.Carries p rules I claiming
  slot : ∀ n, pool.shared.slot.content = .assigned n → I n ∧ rules.isGoal n.state = .ok true
  waiting : ∀ n, pool.waiting = .close (some n) ∨ pool.waiting = .ended (some n) →
    I n ∧ rules.isGoal n.state = .ok true

theorem IsFresh.carries {root : Node S M} (h : pool.IsFresh root) (hr : I root) :
    pool.Carries p rules I claiming := by
  refine ⟨h.sound, fun n hn => ?_, fun w hw => ?_, fun n hn => ?_, ?_⟩
  · rw [h.nodes] at hn
    exact List.mem_singleton.1 hn ▸ hr
  · rw [h.idle w hw]
    trivial
  · rw [h.slot] at hn
    cases hn
  · rw [h.waiting]
    rintro n (hn | hn) <;> cases hn

theorem Carries.of_outcome? (h : pool.Carries p rules I claiming)
    (ho : pool.outcome? = some (some n)) : I n ∧ rules.isGoal n.state = .ok true :=
  h.waiting n (.inr (ended_of_outcome? ho).1)

variable [Coin ρ]

variable {shared shared' : Shared ω S M F} {waiting waiting' : Waiting S M}

theorem Carries.act (hp : p.Respects rules) (hI : Inherited p rules claiming I)
    {before after : List (Worker S M ρ)} {w w' : Worker S M ρ} {index : Nat}
    (h : Carries p rules I claiming ⟨shared, before ++ w :: after, waiting⟩)
    (hacts : Acts p claiming index shared w.coin w.phase w' shared') :
    Carries p rules I claiming ⟨shared', before ++ w' :: after, waiting⟩ := by
  have hothers := fun hb => forall_mem_replace (b := w') h.workers (fun _ h => h) hb
  have hw := h.workers w (by simp)
  obtain ⟨hsound, hqueue, -, hslot, hwaiting⟩ := h
  generalize hph : w.phase = phase at hacts hw
  cases hacts with
  | taken ht =>
    obtain ⟨-, -, frontier, hpop, rfl, -⟩ := WorkQueue.take_eq_taken ht
    have hmem := fun n' => (nodes_pop hsound hpop).mem_iff (a := n')
    refine ⟨sound_pop hsound hpop, fun n' hn' => ?_, hothers ?_, hslot, hwaiting⟩
    · exact hqueue n' ((hmem n').2 (List.mem_cons_of_mem _ hn'))
    · refine ⟨hqueue _ ((hmem _).2 (List.mem_cons_self ..)), ?_⟩
      cases claiming <;> trivial
  | @task n stage progress shared'' ht =>
    have hf := Stage.step_frame p claiming n shared stage
    have hg := hw.2.step hp shared
    rw [ht] at hf hg
    refine ⟨hf.queue ▸ hsound, hf.queue ▸ hqueue, hothers ?_, hf.slot ▸ hslot, hwaiting⟩
    cases progress with
    | onward | goal => exact ⟨hw.1, hg⟩
    | children nodes => exact fun c hc => hI n c (hg c hc) hw.1
    | skipped => exact List.forall_mem_nil _
    | failed => trivial
  | announced | kept => exact ⟨hsound, hqueue, hothers hw, hslot, hwaiting⟩
  | won =>
    refine ⟨hsound, hqueue, hothers trivial, fun n' hn' => ?_, hwaiting⟩
    cases hn'
    exact hw
  | tooLate | beaten | closed | forgone | blamed =>
    exact ⟨hsound, hqueue, hothers (List.forall_mem_nil _), hslot, hwaiting⟩
  | judged =>
    refine ⟨hsound, hqueue, hothers ?_, hslot, hwaiting⟩
    intro c hc
    split at hc
    · cases hc
    · exact hw c hc
  | @completed _ children exhausted _ _ hc =>
    obtain ⟨hsound', hnodes, -⟩ := WorkQueue.complete_eq_ok hsound hc
    refine ⟨hsound', fun n' hn' => ?_, hothers (by cases exhausted <;> trivial), hslot, hwaiting⟩
    rcases List.mem_append.1 (hnodes.mem_iff.1 hn') with hn' | hn'
    · exact hw n' hn'
    · exact hqueue n' hn'
  | refused | broke => exact ⟨hsound, hqueue, hothers trivial, hslot, hwaiting⟩
  | exhausted =>
    refine ⟨hsound, hqueue, hothers trivial, fun n' hn' => hslot n' ?_, hwaiting⟩
    simp only [Slot.markExhausted] at hn'
    split at hn'
    · cases hn'
    · exact hn'

omit [Coin ρ] in
/-- The one who waits gets its node from the slot. -/
theorem Carries.wait {workers : List (Worker S M ρ)}
    (h : Carries p rules I claiming ⟨shared, workers, waiting⟩)
    (hwaits : Waits shared waiting waiting' shared') :
    Carries p rules I claiming ⟨shared', workers, waiting'⟩ := by
  obtain ⟨hsound, hqueue, hworkers, hslot, hwaiting⟩ := h
  generalize hph : waiting = phase at hwaits
  cases hwaits with
  | resolved hr =>
    refine ⟨hsound, hqueue, hworkers, hslot, fun n' hn' => hslot n' ?_⟩
    rcases hn' with hn' | hn'
    · cases hn'
      unfold Slot.resolution? at hr
      split at hr <;> cases hr
      assumption
    · cases hn'
  | unresolved | stopped | unstopped =>
    exact ⟨hsound, hqueue, hworkers, hslot, by rintro n (h | h) <;> cases h⟩
  | closed =>
    refine ⟨hsound, hqueue, hworkers, hslot, fun n' hn' => hwaiting n' (.inl ?_)⟩
    rcases hn' with hn' | hn'
    · cases hn'
    · cases hn'
      exact hph

theorem Carries.step (hp : p.Respects rules) (hI : Inherited p rules claiming I)
    (h : pool.Carries p rules I claiming) (hs : pool.step p claiming actor = some next) :
    next.Carries p rules I claiming := by
  obtain ⟨shared, workers, waiting⟩ := pool
  rcases step_cases hs with ⟨before, w, after, w', shared', -, hw, hacts, rfl⟩ |
    ⟨waiting', shared', -, hwaits, rfl⟩ | ⟨-, rfl⟩
  · obtain rfl : workers = _ := hw
    exact h.act hp hI hacts
  · exact h.wait hwaits
  · exact ⟨h.sound, h.queue, h.workers, h.slot, h.waiting⟩

theorem Carries.follow (hp : p.Respects rules) (hI : Inherited p rules claiming I)
    (h : pool.Carries p rules I claiming) (actors : List Actor) :
    (pool.follow p claiming actors).Carries p rules I claiming :=
  follow_induction (fun _ _ _ h hs => h.step hp hI hs) h actors

end Pool

end StateSearch
