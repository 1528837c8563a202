import StateSearch.Proofs.Pool.Runs
import StateSearch.Proofs.Pool.Tasks

/-!
# The bookkeeping of a pool

The counts of the queue agree with what the workers do (`Orderly`): the nodes in flight are those that
workers hold, they all belong to one layer, and when none is in flight and none waits the queue is
closed. So the queue never finds its bookkeeping wrong, and it is closed only when the slot is resolved,
the search is stopped, or somebody is about to say that there will be no goal.
-/

namespace StateSearch

open StateSearch.Random LawfulFrontier

variable {ω S M F ρ : Type}

/-- The node that has been taken and not completed yet. -/
def Phase.node? : Phase S M → Option (Node S M)
  | working n _ | announce n | publish n | close n | judgeFlag n _ | judgeStop n _ | blame n _
  | complete n _ => some n
  | idle | exhaust | ended | broken .. => none

/-- Whether a worker found its task to be the last one, or found the bookkeeping wrong. -/
def Phase.isLast : Phase S M → Bool
  | exhaust | broken .. => true
  | _ => false

namespace Pool

/-- The nodes in flight. -/
def held (workers : List (Worker S M ρ)) : List (Node S M) :=
  workers.filterMap fun w => w.phase.node?

theorem mem_held {workers : List (Worker S M ρ)} {n : Node S M} :
    n ∈ held workers ↔ ∃ w ∈ workers, w.phase.node? = some n :=
  List.mem_filterMap

theorem held_replace (before after : List (Worker S M ρ)) (w : Worker S M ρ) :
    (held (before ++ w :: after)).Perm (w.phase.node?.toList ++ held (before ++ after)) := by
  unfold held
  simp only [List.filterMap_append, List.filterMap_cons]
  cases w.phase.node? with
  | none => exact .refl _
  | some n => exact List.perm_middle

variable [DecidableEq S] [Hashable S] [Frontier F (Node S M)] [LawfulFrontier F (Node S M)]
  {pool next : Pool ω S M F ρ}

omit [LawfulFrontier F (Node S M)] in
/-- What is in the slot stays there. -/
theorem Acts.slot_eq {p : Problem ω S M} {claiming : Claiming} [Coin ρ] {index : Nat}
    {shared shared' : Shared ω S M F} {coin : ρ} {phase : Phase S M} {w' : Worker S M ρ}
    (h : Acts p claiming index shared coin phase w' shared') (hs : shared.slot.content ≠ .pending) :
    shared'.slot = shared.slot := by
  cases h with
  | task ht => exact (Stage.frame_of_step_eq ht).slot
  | won hpending => exact absurd hpending hs
  | exhausted =>
    show shared.slot.markExhausted = shared.slot
    unfold Slot.markExhausted
    split
    · exact absurd ‹_› hs
    · rfl
  | _ => rfl

omit [LawfulFrontier F (Node S M)] in
/-- Nobody takes back the wish that the search should stop. -/
theorem stopped_of_step {p : Problem ω S M} {claiming : Claiming} [Coin ρ] {actor : Actor}
    (h : pool.step p claiming actor = some next) (hs : pool.shared.stopped = true) :
    next.shared.stopped = true := by
  rcases step_cases h with ⟨before, w, after, w', shared', -, -, hacts, rfl⟩ |
    ⟨waiting', shared', -, hwaits, rfl⟩ | ⟨-, rfl⟩
  · generalize w.phase = phase at hacts
    cases hacts with
    | task ht => exact (Stage.frame_of_step_eq ht).stopped hs
    | _ => exact hs
  · generalize pool.waiting = waiting at hwaits
    cases hwaits <;> exact hs
  · rfl

omit [LawfulFrontier F (Node S M)] in
theorem unstopped_of_step {p : Problem ω S M} {claiming : Claiming} [Coin ρ] {actor : Actor}
    (h : pool.step p claiming actor = some next) (hs : next.shared.stopped = false) :
    pool.shared.stopped = false := by
  rw [← Bool.not_eq_true]
  intro hstopped
  rw [stopped_of_step h hstopped] at hs
  cases hs

structure Orderly (pool : Pool ω S M F ρ) : Prop where
  sound : Sound pool.shared.queue.frontier
  inFlight : pool.shared.queue.inFlight = (held pool.workers).length
  outstanding : pool.shared.queue.outstanding =
    (nodes pool.shared.queue.frontier).length + pool.shared.queue.inFlight
  layer : ∀ n ∈ held pool.workers,
    Frontier.layerOf pool.shared.queue.frontier n = pool.shared.queue.layer
  unbroken : ∀ w ∈ pool.workers, ∀ n error, w.phase ≠ .broken n error
  /-- Nothing is left once somebody has found so. -/
  drained : pool.shared.slot.content = .exhausted ∨ (∃ w ∈ pool.workers, w.phase = .exhaust) →
    nodes pool.shared.queue.frontier = [] ∧ held pool.workers = []
  closed : pool.shared.queue.closed = true → pool.shared.stopped = true ∨
    pool.shared.slot.content ≠ .pending ∨ ∃ w ∈ pool.workers, w.phase = .exhaust
  /-- The queue does not stay open when nothing is left. -/
  isOpen : pool.shared.queue.closed = false →
    nodes pool.shared.queue.frontier ≠ [] ∨ held pool.workers ≠ []
  flag : pool.shared.slot.flag = true ↔ ∃ n, pool.shared.slot.content = .assigned n
  closing : ∀ w ∈ pool.workers, ∀ n, w.phase = .close n → pool.shared.slot.content ≠ .pending
  waiting : ∀ outcome, pool.waiting = .close outcome ∨ pool.waiting = .ended outcome →
    pool.shared.stopped = true ∨ pool.shared.slot.resolution? = some outcome
  /-- Nobody goes home before the queue is closed or the search is stopped. -/
  ended : ∀ w ∈ pool.workers, w.phase = .ended →
    pool.shared.queue.closed = true ∨ pool.shared.stopped = true

theorem IsFresh.orderly {root : Node S M} (h : pool.IsFresh root) : pool.Orderly := by
  have hheld : held pool.workers = [] := by
    refine List.filterMap_eq_nil_iff.2 fun w hw => ?_
    rw [h.idle w hw]
    rfl
  refine ⟨h.sound, ?_, ?_, ?_, ?_, ?_, ?_, ?_, ?_, ?_, ?_, ?_⟩
  · rw [h.inFlight, hheld]
    rfl
  · rw [h.outstanding, h.nodes, h.inFlight]
    rfl
  · rw [hheld]
    intro n hn
    cases hn
  · intro w hw n error
    rw [h.idle w hw]
    nofun
  · rintro (hs | ⟨w, hw, hs⟩)
    · rw [h.slot] at hs
      cases hs
    · rw [h.idle w hw] at hs
      cases hs
  · rw [h.closed]
    nofun
  · rw [h.nodes]
    exact fun _ => .inl (List.cons_ne_nil _ _)
  · rw [h.slot]
    exact ⟨nofun, nofun⟩
  · intro w hw n
    rw [h.idle w hw]
    nofun
  · rw [h.waiting]
    rintro outcome (hw | hw) <;> cases hw
  · intro w hw
    rw [h.idle w hw]
    nofun

namespace Orderly

variable {shared shared' : Shared ω S M F} {before after : List (Worker S M ρ)}
  {w w' : Worker S M ρ} {waiting : Waiting S M}

/-- A worker who goes on with the node it holds, or with none, changes no account. -/
theorem replace (h : Orderly ⟨shared, before ++ w :: after, waiting⟩)
    (hnode : w'.phase.node? = w.phase.node?) (hw : w.phase ≠ .exhaust)
    (hlast : w'.phase.isLast = false)
    (hclosing : ∀ n, w'.phase = .close n → shared.slot.content ≠ .pending)
    (hended : w'.phase = .ended → shared.queue.closed = true ∨ shared.stopped = true)
    (hqueue : shared'.queue = shared.queue)
    (hslot : shared'.slot = shared.slot) (hstopped : shared.stopped = true → shared'.stopped = true) :
    Orderly ⟨shared', before ++ w' :: after, waiting⟩ := by
  have hheld : held (before ++ w' :: after) = held (before ++ w :: after) := by
    unfold held
    simp only [List.filterMap_append, List.filterMap_cons, hnode]
  have hexhaust : (∃ v ∈ before ++ w' :: after, v.phase = .exhaust) ↔
      ∃ v ∈ before ++ w :: after, v.phase = .exhaust := by
    have hw' : w'.phase ≠ .exhaust := fun he => by rw [he] at hlast; cases hlast
    rw [exists_mem_middle, exists_mem_middle, or_iff_right hw, or_iff_right hw']
  refine ⟨hqueue ▸ h.sound, ?_, ?_, ?_, ?_, ?_, ?_, ?_, ?_, ?_, ?_, ?_⟩
  · simpa only [hqueue, hheld] using h.inFlight
  · simpa only [hqueue] using h.outstanding
  · simpa only [hqueue, hheld] using h.layer
  · refine forall_mem_replace h.unbroken (fun _ h => h) fun n error he => ?_
    rw [he] at hlast
    cases hlast
  · simpa only [hqueue, hheld, hslot, hexhaust] using h.drained
  · intro hc
    simp only [hqueue, hslot, hexhaust] at hc ⊢
    exact (h.closed hc).imp_left hstopped
  · simpa only [hqueue, hheld] using h.isOpen
  · simpa only [hslot] using h.flag
  · rw [hslot]
    exact forall_mem_replace h.closing (fun _ h => h) hclosing
  · intro outcome ho
    rw [hslot]
    exact (h.waiting outcome ho).imp_left hstopped
  · rw [hqueue]
    refine forall_mem_replace h.ended (fun v hv he => ?_) fun he => ?_
    · exact (hv he).imp_right hstopped
    · exact (hended he).imp_right hstopped

theorem taken (h : Orderly ⟨shared, before ++ w :: after, waiting⟩) (hw : w.phase = .idle)
    {n : Node S M} {stage : Stage S M} {queue : WorkQueue F} (hw' : w'.phase = .working n stage)
    (ht : shared.queue.take shared.stopped = .taken n queue) :
    Orderly ⟨{ shared with queue }, before ++ w' :: after, waiting⟩ := by
  obtain ⟨hopen, -, frontier, hpop, rfl, hgate⟩ := WorkQueue.take_eq_taken ht
  have hnodes := nodes_pop h.sound hpop
  have hlayer := layerOf_pop hpop
  have hheld : (held (before ++ w' :: after)).Perm (n :: held (before ++ w :: after)) := by
    refine (held_replace before after w').trans ?_
    rw [hw']
    refine List.Perm.cons n ((held_replace before after w).trans ?_).symm
    rw [hw]
    exact .refl _
  have hexhaust : ∀ {P : Prop}, P ∨ (∃ v ∈ before ++ w' :: after, v.phase = .exhaust) ↔
      P ∨ ∃ v ∈ before ++ w :: after, v.phase = .exhaust := by
    intro P
    rw [exists_mem_middle, exists_mem_middle, hw, hw']
    simp
  refine ⟨sound_pop h.sound hpop, ?_, ?_, ?_, ?_, ?_, ?_, ?_, h.flag, ?_, h.waiting, ?_⟩
  · rw [hheld.length_eq, List.length_cons, ← h.inFlight]
  · have := h.outstanding
    have hlength := hnodes.length_eq
    simp only [List.length_cons] at this hlength ⊢
    omega
  · intro n' hn'
    simp only [hlayer]
    rcases List.mem_cons.1 (hheld.mem_iff.1 hn') with rfl | hn'
    · rfl
    · have hn'' := h.layer n' hn'
      simp only at hn''
      rcases hgate with hzero | hgate
      · rw [h.inFlight, List.length_eq_zero_iff] at hzero
        simp only [hzero] at hn'
        cases hn'
      · exact WorkQueue.layerOf_eq_of_gate hn'' hgate
  · refine forall_mem_replace h.unbroken (fun _ h => h) fun n error => ?_
    rw [hw']
    nofun
  · intro hd
    rw [hexhaust] at hd
    have := (h.drained hd).1
    simp only at this
    rw [this] at hnodes
    exact absurd hnodes.symm (by simp)
  · intro hc
    exact absurd (hopen.symm.trans hc) nofun
  · intro _
    right
    intro he
    simp only at he
    rw [he] at hheld
    exact absurd hheld.symm (by simp)
  · refine forall_mem_replace h.closing (fun _ h => h) fun n => ?_
    rw [hw']
    nofun
  · refine forall_mem_replace h.ended (fun _ h => h) ?_
    rw [hw']
    nofun

theorem completed (h : Orderly ⟨shared, before ++ w :: after, waiting⟩) [Coin ρ]
    {n : Node S M} {children : List (Node S M)} {exhausted : Bool} {queue : WorkQueue F}
    {coin coin' : ρ} (hw : w.phase = .complete n children)
    (hw' : w'.phase = if exhausted then .exhaust else .idle)
    (hc : shared.queue.complete children coin = .ok (exhausted, queue, coin')) :
    Orderly ⟨{ shared with queue }, before ++ w' :: after, waiting⟩ := by
  have hs : Sound shared.queue.frontier := h.sound
  obtain ⟨hsound, -, hflight, hout, hlayer, hqlayer, hclosed, hexhausted⟩ :=
    WorkQueue.complete_eq_ok hs hc
  have hheld : (held (before ++ w :: after)).Perm (n :: held (before ++ w' :: after)) := by
    refine (held_replace before after w).trans ?_
    rw [hw]
    refine List.Perm.cons n ((held_replace before after w').trans ?_).symm
    rw [hw']
    cases exhausted <;> exact .refl _
  have hlength := hheld.length_eq
  have hcount := h.inFlight
  simp only [List.length_cons] at hlength hcount
  -- The worker who completes its task is proof that the queue was not drained before.
  have hothers : ¬ (shared.slot.content = .exhausted ∨
      ∃ v ∈ before ++ w :: after, v.phase = .exhaust) := by
    intro hd
    have := (h.drained hd).2
    simp only at this
    rw [this] at hheld
    exact absurd hheld (by simp)
  rw [not_or, exists_mem_middle, not_or] at hothers
  refine ⟨hsound, by simp only; omega, hout, ?_, ?_, ?_, ?_, ?_, h.flag, ?_, h.waiting, ?_⟩
  · intro n' hn'
    have := h.layer n' (hheld.mem_iff.2 (List.mem_cons_of_mem _ hn'))
    simp only [hlayer, hqlayer] at this ⊢
    have hpos := List.length_pos_of_mem hn'
    simp only at hpos
    rw [if_neg (by omega), this]
  · refine forall_mem_replace h.unbroken (fun _ h => h) fun n error => ?_
    rw [hw']
    cases exhausted <;> nofun
  · rintro (hd | hd)
    · exact absurd hd hothers.1
    · rw [exists_mem_middle, hw'] at hd
      rcases hd with hd | hd
      · cases exhausted with
        | false => cases hd
        | true =>
          obtain ⟨hnil, hzero⟩ := hexhausted.1 rfl
          exact ⟨hnil, List.length_eq_zero_iff.1 (by simp only; omega)⟩
      · exact absurd hd hothers.2.2
  · intro hcl
    simp only [hclosed, Bool.or_eq_true] at hcl
    rw [exists_mem_middle, hw']
    rcases hcl with hcl | rfl
    · rcases h.closed hcl with hs | hs | hs
      · exact .inl hs
      · exact .inr (.inl hs)
      · rw [exists_mem_middle] at hs
        exact absurd (hs.resolve_left hothers.2.1) hothers.2.2
    · exact .inr (.inr (.inl rfl))
  · intro hcl
    simp only [hclosed, Bool.or_eq_false_iff] at hcl
    by_contra hnot
    rw [not_or, not_not, not_not] at hnot
    have hnil := congrArg List.length hnot.2
    simp only [List.length_nil] at hnil
    have := hexhausted.2 ⟨hnot.1, by omega⟩
    rw [hcl.2] at this
    cases this
  · refine forall_mem_replace h.closing (fun _ h => h) fun n => ?_
    rw [hw']
    cases exhausted <;> nofun
  · refine forall_mem_replace h.ended (fun v hv he => ?_) ?_
    · rw [hclosed, Bool.or_eq_true]
      exact (hv he).imp_left .inl
    · rw [hw']
      cases exhausted <;> nofun

/-- The queue may be closed once the slot is resolved or the search is stopped. -/
theorem close (h : Orderly ⟨shared, before, waiting⟩) {waiting' : Waiting S M}
    (hc : shared.stopped = true ∨ shared.slot.content ≠ .pending)
    (hwaiting : ∀ outcome, waiting' = .close outcome ∨ waiting' = .ended outcome →
      shared.stopped = true ∨ shared.slot.resolution? = some outcome) :
    Orderly ⟨{ shared with queue := shared.queue.close }, before, waiting'⟩ :=
  ⟨h.sound, h.inFlight, h.outstanding, h.layer, h.unbroken, h.drained,
    fun _ => hc.imp_right .inl, nofun, h.flag, h.closing, hwaiting, fun _ _ _ => .inl rfl⟩

theorem wait (h : Orderly ⟨shared, before, waiting⟩) {waiting' : Waiting S M}
    (hwaiting : ∀ outcome, waiting' = .close outcome ∨ waiting' = .ended outcome →
      shared.stopped = true ∨ shared.slot.resolution? = some outcome) :
    Orderly ⟨shared, before, waiting'⟩ :=
  ⟨h.sound, h.inFlight, h.outstanding, h.layer, h.unbroken, h.drained, h.closed, h.isOpen, h.flag,
    h.closing, hwaiting, h.ended⟩

theorem won (h : Orderly ⟨shared, before ++ w :: after, waiting⟩) {n : Node S M}
    (hw : w.phase = .publish n) (hw' : w'.phase = .close n) (hs : shared.slot.content = .pending) :
    Orderly ⟨{ shared with slot := ⟨.assigned n, true⟩ }, before ++ w' :: after, waiting⟩ := by
  have hheld : held (before ++ w' :: after) = held (before ++ w :: after) := by
    unfold held
    simp only [List.filterMap_append, List.filterMap_cons, hw, hw', Phase.node?]
  refine ⟨h.sound, hheld ▸ h.inFlight, h.outstanding, hheld ▸ h.layer, ?_, ?_, ?_, hheld ▸ h.isOpen,
    ?_, fun _ _ _ _ => nofun, ?_, ?_⟩
  · refine forall_mem_replace h.unbroken (fun _ h => h) fun n error => ?_
    rw [hw']
    nofun
  · rintro (hd | hd)
    · cases hd
    · rw [exists_mem_middle, hw'] at hd
      refine hheld ▸ h.drained (.inr ?_)
      rw [exists_mem_middle]
      exact .inr (hd.resolve_left nofun)
  · exact fun _ => .inr (.inl nofun)
  · exact ⟨fun _ => ⟨n, rfl⟩, fun _ => rfl⟩
  · intro outcome ho
    rcases h.waiting outcome ho with hstop | hr
    · exact .inl hstop
    · simp [Slot.resolution?, hs] at hr
  · refine forall_mem_replace h.ended (fun _ h => h) ?_
    rw [hw']
    nofun

theorem exhausted (h : Orderly ⟨shared, before ++ w :: after, waiting⟩)
    (hw : w.phase = .exhaust) (hw' : w'.phase = .idle) :
    Orderly ⟨{ shared with slot := shared.slot.markExhausted }, before ++ w' :: after, waiting⟩ := by
  have hdrained := h.drained (.inr ⟨w, by simp, hw⟩)
  have hheld : held (before ++ w' :: after) = held (before ++ w :: after) := by
    unfold held
    simp only [List.filterMap_append, List.filterMap_cons, hw, hw', Phase.node?]
  have hpending : shared.slot.markExhausted.content ≠ .pending := by
    unfold Slot.markExhausted
    split
    · nofun
    · assumption
  refine ⟨h.sound, hheld ▸ h.inFlight, h.outstanding, hheld ▸ h.layer, ?_, fun _ => hheld ▸ hdrained,
    fun _ => .inr (.inl hpending), hheld ▸ h.isOpen, ?_, fun _ _ _ _ => hpending, ?_, ?_⟩
  · refine forall_mem_replace h.unbroken (fun _ h => h) fun n error => ?_
    rw [hw']
    nofun
  · rw [show shared.slot.markExhausted.flag = shared.slot.flag by unfold Slot.markExhausted; split <;> rfl]
    refine h.flag.trans ⟨?_, ?_⟩
    · rintro ⟨n, hn⟩
      exact ⟨n, by unfold Slot.markExhausted; simp only at hn; simp [hn]⟩
    · rintro ⟨n, hn⟩
      refine ⟨n, ?_⟩
      unfold Slot.markExhausted at hn
      split at hn
      · cases hn
      · exact hn
  · intro outcome ho
    refine (h.waiting outcome ho).imp_right fun hr => ?_
    unfold Slot.markExhausted
    split
    · rename_i hp
      simp [Slot.resolution?, hp] at hr
    · exact hr
  · refine forall_mem_replace h.ended (fun _ h => h) ?_
    rw [hw']
    nofun

theorem step {p : Problem ω S M} {claiming : Claiming} [Coin ρ] {actor : Actor}
    (h : pool.Orderly) (hs : pool.step p claiming actor = some next) : next.Orderly := by
  obtain ⟨shared, workers, waiting⟩ := pool
  rcases step_cases hs with ⟨before, w, after, w', shared', -, hw, hacts, rfl⟩ |
    ⟨waiting', shared', -, hwaits, rfl⟩ | ⟨-, rfl⟩
  · obtain rfl : workers = _ := hw
    generalize hph : w.phase = phase at hacts
    cases hacts with
    | refused hr =>
      exact h.replace (by rw [hph]; rfl) (by rw [hph]; nofun) rfl nofun
        (fun _ => WorkQueue.take_eq_refused hr) rfl rfl id
    | taken ht => exact h.taken hph rfl ht
    | @task n stage progress shared'' ht =>
      have hf := Stage.frame_of_step_eq ht
      exact h.replace (by rw [hph]; cases progress <;> rfl) (by rw [hph]; nofun)
        (by cases progress <;> rfl) (by cases progress <;> nofun) (by cases progress <;> nofun)
        hf.queue hf.slot hf.stopped
    | tooLate | announced | beaten | forgone | kept | judged | blamed =>
      exact h.replace (by rw [hph]; rfl) (by rw [hph]; nofun) rfl nofun nofun rfl rfl id
    | won hpending => exact h.won hph rfl hpending
    | @closed n =>
      have h' : Orderly ⟨shared, before ++ ⟨.complete n [], w.coin⟩ :: after, waiting⟩ :=
        h.replace (by rw [hph]; rfl) (by rw [hph]; nofun) rfl nofun nofun rfl rfl id
      exact h'.close (.inr (h.closing w (by simp) n hph)) h.waiting
    | completed hc => exact h.completed hph rfl hc
    | @broke n children error hc =>
      have hmem : n ∈ held (before ++ w :: after) :=
        mem_held.2 ⟨w, by simp, by rw [hph]; rfl⟩
      obtain ⟨result, hok⟩ := WorkQueue.exists_complete_eq_ok h.sound
        (by rw [h.inFlight]; exact Nat.ne_of_gt (List.length_pos_of_mem hmem)) h.outstanding
        children w.coin
      exact absurd (hok.symm.trans hc) nofun
    | exhausted => exact h.exhausted hph rfl
  · generalize hph : waiting = phase at hwaits
    subst hph
    cases hwaits with
    | resolved hr =>
      refine h.wait ?_
      rintro outcome (ho | ho) <;> cases ho
      exact .inr hr
    | unresolved => exact h.wait (by rintro outcome (ho | ho) <;> cases ho)
    | stopped hstop => exact h.wait fun _ _ => .inl hstop
    | unstopped => exact h.wait (by rintro outcome (ho | ho) <;> cases ho)
    | @closed outcome =>
      have hr := h.waiting outcome (.inl rfl)
      refine h.close (hr.imp_right fun hr hp => ?_) ?_
      · simp [Slot.resolution?, hp] at hr
      · rintro outcome' (ho | ho) <;> cases ho
        exact hr
  · exact ⟨h.sound, h.inFlight, h.outstanding, h.layer, h.unbroken, h.drained, fun _ => .inl rfl,
      h.isOpen, h.flag, h.closing, fun _ _ => .inl rfl, fun _ _ _ => .inr rfl⟩

theorem follow {p : Problem ω S M} {claiming : Claiming} [Coin ρ] (h : pool.Orderly)
    (actors : List Actor) : (pool.follow p claiming actors).Orderly :=
  follow_induction (fun _ _ _ h hs => h.step hs) h actors

/-- While somebody is busy with a node and the flag is down, the slot is empty. -/
theorem content_of_flag (h : pool.Orderly) (hflag : pool.shared.slot.flag = false)
    {w : Worker S M ρ} (hw : w ∈ pool.workers) {n : Node S M} (hn : w.phase.node? = some n) :
    pool.shared.slot.content = .pending := by
  cases hc : pool.shared.slot.content with
  | pending => rfl
  | assigned n => exact absurd (hflag.symm.trans (h.flag.2 ⟨n, hc⟩)) Bool.false_ne_true
  | exhausted =>
    have hheld := (h.drained (.inl hc)).2
    exact absurd (mem_held.2 ⟨w, hw, hn⟩) (hheld ▸ List.not_mem_nil)

/-- What the one who waited was told is what the slot holds, unless the search was stopped. -/
theorem content_of_outcome? (h : pool.Orderly) (hstop : pool.shared.stopped = false)
    {goal : Option (Node S M)} (hend : pool.outcome? = some goal) :
    pool.shared.slot.content = goal.elim .exhausted .assigned := by
  have hstopped : ¬ pool.shared.stopped = true := by
    rw [hstop]
    exact Bool.false_ne_true
  have hwaiting := h.waiting goal (.inr (ended_of_outcome? hend).1)
  exact Slot.content_of_resolution? (hwaiting.resolve_left hstopped)

end Orderly

end Pool

end StateSearch
