import StateSearch.Proofs.Pool.History
import StateSearch.Proofs.Pool.Failures

/-!
# What becomes of goals, tasks and faults

Whatever the problem does, however its calls fail and whoever asks for a stop, a pool accounts for all that
its workers did. The first goal that is offered to the slot stays there; the slot is exhausted only when no
task is left and none came to a goal; every task is completed once; each fault is reported once; and as long
as there is no outcome and no stop, somebody can go on (`Pool.Accountable`).

The invariant, `Recorded`, compares the pool with the history of the run that led to it. What it says of a
worker follows from what the worker's step adds to the history (`Recorded.replace`).
-/

namespace StateSearch

open StateSearch.Random LawfulFrontier

variable {ω S M F ρ : Type}

namespace Phase

/-- Whether a worker has found a goal and nobody has taken notice yet. -/
def hasGoal : Phase S M → Bool
  | announce _ | publish _ => true
  | idle | working .. | close _ | judgeFlag .. | judgeStop .. | blame .. | complete .. | exhaust
  | ended | broken .. => false

/-- The fault that worker `index` is about to report. -/
def blame? (index : Nat) : Phase S M → Option WorkerFault
  | blame n fault => some ⟨index, n.depth, fault.report⟩
  | idle | working .. | announce _ | publish _ | close _ | judgeFlag .. | judgeStop .. | complete ..
  | exhaust | ended | broken .. => none

theorem node?_of_hasGoal {phase : Phase S M} (h : phase.hasGoal = true) : ∃ n, phase.node? = some n := by
  cases phase <;> first | exact ⟨_, rfl⟩ | cases h

end Phase

namespace Pool

/-- The node in the hands of worker `index`. -/
def nodeOf? (workers : List (Worker S M ρ)) (index : Nat) : Option (Node S M) :=
  workers[index]?.bind fun w => w.phase.node?

/-- The faults that the workers are about to report. -/
def unreported (workers : List (Worker S M ρ)) : List WorkerFault :=
  workers.zipIdx.filterMap fun (w, index) => w.phase.blame? index

section

variable {before after : List (Worker S M ρ)} {w w' : Worker S M ρ}

theorem nodeOf?_middle : nodeOf? (before ++ w :: after) before.length = w.phase.node? := by
  rw [nodeOf?, getElem?_middle, Option.bind_some]

theorem nodeOf?_of_ne (w w' : Worker S M ρ) {index : Nat} (h : index ≠ before.length) :
    nodeOf? (before ++ w' :: after) index = nodeOf? (before ++ w :: after) index := by
  have hset : before ++ w' :: after = (before ++ w :: after).set before.length w' := by
    rw [List.set_append_right _ _ (Nat.le_refl _), Nat.sub_self, List.set_cons_zero]
  rw [nodeOf?, nodeOf?, hset, List.getElem?_set_ne h.symm]

theorem unreported_middle (before after : List (Worker S M ρ)) (w : Worker S M ρ) :
    (unreported (before ++ w :: after)).Perm
    ((w.phase.blame? before.length).toList ++ (unreported before ++
      (after.zipIdx (before.length + 1)).filterMap fun (w, index) => w.phase.blame? index)) := by
  unfold unreported
  rw [List.zipIdx_append, List.zipIdx_cons, List.filterMap_append, List.filterMap_cons, Nat.zero_add]
  simp only
  cases w.phase.blame? before.length with
  | none => exact .refl _
  | some fault => exact List.perm_middle

end

variable [DecidableEq S] [Hashable S]

/-- Once the slot says something while a worker has a node in hand, there is a goal in it. -/
theorem Orderly.exists_assigned [Frontier F (Node S M)] [LawfulFrontier F (Node S M)]
    {pool : Pool ω S M F ρ} {w : Worker S M ρ} (ho : pool.Orderly)
    (hslot : pool.shared.slot.content ≠ .pending) (hw : w ∈ pool.workers) (hnode : w.phase.node? ≠ none) :
    ∃ n, pool.shared.slot.content = .assigned n := by
  cases hc : pool.shared.slot.content with
  | pending => exact absurd hc hslot
  | assigned n => exact ⟨n, rfl⟩
  | exhausted =>
    have hheld := List.filterMap_eq_nil_iff.1 (ho.drained (.inl hc)).2 w hw
    exact absurd hheld hnode

/-- The pool is what such a history makes of it. -/
structure Recorded (past : History S M) (pool : Pool ω S M F ρ) : Prop where
  /-- Whoever comes to a goal tells the slot, or finds that somebody has told it another one. -/
  reached : (∃ index n, (index, .reached n) ∈ past) →
    (∃ n, pool.shared.slot.content = .assigned n) ∨ ∃ w ∈ pool.workers, w.phase.hasGoal = true
  offers : ∀ n, pool.shared.slot.content = .assigned n ↔ past.offers.head? = some n
  tasks : ∀ index, past.takenBy index = past.completedBy index ++ (nodeOf? pool.workers index).toList
  faults : past.failures.Perm (pool.shared.faults ++ unreported pool.workers)

namespace Recorded

variable {past : History S M} {pool next : Pool ω S M F ρ} {actor : Actor}
  {shared shared' : Shared ω S M F} {before after : List (Worker S M ρ)} {w w' : Worker S M ρ}
  {waiting : Waiting S M}

theorem offers_eq_nil (h : Recorded past pool) (hs : ∀ n, pool.shared.slot.content ≠ .assigned n) :
    past.offers = [] := by
  rw [← List.head?_eq_none_iff]
  cases hhead : past.offers.head? with
  | none => rfl
  | some n => exact absurd ((h.offers n).2 hhead) (hs n)

/-- The step of one worker has to be looked at only for what it means for the node in its hands, for the
slot and for the faults. -/
theorem replace (h : Recorded past ⟨shared, before ++ w :: after, waiting⟩)
    (event : Option (Event S M))
    (hreached : (∃ n, event = some (.reached n)) ∨ w.phase.hasGoal = true →
      (∃ n, shared'.slot.content = .assigned n) ∨ w'.phase.hasGoal = true)
    (hkept : ∀ n, shared.slot.content = .assigned n → shared'.slot.content = .assigned n)
    (hfirst : (∀ n, shared.slot.content ≠ .assigned n) →
      ∀ n, shared'.slot.content = .assigned n ↔ event = some (.offered n))
    (htasks : w.phase.node?.toList ++
        History.takenBy (event.map fun event => (before.length, event)).toList before.length =
      History.completedBy (event.map fun event => (before.length, event)).toList before.length ++
        w'.phase.node?.toList)
    (hfaults : (shared.faults ++ (w.phase.blame? before.length).toList ++
        History.failures (event.map fun event => (before.length, event)).toList).Perm
      (shared'.faults ++ (w'.phase.blame? before.length).toList)) :
    Recorded (past ++ (event.map fun event => (before.length, event)).toList)
      ⟨shared', before ++ w' :: after, waiting⟩ := by
  refine ⟨?_, fun n => ?_, fun index => ?_, ?_⟩
  · rintro ⟨index, n, hmem⟩
    rw [exists_mem_middle, ← or_assoc]
    rcases List.mem_append.1 hmem with hmem | hmem
    · rcases h.reached ⟨index, n, hmem⟩ with ⟨n', hn'⟩ | hw
      · exact .inl (.inl ⟨n', hkept n' hn'⟩)
      · rw [exists_mem_middle] at hw
        exact hw.imp_left fun hw => hreached (.inr hw)
    · rw [Option.mem_toList, Option.map_eq_some_iff] at hmem
      obtain ⟨_, hevent, heq⟩ := hmem
      cases heq
      exact .inl (hreached (.inl ⟨n, hevent⟩))
  · rw [History.offers_append]
    by_cases hs : ∃ m, shared.slot.content = .assigned m
    · obtain ⟨m, hm⟩ := hs
      have hhead := (h.offers m).1 hm
      rw [List.head?_append, hhead, Option.some_or, hkept m hm]
      simp only [SlotContent.assigned.injEq, Option.some.injEq]
    · have hs := not_exists.1 hs
      rw [h.offers_eq_nil hs, List.nil_append, hfirst hs n]
      cases event with
      | none => exact ⟨nofun, nofun⟩
      | some event => cases event <;> simp [History.offers]
  · rw [History.takenBy_append, History.completedBy_append, h.tasks index]
    by_cases hindex : index = before.length
    · rw [hindex, nodeOf?_middle, nodeOf?_middle, List.append_assoc, htasks, List.append_assoc]
    · have hother : ∀ event : Event S M,
          History.takenBy [(before.length, event)] index = [] ∧
            History.completedBy [(before.length, event)] index = [] := by
        intro event
        cases event <;> simp [History.takenBy, History.completedBy, Ne.symm hindex]
      rw [nodeOf?_of_ne w w' hindex]
      cases event with
      | none => simp [History.takenBy, History.completedBy]
      | some event =>
        simp only [Option.map_some, Option.toList_some, (hother event).1, (hother event).2,
          List.append_nil]
  · rw [History.failures_append]
    refine List.perm_iff_count.2 fun fault => ?_
    have hcount := h.faults.count_eq fault
    have hmiddle := (unreported_middle before after w).count_eq fault
    have hmiddle' := (unreported_middle before after w').count_eq fault
    have hworker := hfaults.count_eq fault
    simp only [List.count_append] at hcount hmiddle hmiddle' hworker ⊢
    omega

variable [Frontier F (Node S M)] [LawfulFrontier F (Node S M)] {p : Problem ω S M}
  {claiming : Claiming} {root : Node S M}

theorem of_isFresh (h : pool.IsFresh root) : Recorded [] pool := by
  have hnode : ∀ index, nodeOf? pool.workers index = none := by
    intro index
    rw [nodeOf?]
    cases hw : pool.workers[index]? with
    | none => rfl
    | some w =>
      rw [Option.bind_some, h.idle w (List.mem_of_getElem? hw)]
      rfl
  have hunreported : unreported pool.workers = [] := by
    refine List.filterMap_eq_nil_iff.2 fun ⟨w, index⟩ hw => ?_
    simp only [h.idle w (List.fst_mem_of_mem_zipIdx hw)]
    rfl
  refine ⟨?_, fun n => ?_, fun index => ?_, ?_⟩
  · rintro ⟨index, n, hmem⟩
    cases hmem
  · rw [h.slot]
    exact ⟨nofun, nofun⟩
  · rw [hnode]
    rfl
  · rw [h.faults, hunreported]
    exact .refl _

variable [Coin ρ]

omit [Frontier F (Node S M)] [LawfulFrontier F (Node S M)] [Coin ρ] in
theorem pass (h : Recorded past ⟨shared, before ++ w :: after, waiting⟩)
    (hnode : w'.phase.node? = w.phase.node?)
    (hgoal : w.phase.hasGoal = true →
      (∃ n, shared.slot.content = .assigned n) ∨ w'.phase.hasGoal = true)
    (hslot : shared'.slot = shared.slot)
    (hfaults : (shared.faults ++ (w.phase.blame? before.length).toList).Perm
      (shared'.faults ++ (w'.phase.blame? before.length).toList)) :
    Recorded (past ++ []) ⟨shared', before ++ w' :: after, waiting⟩ := by
  refine h.replace none ?_ ?_ ?_ ?_ ?_
  · rw [hslot]
    rintro (⟨n, hn⟩ | hw)
    · cases hn
    · exact hgoal hw
  · rw [hslot]
    exact fun _ hn => hn
  · rw [hslot]
    exact fun hs n => ⟨fun hn => absurd hn (hs n), nofun⟩
  · rw [hnode]
    exact List.append_nil _
  · exact (List.append_nil _).symm ▸ hfaults

omit [Frontier F (Node S M)] [LawfulFrontier F (Node S M)] [Coin ρ] in
theorem task (h : Recorded past ⟨shared, before ++ w :: after, waiting⟩) {n : Node S M}
    {stage : Stage S M} {progress : Progress S M} (hw : w.phase = .working n stage)
    (hw' : w'.phase = afterTask n progress) (ht : stage.step p claiming n shared = (progress, shared')) :
    Recorded (past ++ ((stage.event? n progress).map fun event => (before.length, event)).toList)
      ⟨shared', before ++ w' :: after, waiting⟩ := by
  have hframe := Stage.frame_of_step_eq ht
  have hnode : w.phase.node? = some n ∧ w'.phase.node? = some n := by
    rw [hw, hw']
    cases progress <;> exact ⟨rfl, rfl⟩
  have hblame : w.phase.blame? before.length = none := by
    rw [hw]
    rfl
  have hoffered : ∀ n', stage.event? n progress ≠ some (.offered n') := by
    intro n' hn'
    unfold Stage.event? at hn'
    split at hn'
    · cases hn'
    · cases hn'
    all_goals split at hn' <;> cases hn'
  refine h.replace (stage.event? n progress) ?_ ?_ ?_ ?_ ?_
  · rintro (⟨n', hn'⟩ | hgoal)
    · right
      rw [hw']
      cases progress with
      | goal => rfl
      | failed fault => cases hn'
      | onward | children | skipped =>
        unfold Stage.event? at hn'
        simp only at hn'
        split at hn' <;> cases hn'
    · rw [hw] at hgoal
      cases hgoal
  · rw [hframe.slot]
    exact fun _ hn => hn
  · rw [hframe.slot]
    exact fun hs n' => ⟨fun hn' => absurd hn' (hs n'), fun hn' => absurd hn' (hoffered n')⟩
  · rw [hnode.1, hnode.2]
    cases progress with
    | goal | failed => rfl
    | onward | children | skipped =>
      unfold Stage.event?
      simp only
      split <;> rfl
  · rw [hframe.faults, hblame, hw']
    cases progress with
    | goal => exact .of_eq (by simp [Stage.event?, History.failures, afterTask, Phase.blame?])
    | failed fault =>
      exact .of_eq (by simp [Stage.event?, History.failures, afterTask, Phase.blame?])
    | onward | children | skipped =>
      unfold Stage.event?
      simp only
      split <;> exact .of_eq (by simp [History.failures, afterTask, Phase.blame?])

omit [Frontier F (Node S M)] [LawfulFrontier F (Node S M)] [Coin ρ] in
/-- A goal is offered to a slot that has one already. -/
theorem late (h : Recorded past ⟨shared, before ++ w :: after, waiting⟩) {n first : Node S M}
    (hfirst : shared.slot.content = .assigned first) (hnode : w'.phase.node? = w.phase.node?)
    (hblame : w'.phase.blame? before.length = w.phase.blame? before.length) :
    Recorded (past ++ [(before.length, .offered n)]) ⟨shared, before ++ w' :: after, waiting⟩ := by
  refine h.replace (some (.offered n)) (fun _ => .inl ⟨first, hfirst⟩) (fun _ hn => hn) ?_ ?_ ?_
  · exact fun hs => absurd hfirst (hs first)
  · rw [hnode]
    exact List.append_nil _
  · rw [hblame]
    exact .of_eq (List.append_nil _)

section

omit [Frontier F (Node S M)] [LawfulFrontier F (Node S M)] [Coin ρ]

variable (h : Recorded past ⟨shared, before ++ w :: after, waiting⟩) {n : Node S M}
  {children : List (Node S M)} {queue : WorkQueue F}
include h

theorem taken {stage : Stage S M} (hw : w.phase = .idle) (hw' : w'.phase = .working n stage) :
    Recorded (past ++ [(before.length, .took n)])
      ⟨{ shared with queue }, before ++ w' :: after, waiting⟩ := by
  refine h.replace (some (.took n)) ?_ (fun _ hn => hn) ?_ ?_ ?_
  · rw [hw]
    rintro (⟨_, ⟨⟩⟩ | hgoal)
    cases hgoal
  · exact fun hs n => ⟨fun hn => absurd hn (hs n), fun he => by cases he⟩
  · rw [hw, hw']
    simp [Phase.node?, History.takenBy, History.completedBy]
  · rw [hw, hw']
    simp [Phase.blame?, History.failures]

/-- A goal is offered to the empty slot. -/
theorem won (hpending : shared.slot.content = .pending) (hw : w.phase = .publish n)
    (hw' : w'.phase = .close n) :
    Recorded (past ++ [(before.length, .offered n)])
      ⟨{ shared with slot := ⟨.assigned n, true⟩ }, before ++ w' :: after, waiting⟩ := by
  refine h.replace (some (.offered n)) (fun _ => .inl ⟨n, rfl⟩) ?_ ?_ ?_ ?_
  · exact fun n' hn' => by cases hpending.symm.trans hn'
  · exact fun _ n' => ⟨fun hn' => by cases hn'; rfl, fun hn' => by cases hn'; rfl⟩
  · rw [hw, hw']
    rfl
  · rw [hw, hw']
    exact .of_eq (List.append_nil _)

/-- The fault of a task is added to the list of faults. -/
theorem blamed {fault : Fault} (hw : w.phase = .blame n fault) (hw' : w'.phase = .complete n []) :
    Recorded (past ++ [])
      ⟨shared.addFault ⟨before.length, n.depth, fault.report⟩, before ++ w' :: after, waiting⟩ := by
  refine h.pass (by rw [hw, hw']; rfl) (by rw [hw]; rintro ⟨⟩) rfl ?_
  rw [hw, hw']
  simp only [Phase.blame?, Shared.addFault, Option.toList_some, Option.toList_none, List.append_nil]
  exact List.perm_append_singleton _ _

theorem completed {exhausted : Bool} (hw : w.phase = .complete n children)
    (hw' : w'.phase = if exhausted then .exhaust else .idle) :
    Recorded (past ++ [(before.length, .completed n children)])
      ⟨{ shared with queue }, before ++ w' :: after, waiting⟩ := by
  have hfree : w'.phase.node? = none ∧ w'.phase.blame? before.length = none := by
    rw [hw']
    cases exhausted <;> exact ⟨rfl, rfl⟩
  refine h.replace (some (.completed n children)) ?_ (fun _ hn => hn) ?_ ?_ ?_
  · rw [hw]
    rintro (⟨_, ⟨⟩⟩ | hgoal)
    cases hgoal
  · exact fun hs n => ⟨fun hn => absurd hn (hs n), fun he => by cases he⟩
  · rw [hw, hfree.1]
    simp [Phase.node?, History.takenBy, History.completedBy]
  · rw [hw, hfree.2]
    exact .of_eq (List.append_nil _)

/-- A slot that is marked as exhausted has no goal but the one that it had. -/
theorem exhausted (hw : w.phase = .exhaust) (hw' : w'.phase = .idle) :
    Recorded (past ++ [])
      ⟨{ shared with slot := shared.slot.markExhausted }, before ++ w' :: after, waiting⟩ := by
  refine h.replace none ?_ ?_ ?_ ?_ ?_
  · rw [hw]
    rintro (⟨_, ⟨⟩⟩ | hgoal)
    cases hgoal
  · intro n hn
    simp only [Slot.markExhausted, hn]
  · refine fun hs n => ⟨fun hn => ?_, fun he => by cases he⟩
    simp only [Slot.markExhausted] at hn
    split at hn
    · cases hn
    · exact absurd hn (hs n)
  · rw [hw, hw']
    rfl
  · rw [hw, hw']
    exact .of_eq (List.append_nil _)

end

theorem step (ho : pool.Orderly) (h : Recorded past pool)
    (hs : pool.step p claiming actor = some next) :
    Recorded (past ++ pool.events p claiming actor) next := by
  have honext := ho.step hs
  rcases step_cases hs with ⟨before, w, after, w', shared', rfl, hw, hacts, rfl⟩ |
    ⟨waiting', shared', rfl, hwaits, rfl⟩ | ⟨rfl, rfl⟩
  · obtain ⟨shared, workers, waiting⟩ := pool
    obtain rfl : workers = _ := hw
    replace hacts : Acts p claiming before.length shared w.coin w.phase w' shared' := hacts
    rw [events_middle]
    generalize hph : w.phase = phase at hacts
    cases hacts with
    | refused hr =>
      simp only [eventOf, hph, hr]
      exact h.pass (by rw [hph]; rfl) (by rw [hph]; rintro ⟨⟩) rfl (by rw [hph]; exact .refl _)
    | taken ht =>
      simp only [eventOf, hph, ht]
      exact h.taken hph rfl
    | task ht =>
      simp only [eventOf, hph, ht]
      exact h.task hph rfl ht
    | tooLate hf =>
      simp only [eventOf, hph, hf, if_true]
      obtain ⟨first, hfirst⟩ := ho.flag.1 hf
      exact h.late hfirst (by rw [hph]; rfl) (by rw [hph]; rfl)
    | announced hf =>
      simp only [eventOf, hph, hf, Bool.false_eq_true, if_false]
      exact h.pass (by rw [hph]; rfl) (fun _ => .inr rfl) rfl (by rw [hph]; exact .refl _)
    | won hpending =>
      simp only [eventOf, hph]
      exact h.won hpending hph rfl
    | beaten hb =>
      simp only [eventOf, hph]
      obtain ⟨first, hfirst⟩ := ho.exists_assigned hb (List.mem_append_right _ (List.mem_cons_self ..))
        (by rw [hph]; exact Option.some_ne_none _)
      exact h.late hfirst (by rw [hph]; rfl) (by rw [hph]; rfl)
    | closed | forgone | kept | judged =>
      simp only [eventOf, hph]
      exact h.pass (by rw [hph]; rfl) (by rw [hph]; rintro ⟨⟩) rfl (by rw [hph]; exact .refl _)
    | blamed =>
      simp only [eventOf, hph]
      exact h.blamed hph rfl
    | completed hc =>
      simp only [eventOf, hph, hc]
      exact h.completed hph rfl
    | broke =>
      exact absurd rfl (honext.unbroken _ (List.mem_append_right _ (List.mem_cons_self ..)) _ _)
    | exhausted =>
      simp only [eventOf, hph]
      exact h.exhausted hph rfl
  · obtain ⟨shared, workers, waiting⟩ := pool
    rw [show events p claiming _ .waiter = [] from rfl, List.append_nil]
    cases hwaits <;> exact ⟨h.reached, h.offers, h.tasks, h.faults⟩
  · rw [show events p claiming _ .outsider = [] from rfl, List.append_nil]
    exact ⟨h.reached, h.offers, h.tasks, h.faults⟩

theorem follow (hfresh : pool.IsFresh root) (actors : List Actor) :
    Recorded (pool.history p claiming actors) (pool.follow p claiming actors) := by
  have hstart : Orderly pool ∧ Recorded [] pool := ⟨hfresh.orderly, of_isFresh hfresh⟩
  refine (history_induction (I := fun past pool => Orderly pool ∧ Recorded past pool) ?_ hstart actors).2
  intro past pool next actor ⟨ho, h⟩ hs
  exact ⟨ho.step hs, h.step ho hs⟩

end Recorded

/-! ### What every run can be relied on for -/

variable [Frontier F (Node S M)] [LawfulFrontier F (Node S M)] [Coin ρ] {p : Problem ω S M}
  {claiming : Claiming} {pool : Pool ω S M F ρ} {root : Node S M}

/-- Some worker can take a node, is busy with a task, or is about to say that there will be no goal. -/
def CanGoOn (pool : Pool ω S M F ρ) (index : Nat) : Prop :=
  ∃ w, pool.workers[index]? = some w ∧
    ((w.phase = .idle ∧ ∃ n queue, pool.shared.queue.take pool.shared.stopped =
        (.taken n queue : Taking F (Node S M))) ∨
      w.phase.node? ≠ none ∨ w.phase = .exhaust)

/-- The pool accounts for what its workers did. -/
structure Accountable (p : Problem ω S M) (claiming : Claiming) (past : History S M)
    (pool : Pool ω S M F ρ) : Prop where
  /-- The slot is exhausted only when nothing is left to do and no task has come to a goal. -/
  exhausted : pool.shared.slot.content = .exhausted →
    nodes pool.shared.queue.frontier = [] ∧ held pool.workers = [] ∧
      pool.shared.queue.inFlight = 0 ∧ pool.shared.queue.outstanding = 0 ∧
      ∀ index n, (index, .reached n) ∉ past
  /-- The first goal that was offered to the slot is in it, and nothing else gets there. -/
  offers : ∀ n, pool.shared.slot.content = .assigned n ↔ past.offers.head? = some n
  /-- As long as the slot is empty and nobody asked for a stop, somebody can go on and take a step. -/
  lively : pool.shared.slot.content = .pending → pool.shared.stopped = false →
    ∃ index, pool.CanGoOn index ∧ pool.step p claiming (.worker index) ≠ none
  /-- The bookkeeping of the queue is never found to be wrong. -/
  unbroken : ∀ w ∈ pool.workers, ∀ n error, w.phase ≠ .broken n error
  /-- Each worker completes the tasks that it takes, one after the other, also those that fail. -/
  tasks : ∀ index, past.takenBy index = past.completedBy index ++ (nodeOf? pool.workers index).toList
  /-- Each failing task is reported once, with the depth of its node. -/
  faults : past.failures.Perm (pool.shared.faults ++ unreported pool.workers)

omit [Coin ρ] in
/-- While there is no outcome and no stop, a pool with workers does not get stuck. -/
theorem Orderly.exists_canGoOn (ho : pool.Orderly) (hne : pool.workers ≠ [])
    (hpending : pool.shared.slot.content = .pending) (hstop : pool.shared.stopped = false) :
    ∃ index, pool.CanGoOn index := by
  by_cases hexhaust : ∃ w ∈ pool.workers, w.phase = .exhaust
  · obtain ⟨w, hw, he⟩ := hexhaust
    obtain ⟨index, hindex⟩ := List.mem_iff_getElem?.1 hw
    exact ⟨index, w, hindex, .inr (.inr he)⟩
  have hopen : pool.shared.queue.closed = false := by
    rw [← Bool.not_eq_true]
    intro hclosed
    rcases ho.closed hclosed with hs | hs | hs
    · cases hstop.symm.trans hs
    · exact hs hpending
    · exact hexhaust hs
  by_cases hheld : held pool.workers = []
  · -- Nobody is busy, so whoever is still there waits for a node, and there is one.
    obtain ⟨w, hw⟩ := List.exists_mem_of_ne_nil _ hne
    obtain ⟨index, hindex⟩ := List.mem_iff_getElem?.1 hw
    have hnone : w.phase.node? = none := List.filterMap_eq_nil_iff.1 hheld w hw
    have hidle : w.phase = .idle := by
      cases hph : w.phase with
      | idle => rfl
      | exhaust => exact absurd ⟨w, hw, hph⟩ hexhaust
      | ended =>
        rcases ho.ended w hw hph with hc | hs
        · cases hopen.symm.trans hc
        · cases hstop.symm.trans hs
      | broken n error => exact absurd hph (ho.unbroken w hw n error)
      | _ => rw [hph] at hnone; cases hnone
    refine ⟨index, w, hindex, .inl ⟨hidle, ?_⟩⟩
    cases ht : (pool.shared.queue.take pool.shared.stopped : Taking F (Node S M)) with
    | taken n queue => exact ⟨n, queue, rfl⟩
    | blocked => exact absurd ht (ho.not_blocked hheld)
    | refused =>
      rcases WorkQueue.take_eq_refused ht with hc | hs
      · cases hopen.symm.trans hc
      · cases hstop.symm.trans hs
  · obtain ⟨n, hn⟩ := List.exists_mem_of_ne_nil _ hheld
    obtain ⟨w, hw, hnode⟩ := mem_held.1 hn
    obtain ⟨index, hindex⟩ := List.mem_iff_getElem?.1 hw
    exact ⟨index, w, hindex, .inr (.inl (by rw [hnode]; nofun))⟩

omit [LawfulFrontier F (Node S M)] in
theorem CanGoOn.step_ne_none {index : Nat} (h : pool.CanGoOn index) :
    pool.step p claiming (.worker index) ≠ none := by
  obtain ⟨w, hindex, h⟩ := h
  obtain ⟨shared, workers, waiting⟩ := pool
  replace hindex : workers[index]? = some w := hindex
  have hsome : ∃ result, stepWorker p claiming index w shared = some result := by
    obtain ⟨phase, coin⟩ := w
    rcases h with ⟨rfl, n, queue, ht⟩ | hnode | rfl
    · replace ht : shared.queue.take shared.stopped = .taken n queue := ht
      refine ⟨⟨⟨.working n (claiming.begin S M), coin⟩, { shared with queue }⟩, ?_⟩
      simp only [stepWorker, ht]
    · cases phase with
      | idle | exhaust | ended | broken => exact absurd rfl hnode
      | complete n children =>
        simp only [stepWorker]
        split <;> exact ⟨_, rfl⟩
      | _ => exact ⟨_, rfl⟩
    · exact ⟨_, rfl⟩
  obtain ⟨⟨w', shared'⟩, hstep⟩ := hsome
  simp only [step, hindex, Option.bind_eq_bind, Option.bind_some, hstep]
  exact Option.some_ne_none _

theorem IsFresh.accountable (h : pool.IsFresh root) (hne : pool.workers ≠ []) (actors : List Actor) :
    Accountable p claiming (pool.history p claiming actors) (pool.follow p claiming actors) := by
  have ho : (pool.follow p claiming actors).Orderly := h.orderly.follow actors
  have hr : Recorded (pool.history p claiming actors) (pool.follow p claiming actors) := .follow h actors
  have hne' : (pool.follow p claiming actors).workers ≠ [] := by
    intro hnil
    have hlength : (pool.follow p claiming actors).workers.length = _ := length_follow actors
    rw [hnil] at hlength
    exact hne (List.length_eq_zero_iff.1 hlength.symm)
  refine ⟨fun he => ?_, hr.offers, fun hpending hstop => ?_, ho.unbroken, hr.tasks, hr.faults⟩
  · obtain ⟨hnodes, hheld⟩ := ho.drained (.inl he)
    have hflight := ho.inFlight
    have houtstanding := ho.outstanding
    rw [hheld, List.length_nil] at hflight
    rw [hnodes, hflight] at houtstanding
    refine ⟨hnodes, hheld, hflight, houtstanding, fun index n hmem => ?_⟩
    rcases hr.reached ⟨index, n, hmem⟩ with ⟨n', hn'⟩ | ⟨w, hw, hgoal⟩
    · cases he.symm.trans hn'
    · obtain ⟨n', hn'⟩ := Phase.node?_of_hasGoal hgoal
      have hmem' := mem_held.2 ⟨w, hw, hn'⟩
      rw [hheld] at hmem'
      cases hmem'
  · obtain ⟨index, hindex⟩ := ho.exists_canGoOn hne' hpending hstop
    exact ⟨index, hindex, hindex.step_ne_none⟩

end Pool

namespace PoolSearch

open Act

variable [DecidableEq S] [Hashable S] {p : Problem ω S M} {claiming : Claiming} {arena middle : Arena ω}
  {goal : Option (Node S M)} {actors : List Actor}

/-- What is known of a run of the pool by these actors, and of the result that is read off in the end. -/
structure Reliable [Frontier F (Node S M)] [LawfulFrontier F (Node S M)] [Coin ρ] (p : Problem ω S M)
    (claiming : Claiming) (pool : Pool ω S M F ρ) (arena : Arena ω) (actors : List Actor) : Prop where
  accountable : (pool.follow p claiming actors).Accountable p claiming (pool.history p claiming actors)
  /-- The first goal that was offered to the slot stays there, whatever happens later. -/
  first : ∀ n, (pool.history p claiming actors).offers.head? = some n → ∀ later,
    (pool.follow p claiming (actors ++ later)).shared.slot.content = .assigned n
  result : ∀ goal, (pool.follow p claiming actors).outcome? = some goal →
    ((pool.follow p claiming actors).shared.stopped = false →
      goal = (pool.history p claiming actors).offers.head?) ∧
    (∀ index, (pool.history p claiming actors).takenBy index =
      (pool.history p claiming actors).completedBy index) ∧
    wp (finish p (pool.follow p claiming actors) goal)
      (fun path after => path = goal.map Node.toPath ∧
        (pool.history p claiming actors).failures.Perm after.faults ∧
        ((∃ error, Solver.endingOf after.faults (some path) = .failed error) ↔
          path = none ∧ after.faults ≠ []))
      (fun fault _ => ∃ count world, (p.onFinished (goal.map Node.toPath)
        (goal.elim p.initial Node.state) count world).result = .error fault) arena

section

variable [Frontier F (Node S M)] [LawfulFrontier F (Node S M)] [Coin ρ] {pool : Pool ω S M F ρ}
  {root : Node S M}

theorem reliable_of_isFresh (h : pool.IsFresh root) (hne : pool.workers ≠ []) (actors : List Actor) :
    Reliable p claiming pool arena actors := by
  have haccounts : ∀ actors, Pool.Accountable p claiming (pool.history p claiming actors)
      (pool.follow p claiming actors) := h.accountable hne
  have ho : (pool.follow p claiming actors).Orderly := h.orderly.follow actors
  refine ⟨haccounts actors, fun n hn later => ?_, fun goal hend => ⟨fun hstop => ?_, ?_, ?_⟩⟩
  · refine ((haccounts (actors ++ later)).offers n).2 ?_
    rw [Pool.history_append, History.offers_append, List.head?_append, hn, Option.some_or]
  · have hslot := ho.content_of_outcome? hstop hend
    cases goal with
    | some n => exact (((haccounts actors).offers n).1 hslot).symm
    | none =>
      cases hhead : (pool.history p claiming actors).offers.head? with
      | none => rfl
      | some n => cases hslot.symm.trans (((haccounts actors).offers n).2 hhead)
  · intro index
    have hnode : Pool.nodeOf? (pool.follow p claiming actors).workers index = none := by
      unfold Pool.nodeOf?
      cases hw : (pool.follow p claiming actors).workers[index]? with
      | none => rfl
      | some w =>
        have hmem := List.mem_of_getElem? hw
        rw [Option.bind_some, ho.ended_of_over hmem ((Pool.ended_of_outcome? hend).2 w hmem)]
        rfl
    rw [(haccounts actors).tasks index, hnode]
    exact List.append_nil _
  · have hunreported : Pool.unreported (pool.follow p claiming actors).workers = [] := by
      refine List.filterMap_eq_nil_iff.2 fun ⟨w, index⟩ hw => ?_
      have hmem := List.fst_mem_of_mem_zipIdx hw
      have hended := ho.ended_of_over hmem ((Pool.ended_of_outcome? hend).2 w hmem)
      show w.phase.blame? index = none
      rw [hended]
      rfl
    have hfaults := (haccounts actors).faults
    rw [hunreported, List.append_nil] at hfaults
    refine (wp_finish_arena p _ goal).mono ?_
    rintro path after ⟨rfl, hafter, -⟩
    refine ⟨rfl, ?_, ?_⟩
    · rw [hafter]
      exact hfaults.trans (List.reverse_perm _).symm
    · cases goal with
      | none =>
        rw [Option.map_none, Solver.endingOf, ← List.isEmpty_eq_false_iff]
        cases after.faults.isEmpty <;> simp
      | some n => simp [Solver.endingOf]

end

variable [Coin ρ] {plan : Plan ρ}

/-- Whatever the problem does, however its calls fail and whoever asks for a stop: in whatever order the
steps are taken, both searches with workers account for their goals, their tasks and their faults. -/
theorem reliable (p : Problem ω S M) (hcoins : plan.coins ≠ []) :
    (∀ {placement arena middle} {pool : Pool ω S M (BiasedDeque S M) ρ},
      prepareConcurrent p placement plan arena = .ok pool middle →
        ∀ actors, Reliable p .whenGenerated pool middle actors) ∧
    ∀ {arena middle} {pool : Pool ω S M (OpenList S M) ρ},
      prepareAStar p plan arena = .ok pool middle →
        ∀ actors, Reliable p .whenTaken pool middle actors := by
  have hne : ∀ {F : Type} {pool : Pool ω S M F ρ}, pool.workers.length = plan.coins.length →
      pool.workers ≠ [] := by
    intro F pool hlength hnil
    rw [hnil] at hlength
    exact hcoins (List.length_eq_zero_iff.1 hlength.symm)
  constructor
  · intro placement arena middle pool hprepare actors
    exact reliable_of_isFresh (isFresh_of_prepareConcurrent hprepare).1
      (hne (length_of_prepareConcurrent hprepare)) actors
  · intro arena middle pool hprepare actors
    obtain ⟨_, _, -, hfresh, -⟩ := isFresh_of_prepareAStar hprepare
    exact reliable_of_isFresh hfresh (hne (length_of_prepareAStar hprepare)) actors

end PoolSearch

namespace Junction

/-- Two workers who claim states when they take them, with a problem that gives no estimates. -/
def unordered : Pool Unit Junction Junction (OpenList Junction Junction) Unit :=
  Pool.start (shared .empty 0 ∅) [(), ()]

/-- The task on the bypass fails. It is reported once, and the search says so. -/
theorem reliable_washout :
    ([(), ()] : List Unit) ≠ [] ∧
    (PoolSearch.prepareConcurrent washout.toProblem .tail ⟨(), [(), ()]⟩ { world := () } =
        .ok levels { world := () } ∧
      PoolSearch.Reliable washout.toProblem .whenGenerated levels { world := () } turns) ∧
    (PoolSearch.prepareAStar washout.toProblem ⟨(), [(), ()]⟩ { world := () } =
        .ok unordered { world := () } ∧
      PoolSearch.Reliable washout.toProblem .whenTaken unordered { world := () } turns) ∧
    ((levels.history washout.toProblem .whenGenerated turns).failures.map WorkerFault.depth = [1] ∧
      (levels.follow washout.toProblem .whenGenerated turns).shared.faults.map WorkerFault.depth = [1]) := by
  have hcoins : (⟨(), [(), ()]⟩ : PoolSearch.Plan Unit).coins ≠ [] := nofun
  obtain ⟨hconcurrent, haStar⟩ := PoolSearch.reliable (washout.toProblem : Problem Unit _ _) hcoins
  have hlevels : PoolSearch.prepareConcurrent washout.toProblem .tail ⟨(), [(), ()]⟩ { world := () } =
      .ok levels { world := () } := rfl
  have hunordered : PoolSearch.prepareAStar washout.toProblem ⟨(), [(), ()]⟩ { world := () } =
      .ok unordered { world := () } := rfl
  exact ⟨nofun, ⟨hlevels, hconcurrent hlevels turns⟩, ⟨hunordered, haStar hunordered turns⟩,
    by decide +kernel⟩

end Junction

end StateSearch
