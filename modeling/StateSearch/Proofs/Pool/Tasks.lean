import StateSearch.Pool.Task

/-!
# The steps of a task

A step of a task that makes a call does to the pool what the call does; the task goes on with the answer,
or fails (`calling_ind`). The queue and the slot are left alone, and no state that was recorded is
forgotten (`step_frame`).
-/

namespace StateSearch.Stage

variable {ω S M F α : Type} [DecidableEq S] [Hashable S]

theorem calling_ind (P : Progress S M × Shared ω S M F → Prop) {call : Call ω α}
    {shared : Shared ω S M F} {onward : α → Progress S M}
    (hok : ∀ value, (call shared.world).result = .ok value →
      P (onward value, (shared.ask call).2))
    (herr : ∀ fault, (call shared.world).result = .error fault →
      P (.failed fault, (shared.ask call).2)) : P (calling call shared onward) := by
  unfold calling
  cases h : (call shared.world).result with
  | ok value =>
    rw [show shared.ask call = (.ok value, (shared.ask call).2) from Prod.ext h rfl]
    exact hok value h
  | error fault =>
    rw [show shared.ask call = (.error fault, (shared.ask call).2) from Prod.ext h rfl]
    exact herr fault h

/-- What no step of a task changes, and what it only adds to. -/
structure Frame (shared shared' : Shared ω S M F) : Prop where
  queue : shared'.queue = shared.queue
  slot : shared'.slot = shared.slot
  faults : shared'.faults = shared.faults
  stopped : shared.stopped = true → shared'.stopped = true
  seen : ∀ s, s ∈ shared.seen → s ∈ shared'.seen

theorem Frame.refl (shared : Shared ω S M F) : Frame shared shared :=
  ⟨rfl, rfl, rfl, id, fun _ => id⟩

theorem Frame.unstopped {shared shared' : Shared ω S M F} (h : Frame shared shared')
    (hs : shared'.stopped = false) : shared.stopped = false := by
  rw [← Bool.not_eq_true]
  intro hstopped
  rw [h.stopped hstopped] at hs
  cases hs

theorem frame_ask (call : Call ω α) (shared : Shared ω S M F) :
    Frame shared (shared.ask call).2 :=
  ⟨rfl, rfl, rfl, fun h => by simp [Shared.ask, h], fun _ => id⟩

theorem frame_record (shared : Shared ω S M F) (s : S) : Frame shared (shared.record s).2 := by
  refine ⟨rfl, rfl, rfl, id, fun t ht => ?_⟩
  simp only [Shared.record, SeenSet.insert, Std.HashSet.containsThenInsert_snd,
    Std.HashSet.mem_insert]
  exact .inr ht

theorem frame_calling (call : Call ω α) (shared : Shared ω S M F) (onward : α → Progress S M) :
    Frame shared (calling call shared onward).2 :=
  calling_ind (fun result => Frame shared result.2) (fun _ _ => frame_ask call shared)
    fun _ _ => frame_ask call shared

theorem frame_converse (query : SeenQuery S) (shared : Shared ω S M F)
    (continued : SeenQuery S → Progress S M) (known absent : Progress S M) :
    Frame shared (converse query shared continued known absent).2 := by
  cases query with
  | answer b => cases b <;> exact .refl _
  | insert s next => exact frame_record shared s
  | _ => exact .refl _

theorem step_frame (p : Problem ω S M) (claiming : Claiming) (n : Node S M)
    (shared : Shared ω S M F) (stage : Stage S M) :
    Frame shared (stage.step p claiming n shared).2 := by
  cases stage with
  | claim | test | list | apply | screen | price | estimate | report => exact frame_calling ..
  | claimBy | screenBy => exact frame_converse ..
  | lookAtFlag | lookAtStop => exact .refl _
  | drop | count | generate | discard => exact ⟨rfl, rfl, rfl, id, fun _ => id⟩

theorem frame_of_step_eq {p : Problem ω S M} {claiming : Claiming} {n : Node S M}
    {shared shared' : Shared ω S M F} {stage : Stage S M} {progress : Progress S M}
    (h : stage.step p claiming n shared = (progress, shared')) : Frame shared shared' := by
  have := step_frame p claiming n shared stage
  rwa [h] at this

end StateSearch.Stage
