import StateSearch.Proofs.Pool.Accounts
import StateSearch.Proofs.Pool.Claims
import Mathlib.Data.List.Nodup

/-!
# Who answers for a state that is seen

If states are claimed when they are generated, then somebody answers for each state from the moment it is
recorded until it has been dealt with: the queue, while a node for it waits, or the worker who recorded it
or took the node (`Pool.owned`). No state is owned twice (`Balanced`). When a task fails, the states that
the worker owns are lost (`Pool.lost`): they stay recorded, so nobody will make a node for them again.
-/

namespace StateSearch

open StateSearch.Random LawfulFrontier

variable {ω S M F ρ : Type}

/-! ### Accounts -/

/-- The state is seen, nobody owns it any more, and it is not lost. -/
structure Settled [DecidableEq S] [Hashable S] (seen : Std.HashSet S) (owned lost : List S) (s : S) :
    Prop where
  seen : s ∈ seen
  owned : s ∉ owned
  lost : s ∉ lost

/-- Every state is owned at most once, and no state is owned that is lost or not seen. -/
structure Balanced [DecidableEq S] [Hashable S] (seen : Std.HashSet S) (owned lost : List S) :
    Prop where
  nodup : owned.Nodup
  recorded : ∀ s ∈ owned, s ∈ seen
  apart : ∀ s ∈ owned, s ∉ lost
  remembered : ∀ s ∈ lost, s ∈ seen

section

variable [DecidableEq S] [Hashable S] {seen seen' : Std.HashSet S}
  {owned owned' lost fresh dropped forfeited : List S}

variable (h : Balanced seen owned lost) (hnodup : fresh.Nodup) (hfresh : ∀ s ∈ fresh, s ∉ seen)
  (hseen : ∀ s, s ∈ seen' ↔ s ∈ fresh ∨ s ∈ seen)
  (howned : (owned' ++ (dropped ++ forfeited)).Perm (fresh ++ owned))
include h hnodup hfresh hseen howned

omit hseen in
theorem Balanced.nodup_move : (owned' ++ (dropped ++ forfeited)).Nodup := by
  rw [howned.nodup_iff, List.nodup_append']
  exact ⟨hnodup, h.nodup, fun s hs ho => hfresh s hs (h.recorded s ho)⟩

omit hnodup howned hseen in
theorem Balanced.not_mem_lost {s : S} (hs : s ∈ fresh ++ owned) : s ∉ lost := by
  intro hl
  rcases List.mem_append.1 hs with hs | hs
  · exact hfresh s hs (h.remembered s hl)
  · exact h.apart s hs hl

/-- New states are recorded, and states that were owned are dropped or forfeited. -/
theorem Balanced.move : Balanced seen' owned' (lost ++ forfeited) := by
  have hmem := fun s => howned.mem_iff (a := s)
  obtain ⟨hnodup', -, hdisjoint⟩ := List.nodup_append'.1 (h.nodup_move hnodup hfresh howned)
  have hin : ∀ s, s ∈ fresh ++ owned → s ∈ seen' := by
    intro s hs
    exact (hseen s).2 ((List.mem_append.1 hs).imp_right (h.recorded s))
  refine ⟨hnodup', ?_, ?_, ?_⟩
  · exact fun s hs => hin s ((hmem s).1 (List.mem_append_left _ hs))
  · intro s hs hl
    rcases List.mem_append.1 hl with hl | hl
    · exact h.not_mem_lost hfresh ((hmem s).1 (List.mem_append_left _ hs)) hl
    · exact hdisjoint hs (List.mem_append_right _ hl)
  · intro s hl
    rcases List.mem_append.1 hl with hl | hl
    · exact (hseen s).2 (.inr (h.remembered s hl))
    · exact hin s ((hmem s).1 (List.mem_append_right _ (List.mem_append_right _ hl)))

theorem Balanced.settled_of_dropped {s : S} (hs : s ∈ dropped) :
    Settled seen' owned' (lost ++ forfeited) s := by
  have hin := howned.mem_iff.1 (List.mem_append_right _ (List.mem_append_left _ hs))
  obtain ⟨-, hrest, hdisjoint⟩ := List.nodup_append'.1 (h.nodup_move hnodup hfresh howned)
  refine ⟨?_, fun ho => hdisjoint ho (List.mem_append_left _ hs), fun hl => ?_⟩
  · exact (hseen s).2 ((List.mem_append.1 hin).imp_right (h.recorded s))
  · rcases List.mem_append.1 hl with hl | hl
    · exact h.not_mem_lost hfresh hin hl
    · exact (List.nodup_append'.1 hrest).2.2 hs hl

omit h hnodup in
/-- What is settled stays settled. -/
theorem Settled.move {s : S} (hs : Settled seen owned lost s) :
    Settled seen' owned' (lost ++ forfeited) s := by
  have hout : s ∉ fresh ++ owned := by
    rw [List.mem_append, not_or]
    exact ⟨fun hf => hfresh s hf hs.seen, hs.owned⟩
  refine ⟨(hseen s).2 (.inr hs.seen), fun ho => hout ?_, fun hl => ?_⟩
  · exact howned.mem_iff.1 (List.mem_append_left _ ho)
  · rcases List.mem_append.1 hl with hl | hl
    · exact hs.lost hl
    · exact hout (howned.mem_iff.1 (List.mem_append_right _ (List.mem_append_right _ hl)))

omit h hnodup hfresh in
/-- What is settled now was settled before, or has just been dropped. -/
theorem Settled.of_move {s : S} (hs : Settled seen' owned' (lost ++ forfeited) s) :
    Settled seen owned lost s ∨ s ∈ dropped := by
  have hout : s ∈ fresh ++ owned → s ∈ dropped := by
    intro hin
    rcases List.mem_append.1 (howned.mem_iff.2 hin) with ho | hd
    · exact absurd ho hs.owned
    · rcases List.mem_append.1 hd with hd | hl
      · exact hd
      · exact absurd (List.mem_append_right _ hl) hs.lost
  by_cases hd : s ∈ dropped
  · exact .inr hd
  · refine .inl ⟨?_, fun ho => hd (hout (List.mem_append_right _ ho)), fun hl => ?_⟩
    · exact ((hseen s).1 hs.seen).resolve_left fun hf => hd (hout (List.mem_append_left _ hf))
    · exact hs.lost (List.mem_append_left _ hl)

end

/-! ### What a task owns -/

namespace Stage

/-- The stages of a task that claims states when it generates them, if the problem is plain. -/
def Shaped : Stage S M → Prop
  | claim | claimBy _ | drop | estimate .. => False
  | screenBy _ _ t query => query = .record t ∨ ∃ known, query = .answer known
  | count | test _ | list _ | lookAtFlag .. | lookAtStop .. | apply .. | generate .. | screen ..
  | discard _ | price .. | report _ => True

/-- The nodes a task has made so far. -/
def made : Stage S M → List (Node S M)
  | claim | claimBy _ | drop | count | test _ | list _ => []
  | lookAtFlag sweep _ | lookAtStop sweep _ | apply sweep _ | generate sweep .. | screen sweep ..
  | screenBy sweep .. | price sweep .. | estimate sweep .. | discard sweep | report sweep =>
    sweep.children

/-- The state that a task has just recorded, for which there is no node yet. -/
def pending : Stage S M → List S
  | screenBy _ _ t (.answer false) | price _ _ t => [t]
  | _ => []

/-- The states that a task on `n` answers for. -/
def owned (n : Node S M) (stage : Stage S M) : List S :=
  n.state :: (stage.pending ++ stage.made.map Node.state)

end Stage

/-- The states that a worker answers for. -/
def Phase.owned : Phase S M → List S
  | working n stage => stage.owned n
  | announce n | publish n => [n.state]
  | judgeFlag _ children | judgeStop _ children | complete _ children => children.map Node.state
  | idle | close _ | blame .. | exhaust | ended | broken .. => []

def Phase.Shaped : Phase S M → Prop
  | working _ stage => stage.Shaped
  | _ => True

/-- What a step of a task on `n` does to the record and to the states the task answers for. -/
inductive Stage.Effect [DecidableEq S] [Hashable S] (n : Node S M) (stage : Stage S M)
    (seen seen' : Std.HashSet S) : Progress S M → Prop
  | kept {stage' : Stage S M} (hs : ∀ s, s ∈ seen' ↔ s ∈ seen)
      (ho : stage'.owned n = stage.owned n) : Effect n stage seen seen' (.onward stage')
  | recorded {sweep : Sweep S M} {m : M} {s : S} (hstage : stage = .screenBy sweep m s (.record s))
      (hfresh : s ∉ seen) (hs : ∀ t, t ∈ seen' ↔ t = s ∨ t ∈ seen) :
    Effect n stage seen seen' (.onward (.screenBy sweep m s (.answer false)))
  | goal (hs : seen' = seen) (ho : stage.owned n = [n.state]) : Effect n stage seen seen' .goal
  | finished (hs : seen' = seen) (ho : stage.pending = []) :
    Effect n stage seen seen' (.children stage.made.reverse)
  | failed {fault : Fault} (hs : seen' = seen) : Effect n stage seen seen' (.failed fault)

section

variable {p : Problem ω S M} {stage : Stage S M} {F : Type}

theorem Sweep.shaped_next (sweep : Sweep S M) : sweep.next.Shaped := by
  obtain ⟨tries, rest, children⟩ := sweep
  cases rest <;> trivial

theorem Sweep.owned_next (n : Node S M) (sweep : Sweep S M) :
    sweep.next.owned n = (Stage.discard sweep).owned n := by
  obtain ⟨tries, rest, children⟩ := sweep
  cases rest <;> rfl

variable [DecidableEq S] [Hashable S]

theorem Stage.Shaped.step (hplain : p.Plain) (h : stage.Shaped) (n : Node S M)
    (shared : Shared ω S M F) :
    (Pool.afterTask n (stage.step p .whenGenerated n shared).1).Shaped := by
  let P : Progress S M × Shared ω S M F → Prop := fun result =>
    (Pool.afterTask n result.1).Shaped
  cases stage with
  | claim | claimBy | drop | estimate => exact h.elim
  | count | generate => trivial
  | test tries =>
    exact calling_ind P (fun reached _ => by cases reached <;> trivial) fun _ _ => trivial
  | list tries => exact calling_ind P (fun _ _ => Sweep.shaped_next _) fun _ _ => trivial
  | lookAtFlag | lookAtStop =>
    simp only [Stage.step]
    split <;> trivial
  | apply | report => exact calling_ind P (fun _ _ => trivial) fun _ _ => trivial
  | screen sweep m t =>
    exact calling_ind P (fun _ hq => .inl (hplain _ _ _ hq)) fun _ _ => trivial
  | screenBy sweep m t query =>
    obtain rfl | ⟨known, rfl⟩ := h
    · exact .inr ⟨_, rfl⟩
    · cases known <;> trivial
  | discard => exact Sweep.shaped_next _
  | price => exact calling_ind P (fun _ _ => Sweep.shaped_next _) fun _ _ => trivial

/-- A step leaves the states alone that the task answers for, or adds one that was not seen before, or
it is the last step of the task. -/
theorem Stage.Shaped.effect (hplain : p.Plain) (h : stage.Shaped) (n : Node S M)
    (shared : Shared ω S M F) :
    stage.Effect n shared.seen (stage.step p .whenGenerated n shared).2.seen
      (stage.step p .whenGenerated n shared).1 := by
  let P : Progress S M × Shared ω S M F → Prop := fun result =>
    stage.Effect n shared.seen result.2.seen result.1
  cases stage with
  | claim | claimBy | drop | estimate => exact h.elim
  | count | generate => exact .kept (fun _ => .rfl) rfl
  | test tries =>
    refine calling_ind P (fun reached _ => ?_) fun _ _ => .failed rfl
    cases reached with
    | true => exact .goal rfl rfl
    | false => exact .kept (fun _ => .rfl) rfl
  | list tries =>
    exact calling_ind P (fun _ _ => .kept (fun _ => .rfl) (Sweep.owned_next ..))
      fun _ _ => .failed rfl
  | lookAtFlag | lookAtStop =>
    simp only [Stage.step]
    split <;> exact .kept (fun _ => .rfl) rfl
  | apply => exact calling_ind P (fun _ _ => .kept (fun _ => .rfl) rfl) fun _ _ => .failed rfl
  | screen sweep m t =>
    refine calling_ind P (fun query hq => .kept (fun _ => .rfl) ?_) fun _ _ => .failed rfl
    obtain rfl := hplain _ _ _ hq
    rfl
  | screenBy sweep m t query =>
    obtain rfl | ⟨known, rfl⟩ := h
    · have hnext : (Stage.step p .whenGenerated n shared (.screenBy sweep m t (.record t))).1 =
          .onward (.screenBy sweep m t (.answer (decide (t ∈ shared.seen)))) := by
        show Progress.onward (Stage.screenBy sweep m t (.answer (!(shared.record t).1))) = _
        rw [Shared.record_fst, Bool.not_not]
      rw [hnext]
      by_cases hfresh : t ∈ shared.seen
      · rw [decide_eq_true hfresh]
        exact .kept (fun s => Shared.mem_record_of_mem _ hfresh) rfl
      · rw [decide_eq_false hfresh]
        exact .recorded rfl hfresh fun s => Shared.mem_record _
    · cases known <;> exact .kept (fun _ => .rfl) rfl
  | discard => exact .kept (fun _ => .rfl) (Sweep.owned_next ..)
  | price sweep m t =>
    refine calling_ind P (fun c _ => .kept (fun _ => .rfl) ?_) fun _ _ => .failed rfl
    exact Sweep.owned_next n (sweep.add (n.child t m c 0))
  | report => exact calling_ind P (fun _ _ => .finished rfl rfl) fun _ _ => .failed rfl

end

end StateSearch
