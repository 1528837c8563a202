import StateSearch.Proofs.Pool.Losses

/-!
# The history of a run

The pool forgets what its workers did. `Pool.history` keeps a list of it beside the run: who took a node,
counted an expansion, found a goal, failed, offered a goal to the slot or completed a task. What every step
keeps true of the pool and of what happened so far is true of every run and its history
(`history_induction`).
-/

namespace StateSearch

open StateSearch.Random

variable {ω S M F ρ : Type}

/-- What happened to a node. -/
inductive Event (S M : Type) where
  | took (node : Node S M)
  /-- The expansion was counted. -/
  | expanded (node : Node S M)
  /-- The expansion came to a goal. -/
  | reached (node : Node S M)
  | failed (node : Node S M) (fault : Fault)
  /-- The node was offered to the slot. An offer is made when the slot is locked, or when the flag is seen
  to be up. -/
  | offered (node : Node S M)
  | completed (node : Node S M) (children : List (Node S M))

/-- What happened, the earliest first, each with the worker who did it. -/
abbrev History (S M : Type) := List (Nat × Event S M)

namespace History

variable (past later : History S M) (index : Nat)

/-- The nodes that were expanded. -/
def expandedNodes : List (Node S M) :=
  past.filterMap fun
    | (_, .expanded n) => some n
    | _ => none

/-- The states that were expanded. -/
def expansions : List S := past.expandedNodes.map Node.state

/-- The nodes that were offered to the slot. -/
def offers : List (Node S M) :=
  past.filterMap fun
    | (_, .offered n) => some n
    | _ => none

/-- The nodes that were taken from the queue. -/
def takings : List (Node S M) :=
  past.filterMap fun
    | (_, .took n) => some n
    | _ => none

/-- The nodes that were handed in. -/
def handedIn : List (Node S M) :=
  past.flatMap fun
    | (_, .completed _ children) => children
    | _ => []

/-- The nodes that one worker took. -/
def takenBy : List (Node S M) :=
  past.filterMap fun
    | (i, .took n) => if i = index then some n else none
    | _ => none

/-- The nodes whose tasks one worker completed. -/
def completedBy : List (Node S M) :=
  past.filterMap fun
    | (i, .completed n _) => if i = index then some n else none
    | _ => none

/-- What the failing tasks are to be blamed for. -/
def failures : List WorkerFault :=
  past.filterMap fun
    | (i, .failed n fault) => some ⟨i, n.depth, fault.report⟩
    | _ => none

@[simp] theorem expandedNodes_append :
    expandedNodes (past ++ later) = past.expandedNodes ++ later.expandedNodes := List.filterMap_append

@[simp] theorem expansions_append :
    expansions (past ++ later) = past.expansions ++ later.expansions := by
  rw [expansions, expandedNodes_append, List.map_append]
  rfl

@[simp] theorem offers_append : offers (past ++ later) = past.offers ++ later.offers :=
  List.filterMap_append

@[simp] theorem takings_append : takings (past ++ later) = past.takings ++ later.takings :=
  List.filterMap_append

@[simp] theorem handedIn_append : handedIn (past ++ later) = past.handedIn ++ later.handedIn :=
  List.flatMap_append

@[simp] theorem takenBy_append :
    takenBy (past ++ later) index = past.takenBy index ++ later.takenBy index := List.filterMap_append

@[simp] theorem completedBy_append :
    completedBy (past ++ later) index = past.completedBy index ++ later.completedBy index :=
  List.filterMap_append

@[simp] theorem failures_append : failures (past ++ later) = past.failures ++ later.failures :=
  List.filterMap_append

end History

/-- What a step of a task on `n` means for the node. -/
def Stage.event? (n : Node S M) (stage : Stage S M) : Progress S M → Option (Event S M)
  | .goal => some (.reached n)
  | .failed fault => some (.failed n fault)
  | .onward _ | .children _ | .skipped =>
    match stage with
    | count => some (.expanded n)
    | _ => none

namespace Pool

variable [DecidableEq S] [Hashable S] [Frontier F (Node S M)] [Coin ρ] {p : Problem ω S M}
  {claiming : Claiming} {pool next : Pool ω S M F ρ} {actor : Actor}
  {shared : Shared ω S M F} {before after : List (Worker S M ρ)} {w : Worker S M ρ}
  {waiting : Waiting S M}

/-- What the next step of a worker means for the node it has. -/
def eventOf (p : Problem ω S M) (claiming : Claiming) (shared : Shared ω S M F)
    (worker : Worker S M ρ) : Option (Event S M) :=
  match worker.phase with
  | .idle =>
    match (shared.queue.take shared.stopped : Taking F (Node S M)) with
    | .taken n _ => some (.took n)
    | .refused | .blocked => none
  | .working n stage => stage.event? n (stage.step p claiming n shared).1
  | .announce n => if shared.slot.flag then some (.offered n) else none
  | .publish n => some (.offered n)
  | .complete n children =>
    match shared.queue.complete children worker.coin with
    | .ok _ => some (.completed n children)
    | .error _ => none
  | .close _ | .judgeFlag .. | .judgeStop .. | .blame .. | .exhaust | .ended | .broken .. => none

/-- What happens when the actor has its turn. -/
def events (p : Problem ω S M) (claiming : Claiming) (pool : Pool ω S M F ρ) :
    Actor → History S M
  | .worker index =>
    ((pool.workers[index]?.bind (eventOf p claiming pool.shared)).map fun event => (index, event)).toList
  | .waiter | .outsider => []

/-- What happens while these actors have their turns. -/
def history (p : Problem ω S M) (claiming : Claiming) : Pool ω S M F ρ → List Actor → History S M
  | _, [] => []
  | pool, actor :: actors => pool.events p claiming actor ++
      history p claiming ((pool.step p claiming actor).getD pool) actors

theorem events_middle : events p claiming ⟨shared, before ++ w :: after, waiting⟩
    (.worker before.length) =
      ((eventOf p claiming shared w).map fun event => (before.length, event)).toList := by
  simp only [events, getElem?_middle, Option.bind_some]

/-- Nothing happens when somebody has nothing to do. -/
theorem events_of_step_eq_none (hs : pool.step p claiming actor = none) :
    pool.events p claiming actor = [] := by
  obtain ⟨shared, workers, waiting⟩ := pool
  cases actor with
  | worker index =>
    cases hw : workers[index]? with
    | none => simp only [events, hw, Option.bind_none, Option.map_none, Option.toList_none]
    | some worker =>
      have hnone : stepWorker p claiming index worker shared = none := by
        cases hstep : stepWorker p claiming index worker shared with
        | none => rfl
        | some result => simp [step, hw, hstep] at hs
      have hevent : eventOf p claiming shared worker = none := by
        obtain ⟨phase, coin⟩ := worker
        cases phase with
        | idle =>
          simp only [stepWorker] at hnone
          split at hnone
          · cases hnone
          · rename_i hb
            simp only [eventOf, hb]
          · cases hnone
        | complete n children =>
          simp only [stepWorker] at hnone
          split at hnone <;> cases hnone
        | ended | broken => rfl
        | _ => cases hnone
      simp only [events, hw, Option.bind_some, hevent, Option.map_none, Option.toList_none]
  | waiter => rfl
  | outsider => rfl

theorem history_append (actors later : List Actor) :
    pool.history p claiming (actors ++ later) =
      pool.history p claiming actors ++ (pool.follow p claiming actors).history p claiming later := by
  induction actors generalizing pool with
  | nil => rfl
  | cons actor actors ih =>
    show pool.events p claiming actor ++ history p claiming _ (actors ++ later) = _
    rw [ih, ← List.append_assoc]
    rfl

/-- What every step keeps, of the pool and of what happened so far, is true after a run. -/
theorem history_induction {I : History S M → Pool ω S M F ρ → Prop}
    (hstep : ∀ past pool next actor, I past pool → pool.step p claiming actor = some next →
      I (past ++ pool.events p claiming actor) next)
    (h : I [] pool) (actors : List Actor) :
    I (pool.history p claiming actors) (pool.follow p claiming actors) := by
  suffices ∀ past (pool : Pool ω S M F ρ), I past pool →
      I (past ++ pool.history p claiming actors) (pool.follow p claiming actors) from this [] pool h
  clear h
  intro past pool h
  induction actors generalizing past pool with
  | nil =>
    rw [history, List.append_nil]
    exact h
  | cons actor actors ih =>
    show I (past ++ (pool.events p claiming actor ++ _))
      (((pool.step p claiming actor).getD pool).follow p claiming actors)
    rw [← List.append_assoc]
    refine ih _ _ ?_
    cases hs : pool.step p claiming actor with
    | none =>
      rw [events_of_step_eq_none hs, List.append_nil]
      exact h
    | some next => exact hstep past pool next actor h hs

end Pool

end StateSearch
