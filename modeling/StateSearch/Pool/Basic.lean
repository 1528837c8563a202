import StateSearch.Pool.Task

/-!
# A pool of workers

Several workers search together. Each of them takes a node from the queue, does its task and hands in
the nodes found from it, until the queue is closed or the search is stopped. Somebody waits for the
outcome: until the slot is resolved or the search is stopped; then the queue is closed.

`step` says what one actor does next, and nothing about when: a run of the pool is given by the order
in which the actors take their steps, which may be any list of actors (`follow`).
-/

namespace StateSearch

open StateSearch.Random

/-- What a worker is going to do next. -/
inductive Phase (S M : Type) where
  /-- Ask the queue for a node. -/
  | idle
  | working (node : Node S M) (stage : Stage S M)
  /-- Having found a goal, look whether there is one already. -/
  | announce (node : Node S M)
  /-- Put the goal into the slot. -/
  | publish (node : Node S M)
  /-- Having put the goal into the slot, close the queue. -/
  | close (node : Node S M)
  /-- Look whether a goal has been found before handing in nodes. -/
  | judgeFlag (node : Node S M) (children : List (Node S M))
  /-- Look whether the search was asked to stop before handing in nodes. -/
  | judgeStop (node : Node S M) (children : List (Node S M))
  /-- Report that the task on the node failed. -/
  | blame (node : Node S M) (fault : Fault)
  /-- Complete the task on `node` and hand in these nodes. -/
  | complete (node : Node S M) (children : List (Node S M))
  /-- Having completed the last task, say that there will be no goal. -/
  | exhaust
  | ended
  /-- The queue found its bookkeeping wrong when the task on `node` was completed. -/
  | broken (node : Node S M) (error : QueueError)

/-- What the one who waits for the outcome is going to do next. -/
inductive Waiting (S M : Type) where
  /-- Look at the slot. -/
  | poll
  /-- Look whether the search was asked to stop. -/
  | lookAtStop
  /-- Close the queue. -/
  | close (outcome : Option (Node S M))
  | ended (outcome : Option (Node S M))

/-- A worker: what it does next, and the coin it tosses. -/
structure Worker (S M ρ : Type) where
  phase : Phase S M := .idle
  coin : ρ

/-- The workers, the one who waits, and what they share. -/
structure Pool (ω S M F ρ : Type) [DecidableEq S] [Hashable S] where
  shared : Shared ω S M F
  workers : List (Worker S M ρ)
  waiting : Waiting S M := .poll

/-- Who takes a step. -/
inductive Actor where
  | worker (index : Nat)
  /-- The one who waits for the outcome. -/
  | waiter
  /-- Somebody outside the pool, who raises the stop flag. -/
  | outsider
  deriving DecidableEq, Repr

namespace Pool

variable {ω S M F ρ : Type} [DecidableEq S] [Hashable S] [Frontier F (Node S M)] [Coin ρ]

/-- What follows a step of a task. -/
def afterTask (node : Node S M) : Progress S M → Phase S M
  | .onward stage => .working node stage
  | .goal => .announce node
  | .children nodes => .judgeFlag node nodes
  | .skipped => .complete node []
  | .failed fault => .blame node fault

/-- The next step of worker `index`. There is none if it has ended, or while it has to wait for a
node. -/
def stepWorker (p : Problem ω S M) (claiming : Claiming) (index : Nat) (worker : Worker S M ρ)
    (shared : Shared ω S M F) : Option (Worker S M ρ × Shared ω S M F) :=
  match worker.phase with
  | .idle =>
    match shared.queue.take shared.stopped with
    | .refused => some ({ worker with phase := .ended }, shared)
    | .blocked => none
    | .taken node queue =>
      some ({ worker with phase := .working node (claiming.begin S M) }, { shared with queue })
  | .working node stage =>
    let (progress, shared) := stage.step p claiming node shared
    some ({ worker with phase := afterTask node progress }, shared)
  | .announce node =>
    some ({ worker with
      phase := if shared.slot.flag then .complete node [] else .publish node }, shared)
  | .publish node =>
    let (won, slot) := shared.slot.assign node
    some ({ worker with phase := if won then .close node else .complete node [] },
      { shared with slot })
  | .close node =>
    some ({ worker with phase := .complete node [] }, { shared with queue := shared.queue.close })
  | .judgeFlag node children =>
    some ({ worker with
      phase := if shared.slot.flag then .complete node [] else .judgeStop node children }, shared)
  | .judgeStop node children =>
    some ({ worker with
      phase := .complete node (if shared.stopped then [] else children) }, shared)
  | .blame node fault =>
    some ({ worker with phase := .complete node [] },
      shared.addFault ⟨index, node.depth, fault.report⟩)
  | .complete node children =>
    match shared.queue.complete children worker.coin with
    | .ok (exhausted, queue, coin) =>
      some (⟨if exhausted then .exhaust else .idle, coin⟩, { shared with queue })
    | .error error => some ({ worker with phase := .broken node error }, shared)
  | .exhaust =>
    some ({ worker with phase := .idle }, { shared with slot := shared.slot.markExhausted })
  | .ended => none
  | .broken .. => none

/-- The next step of the one who waits for the outcome. -/
def stepWaiting (waiting : Waiting S M) (shared : Shared ω S M F) :
    Option (Waiting S M × Shared ω S M F) :=
  match waiting with
  | .poll =>
    match shared.slot.resolution? with
    | some outcome => some (.close outcome, shared)
    | none => some (.lookAtStop, shared)
  | .lookAtStop => some (if shared.stopped then .close none else .poll, shared)
  | .close outcome => some (.ended outcome, { shared with queue := shared.queue.close })
  | .ended _ => none

/-- The pool after the next step of an actor, unless the actor has nothing to do. -/
def step (p : Problem ω S M) (claiming : Claiming) (actor : Actor) :
    Pool ω S M F ρ → Option (Pool ω S M F ρ)
  | ⟨shared, workers, waiting⟩ =>
    match actor with
    | .worker index => do
      let worker ← workers[index]?
      let (worker, shared) ← stepWorker p claiming index worker shared
      return ⟨shared, workers.set index worker, waiting⟩
    | .waiter => do
      let (waiting, shared) ← stepWaiting waiting shared
      return ⟨shared, workers, waiting⟩
    | .outsider => some ⟨{ shared with stopped := true }, workers, waiting⟩

/-- The pool after these actors had their turns, one after the other. An actor who has nothing to do
is passed over. -/
def follow (p : Problem ω S M) (claiming : Claiming) (pool : Pool ω S M F ρ) (actors : List Actor) :
    Pool ω S M F ρ :=
  actors.foldl (fun pool actor => (pool.step p claiming actor).getD pool) pool

/-- A pool whose queue holds `root`, before anybody has done anything. Every worker has a coin. -/
def start (shared : Shared ω S M F) (coins : List ρ) : Pool ω S M F ρ where
  shared
  workers := coins.map fun coin => { coin }

/-- Whether a worker does nothing any more. -/
def Phase.isOver : Phase S M → Bool
  | .ended => true
  | .broken .. => true
  | _ => false

/-- What the pool found, once everybody has ended. -/
def outcome? (pool : Pool ω S M F ρ) : Option (Option (Node S M)) :=
  match pool.waiting with
  | .ended outcome =>
    if pool.workers.all fun worker => Phase.isOver worker.phase then some outcome else none
  | _ => none

end Pool

end StateSearch
