import StateSearch.Pool.Frontier

/-!
# The work queue of a pool

Workers take nodes from a common frontier, and when they are done with a node they hand in the nodes
that were found from it. The queue counts the tasks that are waiting or being worked on. When the
last of them is done there will never be another one, and the queue closes.

Each operation is done under a lock, at one moment. `complete` checks its own bookkeeping; a
`QueueError` says that somebody handed in a task that was never taken, or that the count went wrong.
-/

namespace StateSearch

open StateSearch.Random

/-- A frontier shared by workers. -/
structure WorkQueue (F : Type) where
  frontier : F
  /-- How many nodes have been taken and are not done yet. -/
  inFlight : Nat := 0
  /-- The layer of the nodes that were taken last. -/
  layer : Option Nat := none
  closed : Bool := false
  /-- How many tasks are waiting or being worked on, counted apart from the frontier. -/
  outstanding : Nat := 0

/-- How the bookkeeping of a queue was found to be wrong. -/
inductive QueueError where
  /-- A task was completed while none was being worked on. -/
  | nothingInFlight
  /-- The number of outstanding tasks is not the number of those waiting and those in flight. -/
  | miscounted (counted actual : Nat)
  deriving DecidableEq, Repr

/-- What a worker gets who asks for a node. -/
inductive Taking (F N : Type) where
  /-- There will be no more nodes. -/
  | refused
  /-- No node may be taken now. -/
  | blocked
  | taken (node : N) (queue : WorkQueue F)

namespace WorkQueue

variable {F N ρ : Type} [Frontier F N] [Coin ρ]

/-- Put in the node a search starts from. -/
def seed (queue : WorkQueue F) (root : N) (coin : ρ) : WorkQueue F × ρ :=
  let (frontier, coin) := Frontier.push queue.frontier root coin
  ({ queue with frontier, outstanding := queue.outstanding + 1 }, coin)

/-- Whether a node may be taken now. While nodes are in flight, it has to belong to their layer. -/
def canTake (queue : WorkQueue F) : Bool :=
  match Frontier.peek? queue.frontier with
  | none => false
  | some next =>
    queue.inFlight == 0 ||
      match queue.layer, Frontier.layerOf queue.frontier next with
      | some current, some layer => layer == current
      | _, _ => true

/-- Whether one who asks for a node has to wait. -/
def isBlocked (queue : WorkQueue F) (stopped : Bool) : Bool :=
  !(queue.closed || stopped || queue.canTake)

/-- Ask for a node. -/
def take (queue : WorkQueue F) (stopped : Bool) : Taking F N :=
  if queue.closed || stopped then .refused
  else if queue.canTake then
    match Frontier.pop? queue.frontier with
    | none => .refused
    | some (node, frontier) => .taken node { queue with
        frontier, layer := Frontier.layerOf frontier node, inFlight := queue.inFlight + 1 }
  else .blocked

theorem take_eq_blocked_iff {queue : WorkQueue F} {stopped : Bool} :
    queue.take stopped = (.blocked : Taking F N) ↔ queue.isBlocked stopped = true := by
  unfold take isBlocked
  cases hc : (queue.closed || stopped) <;> cases ht : queue.canTake <;> simp
  split <;> simp

/-- Hand in the nodes that were found from a node taken before. The flag says whether no task is left
anywhere; the queue is closed then. -/
def complete (queue : WorkQueue F) (children : List N) (coin : ρ) :
    Except QueueError (Bool × WorkQueue F × ρ) :=
  let (frontier, coin) := Frontier.pushAll queue.frontier children coin
  if queue.inFlight = 0 then .error .nothingInFlight
  else
    let inFlight := queue.inFlight - 1
    let left := Frontier.size frontier + inFlight
    -- The task that is handed in still counts as outstanding.
    let counted := queue.outstanding + children.length
    if counted ≠ left + 1 then .error (.miscounted counted (left + 1))
    else
      let exhausted := left == 0
      .ok (exhausted,
        { frontier, inFlight
          outstanding := counted - 1
          layer := if inFlight = 0 then none else queue.layer
          closed := queue.closed || exhausted },
        coin)

/-- Hand out no more nodes. -/
def close (queue : WorkQueue F) : WorkQueue F := { queue with closed := true }

end WorkQueue

end StateSearch
