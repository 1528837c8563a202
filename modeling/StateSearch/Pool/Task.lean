import StateSearch.Pool.Shared

/-!
# The tasks of a pool

A task is the work on one node, outside the lock of the queue. It is done in steps, each of which
touches the shared state at most once, and between two steps other workers may do theirs. A `Stage`
says what a task is going to do next and holds what it has found so far.

There are two ways of making sure that no state is expanded twice (`Claiming`). A state can be claimed
when it is generated: a node is made only for states that were not recorded before. Or it can be
claimed when its node is taken: a node whose state was recorded meanwhile is dropped.
-/

namespace StateSearch

/-- When a state is claimed for one node. -/
inductive Claiming where
  | whenGenerated
  | whenTaken
  deriving DecidableEq, Repr

/-- An expansion that is under way. -/
structure Sweep (S M : Type) where
  /-- The number of the expansion. -/
  tries : Nat
  /-- The moves that have not been tried yet. -/
  rest : List M
  /-- The nodes made so far, the latest first. -/
  children : List (Node S M) := []

/-- What a task is going to do next. -/
inductive Stage (S M : Type) where
  /-- Ask how to find out whether the node's state is claimed already. -/
  | claim
  /-- Go on finding out whether the node's state is claimed already. -/
  | claimBy (query : SeenQuery S)
  /-- Count the node as a duplicate. -/
  | drop
  /-- Count the expansion. -/
  | count
  /-- Ask whether the node's state is a goal. -/
  | test (tries : Nat)
  /-- Ask for the moves. -/
  | list (tries : Nat)
  /-- Look whether a goal has been found. -/
  | lookAtFlag (sweep : Sweep S M) (move : M)
  /-- Look whether the search was asked to stop. -/
  | lookAtStop (sweep : Sweep S M) (move : M)
  | apply (sweep : Sweep S M) (move : M)
  /-- Count the state that was generated. -/
  | generate (sweep : Sweep S M) (move : M) (next : S)
  /-- Ask how to find out whether a generated state is claimed already. -/
  | screen (sweep : Sweep S M) (move : M) (next : S)
  /-- Go on finding out whether a generated state is claimed already. -/
  | screenBy (sweep : Sweep S M) (move : M) (next : S) (query : SeenQuery S)
  /-- Count a generated state as a duplicate. -/
  | discard (sweep : Sweep S M)
  /-- Ask what the move costs. -/
  | price (sweep : Sweep S M) (move : M) (next : S)
  /-- Ask for the estimate of a generated state. -/
  | estimate (sweep : Sweep S M) (move : M) (next : S) (step : Cost)
  /-- Tell the problem about the expansion. -/
  | report (sweep : Sweep S M)

/-- What a step of a task comes to. -/
inductive Progress (S M : Type) where
  /-- The task goes on. -/
  | onward (stage : Stage S M)
  | goal
  | children (nodes : List (Node S M))
  /-- The node's state was claimed by somebody else. -/
  | skipped
  | failed (fault : Fault)

namespace Sweep

variable {S M : Type}

/-- What comes next in an expansion: the next move, or the end. -/
def next (sweep : Sweep S M) : Stage S M :=
  match sweep.rest with
  | [] => .report sweep
  | move :: rest => .lookAtFlag { sweep with rest } move

/-- The sweep with one more node. -/
def add (sweep : Sweep S M) (node : Node S M) : Sweep S M :=
  { sweep with children := node :: sweep.children }

end Sweep

namespace Claiming

/-- The stage a task begins with. -/
def begin (S M : Type) : Claiming → Stage S M
  | whenGenerated => .count
  | whenTaken => .claim

end Claiming

namespace Stage

variable {ω S M F : Type} [DecidableEq S] [Hashable S]

/-- One step of a conversation with the shared record of seen states. The continuation gets the rest
of the conversation, or its outcome. -/
def converse (query : SeenQuery S) (shared : Shared ω S M F)
    (continued : SeenQuery S → Progress S M) (known absent : Progress S M) :
    Progress S M × Shared ω S M F :=
  match query with
  | .answer true => (known, shared)
  | .answer false => (absent, shared)
  | .fail fault => (.failed fault, shared)
  | .insert state next =>
    let (fresh, shared) := shared.record state
    (continued (next fresh), shared)
  | .contains state next => (continued (next (SeenSet.contains shared.seen state)), shared)
  | .size next => (continued (next (SeenSet.size shared.seen)), shared)

/-- Make a call, and go on if it is answered. -/
def calling {α : Type} (call : Call ω α) (shared : Shared ω S M F) (onward : α → Progress S M) :
    Progress S M × Shared ω S M F :=
  match shared.ask call with
  | (.ok value, shared) => (onward value, shared)
  | (.error fault, shared) => (.failed fault, shared)

/-- Take one step of the task on `node`. -/
def step (p : Problem ω S M) (claiming : Claiming) (node : Node S M) (shared : Shared ω S M F) :
    Stage S M → Progress S M × Shared ω S M F
  | claim => calling (p.alreadySeen node.state) shared fun query => .onward (.claimBy query)
  | claimBy query =>
    converse query shared (fun query => .onward (.claimBy query)) (.onward .drop) (.onward .count)
  | drop => (.skipped, { shared with duplicates := shared.duplicates + 1 })
  | count => (.onward (.test (shared.expanded + 1)), { shared with expanded := shared.expanded + 1 })
  | test tries =>
    calling (p.isGoal node.state) shared fun reached =>
      if reached then .goal else .onward (.list tries)
  | list tries =>
    calling (p.legalMoves node.state) shared fun moves => .onward (Sweep.next { tries, rest := moves })
  | lookAtFlag sweep move =>
    (if shared.slot.flag then .onward (.report sweep) else .onward (.lookAtStop sweep move), shared)
  | lookAtStop sweep move =>
    (if shared.stopped then .onward (.report sweep) else .onward (.apply sweep move), shared)
  | apply sweep move =>
    calling (p.applyMove node.state move) shared fun next => .onward (.generate sweep move next)
  | generate sweep move next =>
    (.onward (match claiming with
      | .whenGenerated => .screen sweep move next
      | .whenTaken => .screenBy sweep move next (.lookUp next)),
      { shared with generated := shared.generated + 1 })
  | screen sweep move next =>
    calling (p.alreadySeen next) shared fun query => .onward (.screenBy sweep move next query)
  | screenBy sweep move next query =>
    converse query shared (fun query => .onward (.screenBy sweep move next query))
      (.onward (.discard sweep)) (.onward (.price sweep move next))
  | discard sweep => (.onward sweep.next, { shared with duplicates := shared.duplicates + 1 })
  | price sweep move next =>
    calling (p.moveCost node.state move) shared fun step =>
      match claiming with
      | .whenGenerated => .onward (sweep.add (node.child next move step 0)).next
      | .whenTaken => .onward (.estimate sweep move next step)
  | estimate sweep move next step =>
    calling (p.heuristic next) shared fun remaining =>
      .onward (sweep.add (node.child next move step remaining)).next
  | report sweep =>
    calling (p.onProgress node.state sweep.tries) shared fun _ => .children sweep.children.reverse

end Stage

end StateSearch
