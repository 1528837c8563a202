import StateSearch.Pool.Slot
import StateSearch.Pool.WorkQueue
import StateSearch.Problem

/-!
# What the workers of a pool share

The world of the problem, the stop flag, the record of seen states, the work queue, the slot for the
goal, the counters and the list of faults. Every change to it is made by one worker at one moment.

Unlike those of a search without workers (`Stats.increment`), the counters here are numbers without
bound, so that counting never fails a task. A pool that keeps them in 64-bit words runs like this one
as long as they stay below `Stats.counterLimit`.
-/

namespace StateSearch

/-- The state that all workers of a pool see. -/
structure Shared (ω S M F : Type) [DecidableEq S] [Hashable S] where
  world : ω
  stopped : Bool := false
  queue : WorkQueue F
  seen : Std.HashSet S := ∅
  slot : Slot (Node S M) := {}
  /-- The faults so far, the latest first. -/
  faults : List WorkerFault := []
  /-- How many states were expanded, without bound, as are the two counters below. -/
  expanded : Nat := 0
  generated : Nat := 0
  duplicates : Nat := 0

namespace Shared

variable {ω S M F α : Type} [DecidableEq S] [Hashable S]

/-- Make a call to the problem. -/
def ask (call : Call ω α) (shared : Shared ω S M F) : Except Fault α × Shared ω S M F :=
  let reply := call shared.world
  (reply.result,
    { shared with world := reply.world, stopped := shared.stopped || reply.raisesStop })

/-- Record a state. The flag says whether it was absent before. -/
def record (shared : Shared ω S M F) (state : S) : Bool × Shared ω S M F :=
  let (absent, seen) := SeenSet.insert shared.seen state
  (absent, { shared with seen })

def addFault (shared : Shared ω S M F) (fault : WorkerFault) : Shared ω S M F :=
  { shared with faults := fault :: shared.faults }

end Shared

end StateSearch
