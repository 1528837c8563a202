import StateSearch.Cost
import StateSearch.Fault
import Std.Data.HashMap
import Std.Data.HashSet

/-!
# Sets of seen states

A search keeps a record of the states it has met. A problem decides through this record whether a
state is new, and it may do so in its own way: it asks a few questions of the record and then
answers. Such a conversation is a `SeenQuery`, and it can be held with any record that offers
`insert`, `contains` and `size`: a plain set, or the closed list of a best-first search seen at one
path cost (`ClosedAt`).
-/

namespace StateSearch

/-- A record of states that can be asked and extended. -/
class SeenSet (σ : Type) (S : outParam Type) where
  /-- Record a state. The flag says whether it was absent before. -/
  insert : σ → S → Bool × σ
  contains : σ → S → Bool
  size : σ → Nat

namespace SeenSet

/-- Whether nothing has been recorded. -/
def isEmpty {σ S : Type} [SeenSet σ S] (seen : σ) : Bool :=
  SeenSet.size seen == 0

instance {S : Type} [DecidableEq S] [Hashable S] : SeenSet (Std.HashSet S) S where
  insert seen state :=
    let (known, seen) := seen.containsThenInsert state
    (!known, seen)
  contains seen state := seen.contains state
  size seen := seen.size

end SeenSet

/-- A closed list seen from a node whose path cost is `cost`. A state counts as recorded when it was
closed at most as dearly. -/
structure ClosedAt (S : Type) [DecidableEq S] [Hashable S] where
  best : Std.HashMap S Cost
  cost : Cost

namespace ClosedAt

variable {S : Type} [DecidableEq S] [Hashable S]

/-- Whether `state` was closed at a cost of at most `cost`. -/
def holds (best : Std.HashMap S Cost) (state : S) (cost : Cost) : Bool :=
  match best[state]? with
  | some known => known ≤ cost
  | none => false

/-- Close `state` at the view's cost, unless it was closed at most as dearly before. -/
def insert (closed : ClosedAt S) (state : S) : Bool × ClosedAt S :=
  if holds closed.best state closed.cost then (false, closed)
  else (true, { closed with best := closed.best.insert state closed.cost })

instance : SeenSet (ClosedAt S) S where
  insert := insert
  contains closed state := holds closed.best state closed.cost
  size closed := closed.best.size

end ClosedAt

/-- A conversation with a record of seen states. It ends with the answer to "has this state, or one
that counts as the same, been recorded before?", or it fails. -/
inductive SeenQuery (S : Type) where
  | answer (known : Bool)
  | fail (fault : Fault)
  /-- Record a state and go on with whether it was absent. -/
  | insert (state : S) (next : Bool → SeenQuery S)
  /-- Go on with whether a state is recorded. -/
  | contains (state : S) (next : Bool → SeenQuery S)
  /-- Go on with the number of recorded states. -/
  | size (next : Nat → SeenQuery S)

namespace SeenQuery

variable {S σ : Type}

/-- Record the state and answer whether it was there before. -/
def record (state : S) : SeenQuery S :=
  insert state fun absent => answer (!absent)

/-- Ask whether the state is there, without recording it. -/
def lookUp (state : S) : SeenQuery S :=
  contains state answer

/-- Hold the conversation with a record. The record is kept also when the conversation fails. -/
def run [SeenSet σ S] : SeenQuery S → σ → Except Fault Bool × σ
  | answer known, seen => (.ok known, seen)
  | fail fault, seen => (.error fault, seen)
  | insert state next, seen =>
    let (absent, seen) := SeenSet.insert seen state
    (next absent).run seen
  | contains state next, seen => (next (SeenSet.contains seen state)).run seen
  | size next, seen => (next (SeenSet.size seen)).run seen

end SeenQuery

end StateSearch
