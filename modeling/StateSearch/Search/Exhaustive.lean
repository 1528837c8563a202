import StateSearch.Search.Arena
import StateSearch.Search.Deque

/-!
# Exhaustive search

Depth-first and breadth-first search. States are recorded when they are generated, and a node whose
state is new waits in a queue; the discipline says which waiting node is taken next. A turn takes one
node and expands it. Every turn that goes on counts an expansion, and counters are bounded, so the
search ends (`turn_onward`).
-/

namespace StateSearch

/-- Which waiting node is taken next. -/
inductive Discipline where
  /-- The newest one. -/
  | depthFirst
  /-- The oldest one. -/
  | breadthFirst
  deriving DecidableEq, Repr

/-- Take the node that is next. -/
def Discipline.take? {α : Type} : Discipline → Deque α → Option (α × Deque α)
  | depthFirst, queue => queue.popBack?
  | breadthFirst, queue => queue.popFront?

namespace Exhaustive

open Act

variable {ω S M : Type} [DecidableEq S] [Hashable S]

/-- Apply `moves` to `node`. The states that are new are recorded, and their nodes join the queue. -/
def explore (p : Problem ω S M) (node : Node S M) :
    List M → Std.HashSet S → Deque (Node S M) → Act ω (Std.HashSet S × Deque (Node S M))
  | [], seen, waiting => return (seen, waiting)
  | move :: rest, seen, waiting => do
    let next ← ask (p.applyMove node.state move)
    countGenerated
    let (known, seen) ← inquire p next seen
    if known then
      countDuplicate
      explore p node rest seen waiting
    else
      let step ← ask (p.moveCost node.state move)
      explore p node rest seen (waiting.pushBack (node.child next move step 0))

/-- What a turn comes to. -/
inductive Turn (S M : Type) [DecidableEq S] [Hashable S] where
  /-- Nothing waits any more. -/
  | exhausted
  /-- The search was asked to stop. -/
  | stopped
  | found (goal : Node S M)
  /-- The search goes on with these lists. -/
  | onward (seen : Std.HashSet S) (waiting : Deque (Node S M))

/-- Expand one node: count it, end if it is a goal, else generate what can be reached from it. -/
def expand (p : Problem ω S M) (node : Node S M) (seen : Std.HashSet S)
    (waiting : Deque (Node S M)) : Act ω (Turn S M) := do
  let tries ← countExpanded
  if ← ask (p.isGoal node.state) then
    return .found node
  else
    let moves ← ask (p.legalMoves node.state)
    let (seen, waiting) ← explore p node moves seen waiting
    ask (p.onProgress node.state tries)
    return .onward seen waiting

/-- Take the next node, unless there is none or the search was asked to stop, and expand it. -/
def turn (d : Discipline) (p : Problem ω S M) (seen : Std.HashSet S)
    (waiting : Deque (Node S M)) : Act ω (Turn S M) :=
  match d.take? waiting with
  | none => return .exhausted
  | some (node, waiting) => do
    if ← isStopped then return .stopped else expand p node seen waiting

/-! ### A turn that goes on counts an expansion -/

theorem explore_keeps_expanded (p : Problem ω S M) (node : Node S M) (moves : List M)
    (seen : Std.HashSet S) (waiting : Deque (Node S M)) :
    Keeps (fun arena : Arena ω => arena.stats.expanded) (explore p node moves seen waiting) := by
  induction moves generalizing seen waiting with
  | nil => exact .pure _
  | cons move rest ih =>
    refine .bind (.of_stats _ (.ask_stats _)) fun next => ?_
    refine .bind .countGenerated_expanded fun _ => ?_
    refine .bind (.of_stats _ (.inquire_stats _ _ _)) fun (known, seen) => ?_
    cases known
    · exact .bind (.of_stats _ (.ask_stats _)) fun _ => ih _ _
    · exact .bind .countDuplicate_expanded fun _ => ih _ _

theorem increment_of_turn {d : Discipline} {p : Problem ω S M} {seen seen' : Std.HashSet S}
    {waiting waiting' : Deque (Node S M)} {arena arena' : Arena ω}
    (h : turn d p seen waiting arena = .ok (.onward seen' waiting') arena') :
    Stats.increment arena.stats.expanded = .ok arena'.stats.expanded := by
  unfold turn at h
  cases hd : d.take? waiting with
  | none => simp [hd, pure, EStateM.pure] at h
  | some taken =>
    simp only [hd, isStopped, bind, EStateM.bind] at h
    cases hs : arena.stopped with
    | true => simp [hs, pure, EStateM.pure] at h
    | false =>
      simp only [hs] at h
      refine increment_of_countExpanded (fun count => ?_) h
      refine .bind (.of_stats _ (.ask_stats _)) fun goal => ?_
      cases goal
      · refine .bind (.of_stats _ (.ask_stats _)) fun moves => ?_
        refine .bind (explore_keeps_expanded _ _ _ _ _) fun _ => ?_
        exact .bind (.of_stats _ (.ask_stats _)) fun _ => .pure _
      · exact .pure _

/-! ### The whole search -/

/-- Take turns until the search ends. The result is the goal, if one was found. -/
def run (d : Discipline) (p : Problem ω S M) (seen : Std.HashSet S) (waiting : Deque (Node S M)) :
    Act ω (Option (Node S M)) := fun arena =>
  match h : turn d p seen waiting arena with
  | .ok (.onward seen waiting) arena' =>
    have : Stats.room arena'.stats.expanded < Stats.room arena.stats.expanded := by
      have := Stats.increment_eq_ok (increment_of_turn h)
      unfold Stats.room
      omega
    run d p seen waiting arena'
  | .ok (.found goal) arena' => .ok (some goal) arena'
  | .ok _ arena' => .ok none arena'
  | .error fault arena' => .error fault arena'
termination_by arena => Stats.room arena.stats.expanded

/-- Search from the initial state. The result is a path to a goal, or `none` if there is none or the
search was stopped. -/
def solve (d : Discipline) (p : Problem ω S M) : Act ω (Option (Path M)) := do
  let (_, seen) ← inquire p p.initial (∅ : Std.HashSet S)
  let goal ← run d p seen (Deque.empty.pushBack (.root p.initial 0))
  conclude p goal

end Exhaustive

end StateSearch
