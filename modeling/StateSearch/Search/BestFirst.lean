import StateSearch.Search.Arena
import StateSearch.Search.OpenList

/-!
# Best-first search

The A* search. Nodes wait in an open list and the one of least estimate is taken. A state is closed
at its path cost when its node is taken, not when it is generated, and it is opened again when a
cheaper way to it turns up later. Every turn that goes on counts an expansion or a duplicate, and
counters are bounded, so the search ends (`room_of_turn`).
-/

namespace StateSearch.BestFirst

open Act

variable {ω S M : Type} [DecidableEq S] [Hashable S]

/-- Apply `moves` to `node`. A node joins the open list unless its state was closed at most as
dearly before. -/
def explore (p : Problem ω S M) (node : Node S M) (closed : Std.HashMap S Cost) :
    List M → OpenList S M → Act ω (OpenList S M)
  | [], waiting => return waiting
  | move :: rest, waiting => do
    let next ← ask (p.applyMove node.state move)
    countGenerated
    let step ← ask (p.moveCost node.state move)
    if ClosedAt.holds closed next (Cost.plus node.pathCost step) then
      countDuplicate
      explore p node closed rest waiting
    else
      let remaining ← ask (p.heuristic next)
      explore p node closed rest (waiting.push (node.child next move step remaining))

/-- What a turn comes to. -/
inductive Turn (S M : Type) [DecidableEq S] [Hashable S] where
  /-- Nothing waits any more. -/
  | exhausted
  /-- The search was asked to stop. -/
  | stopped
  | found (goal : Node S M)
  /-- The search goes on with these lists. -/
  | onward (closed : Std.HashMap S Cost) (waiting : OpenList S M)

/-- Expand one node: count it, end if it is a goal, else generate what can be reached from it. -/
def expand (p : Problem ω S M) (node : Node S M) (closed : Std.HashMap S Cost)
    (waiting : OpenList S M) : Act ω (Turn S M) := do
  let tries ← countExpanded
  if ← ask (p.isGoal node.state) then
    return .found node
  else
    let moves ← ask (p.legalMoves node.state)
    let waiting ← explore p node closed moves waiting
    ask (p.onProgress node.state tries)
    return .onward closed waiting

/-- Close the node's state at its path cost and expand the node, or drop it as a duplicate. -/
def claim (p : Problem ω S M) (node : Node S M) (closed : Std.HashMap S Cost)
    (waiting : OpenList S M) : Act ω (Turn S M) := do
  let (known, closed) ← inquire p node.state (⟨closed, node.pathCost⟩ : ClosedAt S)
  if known then
    countDuplicate
    return .onward closed.best waiting
  else
    expand p node closed.best waiting

/-- Take the next node, unless there is none or the search was asked to stop, and claim it. -/
def turn (p : Problem ω S M) (closed : Std.HashMap S Cost) (waiting : OpenList S M) :
    Act ω (Turn S M) :=
  match waiting.pop? with
  | none => return .exhausted
  | some (node, waiting) => do
    if ← isStopped then return .stopped else claim p node closed waiting

/-! ### A turn that goes on uses up room -/

/-- How many more expansions and duplicates can be counted. -/
def room (arena : Arena ω) : Nat :=
  Stats.room arena.stats.expanded + Stats.room arena.stats.duplicates

theorem explore_keeps_expanded (p : Problem ω S M) (node : Node S M) (closed : Std.HashMap S Cost)
    (moves : List M) (waiting : OpenList S M) :
    Keeps (fun arena : Arena ω => arena.stats.expanded) (explore p node closed moves waiting) := by
  induction moves generalizing waiting with
  | nil => exact .pure _
  | cons move rest ih =>
    refine .bind (.of_stats _ (.ask_stats _)) fun next => ?_
    refine .bind .countGenerated_expanded fun _ => ?_
    refine .bind (.of_stats _ (.ask_stats _)) fun step => ?_
    split
    · exact .bind .countDuplicate_expanded fun _ => ih _
    · exact .bind (.of_stats _ (.ask_stats _)) fun _ => ih _

theorem explore_grows_duplicates (p : Problem ω S M) (node : Node S M)
    (closed : Std.HashMap S Cost) (moves : List M) (waiting : OpenList S M) :
    Grows (fun arena : Arena ω => arena.stats.duplicates) (explore p node closed moves waiting) := by
  induction moves generalizing waiting with
  | nil => exact .pure _
  | cons move rest ih =>
    refine .bind (Keeps.of_stats _ (.ask_stats _)).grows fun next => ?_
    refine .bind .countGenerated fun _ => ?_
    refine .bind (Keeps.of_stats _ (.ask_stats _)).grows fun step => ?_
    split
    · exact .bind .countDuplicate fun _ => ih _
    · exact .bind (Keeps.of_stats _ (.ask_stats _)).grows fun _ => ih _

theorem room_of_expand {p : Problem ω S M} {node : Node S M} {closed : Std.HashMap S Cost}
    {waiting : OpenList S M} {result : Turn S M} {arena arena' : Arena ω}
    (h : expand p node closed waiting arena = .ok result arena') : room arena' < room arena := by
  have hd : arena.stats.duplicates ≤ arena'.stats.duplicates := by
    have : Grows (fun arena : Arena ω => arena.stats.duplicates)
        (expand p node closed waiting) := by
      refine .bind .countExpanded fun count => ?_
      refine .bind (Keeps.of_stats _ (.ask_stats _)).grows fun goal => ?_
      cases goal
      · refine .bind (Keeps.of_stats _ (.ask_stats _)).grows fun moves => ?_
        refine .bind (explore_grows_duplicates _ _ _ _ _) fun _ => ?_
        exact .bind (Keeps.of_stats _ (.ask_stats _)).grows fun _ => .pure _
      · exact .pure _
    simpa [h, arenaAfter] using this arena
  have he := Stats.increment_eq_ok <| increment_of_countExpanded (fun count => by
    refine .bind (.of_stats _ (.ask_stats _)) fun goal => ?_
    cases goal
    · refine .bind (.of_stats _ (.ask_stats _)) fun moves => ?_
      refine .bind (explore_keeps_expanded _ _ _ _ _) fun _ => ?_
      exact .bind (.of_stats _ (.ask_stats _)) fun _ => .pure _
    · exact .pure _) h
  unfold room Stats.room
  omega

theorem room_of_turn {p : Problem ω S M} {closed closed' : Std.HashMap S Cost}
    {waiting waiting' : OpenList S M} {arena arena' : Arena ω}
    (h : turn p closed waiting arena = .ok (.onward closed' waiting') arena') :
    room arena' < room arena := by
  unfold turn at h
  cases hd : waiting.pop? with
  | none => simp [hd, pure, EStateM.pure] at h
  | some taken =>
    simp only [hd, isStopped, bind, EStateM.bind] at h
    cases hs : arena.stopped with
    | true => simp [hs, pure, EStateM.pure] at h
    | false =>
      simp only [hs, Bool.false_eq_true, if_false, claim] at h
      obtain ⟨⟨known, claimed⟩, middle, hi, hn⟩ := of_bind_eq_ok h
      have hk := (Keeps.inquire_stats _ _ _).of_eq_ok hi
      cases known with
      | true =>
        simp only [if_true, bind, EStateM.bind, countDuplicate] at hn
        cases hc : Stats.increment middle.stats.duplicates with
        | error fault => simp [hc] at hn
        | ok count =>
          simp only [hc, pure, EStateM.pure, EStateM.Result.ok.injEq] at hn
          have := Stats.increment_eq_ok hc
          rw [hk] at this
          simp only [← hn.2, room, Stats.room, hk]
          omega
      | false =>
        have := room_of_expand hn
        simpa [room, hk] using this

/-! ### The whole search -/

/-- Take turns until the search ends. The result is the goal, if one was found. -/
def run (p : Problem ω S M) (closed : Std.HashMap S Cost) (waiting : OpenList S M) :
    Act ω (Option (Node S M)) := fun arena =>
  match h : turn p closed waiting arena with
  | .ok (.onward closed waiting) arena' =>
    have := room_of_turn h
    run p closed waiting arena'
  | .ok (.found goal) arena' => .ok (some goal) arena'
  | .ok _ arena' => .ok none arena'
  | .error fault arena' => .error fault arena'
termination_by arena => room arena

/-- Search from the initial state. The result is a path to a goal, or `none` if there is none or the
search was stopped. -/
def solve (p : Problem ω S M) : Act ω (Option (Path M)) := do
  let remaining ← ask (p.heuristic p.initial)
  let goal ← run p ∅ (OpenList.empty.push (.root p.initial remaining))
  conclude p goal

end StateSearch.BestFirst
