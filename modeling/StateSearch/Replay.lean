import StateSearch.Problem

/-!
# Replaying paths

A path is checked by playing it: each move has to be among the legal moves of the state it is played
in. `replay` gives the state a list of moves leads to, and `isSolution` asks in addition whether that
state is a goal and whether the path costs what it claims. Moves are compared by their own equality,
under which a move need not even be equal to itself.
-/

namespace StateSearch.Problem

variable {ω S M : Type} [BEq M]

/-- Play `moves` one after the other from `state`. The answer is the final state, or `none` at the
first move that is not legal. -/
def replayFrom (p : Problem ω S M) (state : S) : List M → Call ω (Option S)
  | [] => return some state
  | move :: rest => do
    if (← p.legalMoves state).any (· == move) then
      p.replayFrom (← p.applyMove state move) rest
    else
      return none

/-- Play `moves` from the initial state. -/
def replay (p : Problem ω S M) (moves : List M) : Call ω (Option S) :=
  p.replayFrom p.initial moves

/-- Whether playing `moves` from `state`, with `spent` paid so far, ends in a goal at a cost of
exactly `cost`. -/
def isSolutionFrom (p : Problem ω S M) (cost : Cost) (state : S) (spent : Cost) :
    List M → Call ω Bool
  | [] => if spent = cost then p.isGoal state else return false
  | move :: rest => do
    if (← p.legalMoves state).any (· == move) then
      let spent := Cost.plus spent (← p.moveCost state move)
      p.isSolutionFrom cost (← p.applyMove state move) spent rest
    else
      return false

/-- Whether `path` is legal, ends in a goal and costs what it claims. -/
def isSolution (p : Problem ω S M) (path : Path M) : Call ω Bool :=
  p.isSolutionFrom path.cost p.initial 0 path.moves

end StateSearch.Problem
