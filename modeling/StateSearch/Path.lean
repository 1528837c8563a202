import StateSearch.Cost

/-!
# Paths

A path is the answer of a search: the moves that lead from the initial state to a goal, with what
they cost together.
-/

namespace StateSearch

/-- The moves from the initial state to a goal, in the order they are played, and their cost. -/
structure Path (M : Type) where
  moves : List M
  cost : Cost
  deriving DecidableEq, Repr

namespace Path

variable {M : Type}

def length (path : Path M) : Nat := path.moves.length

def isEmpty (path : Path M) : Bool := path.moves.isEmpty

end Path

end StateSearch
