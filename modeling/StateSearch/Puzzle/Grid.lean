import StateSearch.Problem

/-!
# Walking on a grid

A rectangle of cells with walls. A step goes to a neighbouring cell inside the rectangle that is not
a wall. Coordinates are 32-bit integers, and a step out of their range fails.
-/

namespace StateSearch.Puzzle

inductive Direction where
  | right
  | down
  | left
  | up
  deriving DecidableEq, Repr

namespace Direction

/-- All directions, in the order in which they are tried. -/
def all : List Direction := [right, down, left, up]

def text : Direction → String
  | right => "R"
  | down => "D"
  | left => "L"
  | up => "U"

end Direction

/-- A cell, given by its column and its row. -/
abbrev Cell := Int × Int

def Cell.text (cell : Cell) : String :=
  s!"[{cell.1},{cell.2}]"

structure Grid where
  width : Int
  height : Int
  start : Cell := (0, 0)
  goal : Option Cell := none
  walls : List Cell := []
  /-- What a step costs in each direction. -/
  stepCost : Direction → Cost := fun _ => 1
  /-- What the estimate charges for each step that is left. -/
  factor : Cost := 0

namespace Grid

/-- The coordinate that results from adding `change`. -/
def shift (coordinate change : Int) : Except Fault Int :=
  let sum := coordinate + change
  if -2147483648 ≤ sum && sum ≤ 2147483647 then .ok sum else .error .sumOutOfRange

def step (cell : Cell) : Direction → Except Fault Cell
  | .right => return (← shift cell.1 1, cell.2)
  | .down => return (cell.1, ← shift cell.2 1)
  | .left => return (← shift cell.1 (-1), cell.2)
  | .up => return (cell.1, ← shift cell.2 (-1))

variable (grid : Grid)

/-- Whether a cell can be walked on. -/
def isOpen (cell : Cell) : Bool :=
  0 ≤ cell.1 && cell.1 < grid.width && 0 ≤ cell.2 && cell.2 < grid.height &&
    !grid.walls.contains cell

def directions (cell : Cell) : Except Fault (List Direction) :=
  Direction.all.filterM fun direction => return grid.isOpen (← step cell direction)

/-- The number of steps between two cells when nothing is in the way. -/
def distance (a b : Cell) : Nat := (a.1 - b.1).natAbs + (a.2 - b.2).natAbs

def estimate (cell : Cell) : Cost :=
  match grid.goal with
  | none => 0
  | some goal => UInt64.ofNat (min (grid.factor.toNat * distance cell goal) Cost.largest.toNat)

def problem {ω : Type} : Problem ω Cell Direction where
  initial := grid.start
  isGoal cell := .answer (grid.goal == some cell)
  legalMoves cell := .ofExcept (grid.directions cell)
  applyMove cell direction := .ofExcept (step cell direction)
  moveCost _ direction := .answer (grid.stepCost direction)
  heuristic cell := .answer (grid.estimate cell)

end Grid

end StateSearch.Puzzle
