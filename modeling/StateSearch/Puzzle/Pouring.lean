import StateSearch.Problem

/-!
# Pouring water

Two containers without markings, a tap and a drain. The goal is to have exactly a given amount in
either container. Amounts are 32-bit words. A transfer needs to know how much room its target has,
which fails for a target that holds more than it can.
-/

namespace StateSearch.Puzzle

/-- What can be done with the two containers. -/
inductive Pour where
  | fillFirst
  | fillSecond
  | emptyFirst
  | emptySecond
  | firstIntoSecond
  | secondIntoFirst
  deriving DecidableEq, Repr

namespace Pour

/-- All pours, in the order in which they are tried. -/
def all : List Pour :=
  [fillFirst, fillSecond, emptyFirst, emptySecond, firstIntoSecond, secondIntoFirst]

def text : Pour → String
  | fillFirst => "fill first"
  | fillSecond => "fill second"
  | emptyFirst => "empty first"
  | emptySecond => "empty second"
  | firstIntoSecond => "pour first into second"
  | secondIntoFirst => "pour second into first"

end Pour

/-- How much is in the first and in the second container. -/
abbrev Contents := UInt32 × UInt32

def Contents.text (contents : Contents) : String :=
  s!"[{contents.1},{contents.2}]"

/-- The sizes of the two containers and the amount that is wanted. -/
structure Pouring where
  first : UInt32
  second : UInt32
  target : UInt32
  deriving DecidableEq, Repr

namespace Pouring

/-- The room in a container of size `capacity` that holds `amount`. -/
def room (capacity amount : UInt32) : Except Fault UInt32 :=
  if amount ≤ capacity then .ok (capacity - amount) else .error .differenceNegative

variable (jugs : Pouring)

def isGoal (contents : Contents) : Bool :=
  contents.1 == jugs.target || contents.2 == jugs.target

def pour (contents : Contents) : Pour → Except Fault Contents
  | .fillFirst => .ok (jugs.first, contents.2)
  | .fillSecond => .ok (contents.1, jugs.second)
  | .emptyFirst => .ok (0, contents.2)
  | .emptySecond => .ok (contents.1, 0)
  | .firstIntoSecond => do
    let amount := min contents.1 (← room jugs.second contents.2)
    return (contents.1 - amount, contents.2 + amount)
  | .secondIntoFirst => do
    let amount := min contents.2 (← room jugs.first contents.1)
    return (contents.1 + amount, contents.2 - amount)

/-- The pours that change something. All of them are tried, so a transfer that fails is noticed. -/
def pours (contents : Contents) : Except Fault (List Pour) :=
  Pour.all.filterM fun move => return (← jugs.pour contents move) ≠ contents

/-- The puzzle. At least one more pour is needed where the goal is not reached. -/
def problem {ω : Type} : Problem ω Contents Pour where
  initial := (0, 0)
  isGoal contents := .answer (jugs.isGoal contents)
  legalMoves contents := .ofExcept (jugs.pours contents)
  applyMove contents move := .ofExcept (jugs.pour contents move)
  heuristic contents := .answer (if jugs.isGoal contents then 0 else 1)

end Pouring

end StateSearch.Puzzle
