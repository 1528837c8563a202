/-!
# Strategies

The ways of searching there are, and their names.
-/

namespace StateSearch

/-- A way of searching. -/
inductive Strategy where
  | depthFirst
  | breadthFirst
  | aStar
  | concurrent
  | concurrentAStar
  deriving DecidableEq, Repr

namespace Strategy

def all : List Strategy := [depthFirst, breadthFirst, aStar, concurrent, concurrentAStar]

def name : Strategy → String
  | depthFirst => "depth-first"
  | breadthFirst => "breadth-first"
  | aStar => "a-star"
  | concurrent => "concurrent"
  | concurrentAStar => "concurrent-a-star"

def ofName? (name : String) : Option Strategy :=
  all.find? fun strategy => strategy.name == name

/-- Whether several workers can search together. -/
def isShared : Strategy → Bool
  | concurrent | concurrentAStar => true
  | _ => false

theorem ofName?_name (strategy : Strategy) : ofName? strategy.name = some strategy := by
  cases strategy <;> rfl

end Strategy

end StateSearch
