import StateSearch.Problem

/-!
# Road maps

A finite graph of places and one-way roads with costs. Places are integers and a move is the number
of a road. A map may say that some places count as others when states are recorded, or may limit how
many places are recorded at all.
-/

namespace StateSearch.Puzzle

/-- A one-way road. -/
structure Road where
  source : Int
  target : Int
  cost : Cost
  deriving Repr

/-- How places are recorded as seen. -/
inductive SeenRule where
  /-- A place is recorded under the first name it is given here, or under its own. -/
  | representatives (names : List (Int × Int))
  /-- At most so many places are recorded, and at least one; all others count as seen. -/
  | limited (count : Nat)
  deriving Repr

structure RoadMap where
  start : Int
  goals : List Int
  roads : Array Road
  estimates : List (Int × Cost) := []
  seenRule : SeenRule := .representatives []

namespace RoadMap

/-- How a place is looked up and recorded under a rule. -/
def seenQuery (rule : SeenRule) (place : Int) : SeenQuery Int :=
  match rule with
  | .representatives names => .record ((names.lookup place).getD place)
  | .limited count =>
    .contains place fun known =>
      if known then .answer true
      else .size fun size =>
        if size = 0 then .record place
        else .size fun size => if count ≤ size then .answer true else .record place

variable (map : RoadMap)

def road (index : Nat) : Except Fault Road :=
  match map.roads[index]? with
  | some road => .ok road
  | none => .error (.noSuchEntry map.roads.size index)

/-- The numbers of the roads that leave a place. -/
def roadsFrom (place : Int) : List Nat :=
  (map.roads.toList.zipIdx.filter fun (road, _) => road.source == place).map Prod.snd

def problem {ω : Type} : Problem ω Int Nat where
  initial := map.start
  isGoal place := .answer (map.goals.contains place)
  legalMoves place := .answer (map.roadsFrom place)
  applyMove _ index := .ofExcept ((map.road index).map Road.target)
  moveCost _ index := .ofExcept ((map.road index).map Road.cost)
  alreadySeen place := .answer (seenQuery map.seenRule place)
  heuristic place := .answer ((map.estimates.lookup place).getD 0)

end RoadMap

end StateSearch.Puzzle
