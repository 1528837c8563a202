import StateSearch.Problem
import StateSearch.Puzzle.People

/-!
# Crossing a bridge

Everybody has to cross a bridge that holds only so many people at a time, and every crossing needs
the one torch there is. A group walks at the pace of its slowest member. People of equal speed may be
treated as interchangeable when states are recorded (`canonical`).
-/

namespace StateSearch.Puzzle

/-- Who reached the far side, and whether the torch is there. -/
structure BridgeState where
  far : People
  torchFar : Bool
  deriving DecidableEq, Hashable, Repr

def BridgeState.text (state : BridgeState) : String :=
  s!"[{state.far.toNat},{state.torchFar}]"

/-- A group that crosses with the torch, away from the start if `forward`. -/
structure Crossing where
  group : People
  forward : Bool
  deriving DecidableEq, Repr

/-- The numbers of the people who cross, joined by plus signs, and an arrow. -/
def Crossing.text (crossing : Crossing) : String :=
  "+".intercalate (crossing.group.members.map toString) ++
    (if crossing.forward then " ->" else " <-")

/-- The state after a group has crossed with the torch. -/
def BridgeState.cross (state : BridgeState) (crossing : Crossing) : BridgeState where
  far := if crossing.forward then state.far ||| crossing.group else state.far &&& ~~~crossing.group
  torchFar := crossing.forward

/-- Why a bridge cannot be set up. -/
inductive BridgeError where
  | tooManyPeople (count : Nat)
  | noCapacity
  deriving DecidableEq, Repr

def BridgeError.message : BridgeError → String
  | tooManyPeople count => s!"At most 31 people supported, got {count}"
  | noCapacity => "Bridge capacity must be at least 1"

/-- The people at the bridge, given by the time each of them takes, and how many it holds. -/
structure Bridge where
  speeds : List Cost
  capacity : Nat
  /-- Whether people of equal speed count as the same when states are recorded. -/
  folds : Bool := false
  speeds_length : speeds.length ≤ 31
  capacity_pos : 0 < capacity

namespace Bridge

/-- Set up a bridge. The people are counted before the capacity is looked at. -/
def make? (speeds : List Cost) (capacity : Nat) (folds : Bool) : Except BridgeError Bridge :=
  if hs : speeds.length ≤ 31 then
    if hc : 0 < capacity then .ok ⟨speeds, capacity, folds, hs, hc⟩ else .error .noCapacity
  else
    .error (.tooManyPeople speeds.length)

variable (bridge : Bridge)

def size : Nat := bridge.speeds.length

/-- All the people there are. -/
def everyone : People := .such bridge.size fun _ => true

/-- The longest time that a member of the group takes, of the people from number `person` on, whose
speeds are given. -/
def slowestFrom (group : People) : Nat → List Cost → Cost
  | _, [] => 0
  | person, speed :: speeds =>
    let others := slowestFrom group (person + 1) speeds
    if group.has person then max speed others else others

/-- The time the slowest of a group takes, and nothing for a group of nobody. -/
def slowest (group : People) : Cost := slowestFrom group 0 bridge.speeds

/-- Those who are where the torch is. -/
def atTorch (state : BridgeState) : People :=
  if state.torchFar then state.far else bridge.everyone &&& ~~~state.far

def crossings (state : BridgeState) : List Crossing :=
  ((bridge.atTorch state).groups bridge.capacity).map fun group => ⟨group, !state.torchFar⟩

/-- The numbers of those who are as fast as `speed`, of the people from number `first` on, whose speeds are
given. -/
def peersFrom (speed : Cost) (first : Nat) (speeds : List Cost) : List Nat :=
  ((speeds.zipIdx first).filter fun (other, _) => other == speed).map Prod.snd

/-- How far the folding of a state has got. -/
structure Folding where
  /-- Those who are put on the far side. -/
  far : People := 0
  /-- Those for whom it is settled whether they are. -/
  done : People := 0
  deriving Repr

/-- Settle it for the person who has this rank among those who are equally fast: the first `crossed` of them are
on the far side. -/
def Folding.place (crossed : Nat) (folding : Folding) : Nat × Nat → Folding
  | (other, rank) => {
    far := if rank < crossed then folding.far ||| .single other else folding.far
    done := folding.done ||| .single other }

def Folding.settle (folding : Folding) (crossed : Nat) (peers : List Nat) : Folding :=
  peers.zipIdx.foldl (Folding.place crossed) folding

/-- Go through the people from number `person` on, whose speeds are given. Whoever is the first of a speed
settles it for all who are as fast. -/
def foldFrom (state : BridgeState) (folding : Folding) (person : Nat) : List Cost → Folding
  | [] => folding
  | speed :: speeds =>
    let settled :=
      if folding.done.has person then folding
      else
        let peers := peersFrom speed person (speed :: speeds)
        folding.settle (peers.countP state.far.has) peers
    foldFrom state settled (person + 1) speeds

/-- The state that stands for all states that differ from `state` only by swapping people of equal
speed: of each speed it is the lowest numbers that are on the far side. -/
def canonical (state : BridgeState) : BridgeState where
  far := (foldFrom state {} 0 bridge.speeds).far
  torchFar := state.torchFar

/-- The puzzle. The estimate is the slowest person still waiting, who has to cross at least once. -/
def problem : PureProblem BridgeState Crossing :=
  { initial := ⟨0, false⟩
    isGoal := fun state => state.far == bridge.everyone
    legalMoves := bridge.crossings
    applyMove := BridgeState.cross
    moveCost := fun _ crossing => bridge.slowest crossing.group
    alreadySeen := fun state => .record (if bridge.folds then bridge.canonical state else state)
    heuristic := fun state => bridge.slowest (bridge.everyone &&& ~~~state.far) }

theorem alreadySeen_problem (state : BridgeState) :
    bridge.problem.alreadySeen state =
      .record (if bridge.folds then bridge.canonical state else state) := rfl

end Bridge

end StateSearch.Puzzle
