import StateSearch.Path
import StateSearch.Seen

/-!
# Problems

A problem tells a search what there is to search: where to start, which states are goals, which
moves there are and what they cost. Everything a search learns it learns by *calls*. A call is
answered in some world `ω`, which the problem may read and change, and it may fail or ask for the
search to be stopped instead of, or besides, giving an answer. A search makes no assumption on what
the world is.

A `PureProblem` answers all calls from functions alone. Its calls never fail, never stop the search
and leave the world as it is (`PureProblem.toProblem`).
-/

namespace StateSearch

/-- What a call comes to. -/
structure Reply (ω α : Type) where
  world : ω
  /-- Whether the search was asked to stop during the call. -/
  raisesStop : Bool
  result : Except Fault α

/-- A question that is answered in a world. -/
def Call (ω α : Type) : Type := ω → Reply ω α

namespace Call

variable {ω α β : Type}

/-- Answer with `value`, without touching the world. -/
def answer (value : α) : Call ω α := fun world => ⟨world, false, .ok value⟩

/-- Fail, without touching the world. -/
def fail (fault : Fault) : Call ω α := fun world => ⟨world, false, .error fault⟩

def ofExcept : Except Fault α → Call ω α
  | .ok value => answer value
  | .error fault => fail fault

/-- Make one call and then another that depends on its answer. -/
def andThen (call : Call ω α) (next : α → Call ω β) : Call ω β := fun world =>
  let first := call world
  match first.result with
  | .ok value =>
    let second := next value first.world
    { second with raisesStop := first.raisesStop || second.raisesStop }
  | .error fault => ⟨first.world, first.raisesStop, .error fault⟩

instance : Monad (Call ω) where
  pure := answer
  bind := andThen

end Call

/-- How long what a search asks of its problem takes, in nanoseconds. -/
structure Pace where
  /-- How long a call takes. -/
  call : Nat := 0
  /-- How much longer a progress report takes than other calls. -/
  report : Nat := 0
  deriving DecidableEq, Repr

/-- The pace of a problem whose calls take a tenth of a microsecond each. -/
def Pace.usual : Pace where
  call := 100

/-- A search problem over states `S` and moves `M` whose calls are answered in worlds `ω`. -/
structure Problem (ω S M : Type) where
  initial : S
  isGoal : S → Call ω Bool
  /-- The moves that can be played in a state, in the order in which they are to be tried. -/
  legalMoves : S → Call ω (List M)
  applyMove : S → M → Call ω S
  /-- What a move costs in the state it is played in. -/
  moveCost : S → M → Call ω Cost := fun _ _ => .answer 1
  /-- How to find out whether a state, or one that counts as the same, was met before. -/
  alreadySeen : S → Call ω (SeenQuery S) := fun state => .answer (.record state)
  /-- An estimate of what it still costs to reach a goal. -/
  heuristic : S → Call ω Cost := fun _ => .answer 0
  /-- Told after each expansion, with the number of states expanded so far. -/
  onProgress : S → Nat → Call ω Unit := fun _ _ => .answer ()
  /-- Told once at the end: the path, if there is one, the goal or else the initial state, and the
  number of states expanded. -/
  onFinished : Option (Path M) → S → Nat → Call ω Unit := fun _ _ _ => .answer ()
  /-- How long calls take. It only matters which of several workers is faster, and for deadlines. -/
  pace : Pace := {}

/-- A problem whose calls are functions of their arguments. -/
structure PureProblem (S M : Type) where
  initial : S
  isGoal : S → Bool
  legalMoves : S → List M
  applyMove : S → M → S
  moveCost : S → M → Cost := fun _ _ => 1
  alreadySeen : S → SeenQuery S := .record
  heuristic : S → Cost := fun _ => 0

/-- The problem that answers every call as the functions say. -/
def PureProblem.toProblem {ω S M : Type} (p : PureProblem S M) : Problem ω S M where
  initial := p.initial
  isGoal state := .answer (p.isGoal state)
  legalMoves state := .answer (p.legalMoves state)
  applyMove state move := .answer (p.applyMove state move)
  moveCost state move := .answer (p.moveCost state move)
  alreadySeen state := .answer (p.alreadySeen state)
  heuristic state := .answer (p.heuristic state)

end StateSearch
