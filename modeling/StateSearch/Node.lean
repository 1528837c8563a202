import StateSearch.Path

/-!
# Search nodes

A node is one way of reaching a state: the state, the move that led there, the node it was reached
from, and the costs known at that point. Nodes share their ancestors and never change. The moves of
a node are read off the chain of its ancestors (`movesFromRoot`), while its depth and its costs are
written down when it is made. Main statements: `depth_child`, `movesFromRoot_child` and
`pathCost_child`, which tie the two together one step at a time.
-/

namespace StateSearch

/-- A state together with the way it was reached. -/
inductive Node (S M : Type) where
  /-- A node without a parent. -/
  | top (state : S) (move : Option M) (pathCost estimate : Cost)
  /-- A node reached from `parent`. Its depth is kept so that nobody has to walk up the chain. -/
  | reached (parent : Node S M) (state : S) (move : Option M) (depth : Nat)
      (pathCost estimate : Cost)

namespace Node

variable {S M : Type}

def state : Node S M → S
  | top state .. => state
  | reached _ state .. => state

/-- The move that led from the parent to this node. -/
def lastMove : Node S M → Option M
  | top _ move .. => move
  | reached _ _ move .. => move

def parent? : Node S M → Option (Node S M)
  | top .. => none
  | reached parent .. => some parent

/-- The number of ancestors. -/
def depth : Node S M → Nat
  | top .. => 0
  | reached _ _ _ depth .. => depth

/-- What the moves from the root to this node cost. -/
def pathCost : Node S M → Cost
  | top _ _ cost _ => cost
  | reached _ _ _ _ cost _ => cost

/-- What a whole path through this node is estimated to cost. -/
def estimate : Node S M → Cost
  | top _ _ _ estimate => estimate
  | reached _ _ _ _ _ estimate => estimate

def isRoot (node : Node S M) : Bool := node.parent?.isNone

/-- A node with any parts; the depth follows from the parent. -/
def make (state : S) (move : Option M) (parent : Option (Node S M)) (pathCost estimate : Cost) :
    Node S M :=
  match parent with
  | none => top state move pathCost estimate
  | some parent => reached parent state move (parent.depth + 1) pathCost estimate

/-- The node a search starts from. Nothing has been paid, so the estimate is the heuristic. -/
def root (state : S) (heuristic : Cost) : Node S M :=
  make state none none 0 heuristic

/-- The node reached from `parent` by `move`. -/
def child (parent : Node S M) (state : S) (move : M) (stepCost heuristic : Cost) : Node S M :=
  let pathCost := Cost.plus parent.pathCost stepCost
  make state (some move) (some parent) pathCost (Cost.plus pathCost heuristic)

/-- The moves of the chain up to `node`, followed by `later`. -/
def movesBefore : Node S M → List M → List M
  | top _ move .., later => move.toList ++ later
  | reached parent _ move .., later => parent.movesBefore (move.toList ++ later)

/-- The moves from the root to this node, in the order they are played. -/
def movesFromRoot (node : Node S M) : List M :=
  node.movesBefore []

/-- The moves from the root to this node, with their cost. -/
def toPath (node : Node S M) : Path M :=
  ⟨node.movesFromRoot, node.pathCost⟩

/-! ### What each way of making a node does -/

@[simp] theorem state_make (s : S) (move : Option M) (parent : Option (Node S M)) (g f : Cost) :
    (make s move parent g f).state = s := by
  cases parent <;> rfl

@[simp] theorem lastMove_make (s : S) (move : Option M) (parent : Option (Node S M)) (g f : Cost) :
    (make s move parent g f).lastMove = move := by
  cases parent <;> rfl

@[simp] theorem parent?_make (s : S) (move : Option M) (parent : Option (Node S M)) (g f : Cost) :
    (make s move parent g f).parent? = parent := by
  cases parent <;> rfl

@[simp] theorem pathCost_make (s : S) (move : Option M) (parent : Option (Node S M)) (g f : Cost) :
    (make s move parent g f).pathCost = g := by
  cases parent <;> rfl

@[simp] theorem estimate_make (s : S) (move : Option M) (parent : Option (Node S M)) (g f : Cost) :
    (make s move parent g f).estimate = f := by
  cases parent <;> rfl

@[simp] theorem depth_child (parent : Node S M) (s : S) (move : M) (step h : Cost) :
    (child parent s move step h).depth = parent.depth + 1 := rfl

@[simp] theorem state_child (parent : Node S M) (s : S) (move : M) (step h : Cost) :
    (child parent s move step h).state = s := rfl

@[simp] theorem pathCost_child (parent : Node S M) (s : S) (move : M) (step h : Cost) :
    (child parent s move step h).pathCost = Cost.plus parent.pathCost step := rfl

@[simp] theorem estimate_child (parent : Node S M) (s : S) (move : M) (step h : Cost) :
    (child parent s move step h).estimate = Cost.plus (Cost.plus parent.pathCost step) h := rfl

theorem movesBefore_eq (node : Node S M) (later : List M) :
    node.movesBefore later = node.movesFromRoot ++ later := by
  induction node generalizing later with
  | top => simp [movesFromRoot, movesBefore]
  | reached parent _ move _ _ _ ih =>
    simp only [movesFromRoot, movesBefore, List.append_nil]
    rw [ih, ih move.toList, List.append_assoc]

@[simp] theorem movesFromRoot_root (s : S) (h : Cost) :
    (root s h : Node S M).movesFromRoot = [] := rfl

@[simp] theorem movesFromRoot_child (parent : Node S M) (s : S) (move : M) (step h : Cost) :
    (child parent s move step h).movesFromRoot = parent.movesFromRoot ++ [move] := by
  show parent.movesBefore [move] = _
  rw [movesBefore_eq]

end Node

end StateSearch
