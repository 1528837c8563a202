import StateSearch.Random.Coin
import StateSearch.Search.Deque
import StateSearch.Search.OpenList

/-!
# Frontiers of a pool

A frontier holds the nodes that wait for a worker. It may assign a layer to each node; while workers
are busy, only nodes of their layer are handed out. There are two frontiers: a queue that puts each
new node at its tail or at its head (`BiasedDeque`), with a layer only if it never uses the head, and
the open list of a best-first search (`OpenList`), whose layers are the estimates.
-/

namespace StateSearch

open StateSearch.Random

/-- A store of nodes `N` that decides what is handed out next. -/
class Frontier (F : Type) (N : outParam Type) where
  /-- Put in a node. A coin may decide where it goes. -/
  push : {ρ : Type} → [Coin ρ] → F → N → ρ → F × ρ
  /-- The node that is handed out next. -/
  peek? : F → Option N
  pop? : F → Option (N × F)
  /-- The layer of a node, if layers matter. -/
  layerOf : F → N → Option Nat
  size : F → Nat

namespace Frontier

variable {F N ρ : Type} [Frontier F N] [Coin ρ]

/-- Put in several nodes, one after the other. -/
def pushAll (frontier : F) (nodes : List N) (coin : ρ) : F × ρ :=
  nodes.foldl (fun (frontier, coin) node => Frontier.push frontier node coin) (frontier, coin)

end Frontier

/-- Where a queue puts a new node. -/
inductive Placement where
  /-- At the tail. -/
  | tail
  /-- At the tail if a coin with this threshold succeeds, else at the head. -/
  | byChance (threshold : UInt64)
  deriving DecidableEq, Repr

/-- The placement for a probability of the tail between 0 and 1. -/
def Placement.ofBias (bias : Float) : Placement :=
  if bias ≥ 1.0 then .tail else .byChance (threshold bias)

/-- A queue whose nodes leave at the head and enter at either end. -/
structure BiasedDeque (S M : Type) where
  nodes : Deque (Node S M) := .empty
  placement : Placement

namespace BiasedDeque

variable {S M ρ : Type} [Coin ρ]

def push (queue : BiasedDeque S M) (node : Node S M) (coin : ρ) : BiasedDeque S M × ρ :=
  match queue.placement with
  | .tail => ({ queue with nodes := queue.nodes.pushBack node }, coin)
  | .byChance threshold =>
    match Coin.toss threshold coin with
    | (true, coin) => ({ queue with nodes := queue.nodes.pushBack node }, coin)
    | (false, coin) => ({ queue with nodes := queue.nodes.pushFront node }, coin)

/-- The layers of a queue that only uses its tail are the depths, so that one level is finished
before the next one is begun. -/
def layerOf (queue : BiasedDeque S M) (node : Node S M) : Option Nat :=
  match queue.placement with
  | .tail => some node.depth
  | .byChance _ => none

instance : Frontier (BiasedDeque S M) (Node S M) where
  push := push
  peek? queue := queue.nodes.peekFront?
  pop? queue := queue.nodes.popFront?.map fun (node, nodes) => (node, { queue with nodes })
  layerOf := layerOf
  size queue := queue.nodes.size

end BiasedDeque

instance {S M : Type} : Frontier (OpenList S M) (Node S M) where
  push waiting node coin := (waiting.push node, coin)
  peek? waiting := waiting.peek?
  pop? waiting := waiting.pop?
  layerOf _ node := some node.estimate.toNat
  size waiting := waiting.size

end StateSearch
