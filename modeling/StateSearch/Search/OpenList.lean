import StateSearch.Node
import Std.Data.TreeMap

/-!
# Open lists

The nodes that wait in a best-first search. The cheapest estimate leaves first, and among equal
estimates the node that was put in first. An entry is filed under its estimate and its number, and
numbers are given out in order, so no two entries share a key.
-/

namespace StateSearch

/-- Where a node stands in an open list: its estimate, and how many nodes had been put in. -/
abbrev OpenKey := Cost × Nat

namespace OpenKey

/-- Keys are compared by estimate and then by number. -/
def order : OpenKey → OpenKey → Ordering :=
  compareLex (compareOn Prod.fst) (compareOn Prod.snd)

instance : Std.TransCmp order :=
  inferInstanceAs (Std.TransCmp (compareLex (compareOn Prod.fst) (compareOn Prod.snd)))

end OpenKey

/-- Nodes ordered by estimate and then by age. -/
structure OpenList (S M : Type) where
  entries : Std.TreeMap OpenKey (Node S M) OpenKey.order := ∅
  /-- How many nodes have been put in so far. -/
  pushed : Nat := 0

namespace OpenList

variable {S M : Type}

def empty : OpenList S M := {}

/-- Put a node in, behind all nodes of the same estimate. -/
def push (waiting : OpenList S M) (node : Node S M) : OpenList S M where
  entries := waiting.entries.insertIfNew (node.estimate, waiting.pushed + 1) node
  pushed := waiting.pushed + 1

theorem mem_of_minKey? {waiting : OpenList S M} {key : OpenKey}
    (h : waiting.entries.minKey? = some key) : key ∈ waiting.entries :=
  (Std.TreeMap.minKey?_eq_some_iff_getKey?_eq_self_and_forall.mp h).1 |>
    Std.TreeMap.mem_of_getKey?_eq_some

/-- The node that leaves next. -/
def peek? (waiting : OpenList S M) : Option (Node S M) :=
  match h : waiting.entries.minKey? with
  | none => none
  | some key => some (waiting.entries.get key (mem_of_minKey? h))

/-- The node that leaves next, and the list without it. -/
def pop? (waiting : OpenList S M) : Option (Node S M × OpenList S M) :=
  match h : waiting.entries.minKey? with
  | none => none
  | some key => some (waiting.entries.get key (mem_of_minKey? h),
      { waiting with entries := waiting.entries.erase key })

def size (waiting : OpenList S M) : Nat := waiting.entries.size

/-- The nodes in the order in which they leave. -/
def toList (waiting : OpenList S M) : List (Node S M) :=
  waiting.entries.toList.map Prod.snd

end OpenList

end StateSearch
