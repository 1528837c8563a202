import StateSearch.Node
import Mathlib.Algebra.GroupWithZero.Nat

/-!
# The lineage of a node

Nodes are made by `root`, `child` and `make`, and a new node may hang below any node made before. Whatever
tree grows in this way, the depth and the costs that were written down when a node was made agree with the
chain of its ancestors, from which its moves are read (`Node.lineage`). A node made by `make` may lack its
move and may claim any costs; a node made by `root` and `child` alone comes from the root by `legs`, and these
determine its moves, its depth and its costs.
-/

namespace StateSearch

namespace Cost

/-- Adding one cost after the other comes to the whole sum, or to the largest cost if that does not fit. -/
theorem toNat_sumFrom (start : Cost) (steps : List Cost) :
    (sumFrom start steps).toNat = min (start.toNat + (steps.map UInt64.toNat).sum) largest.toNat := by
  induction steps generalizing start with
  | nil =>
    have := toNat_le_largest start
    simp only [sumFrom_nil, List.map_nil, List.sum_nil]
    omega
  | cons step steps ih =>
    rw [sumFrom_cons, ih, toNat_plus, List.map_cons, List.sum_cons]
    omega

end Cost

namespace Node

variable {S M : Type} {n parent : Node S M} {legs : List (M × Cost)} {h : Cost}

/-- The nodes above, the nearest first. -/
def ancestors : Node S M → List (Node S M)
  | top .. => []
  | reached parent .. => parent :: parent.ancestors

/-- The node can be made by these calls, one after the other. -/
inductive Made : Node S M → Prop
  | root (s : S) (h : Cost) : Made (root s h)
  | child {parent : Node S M} (hparent : Made parent) (s : S) (m : M) (step h : Cost) :
    Made (parent.child s m step h)
  | make {parent : Option (Node S M)} (hparent : ∀ n ∈ parent, Made n) (s : S) (move : Option M)
    (g f : Cost) : Made (make s move parent g f)

/-- The node comes from a root by children alone: by these moves at these costs, and with this heuristic. -/
inductive Grown : Node S M → List (M × Cost) → Cost → Prop
  | root (s : S) (h : Cost) : Grown (root s h) [] h
  | child {parent : Node S M} {legs : List (M × Cost)} {h : Cost} (hparent : Grown parent legs h) (s : S)
    (m : M) (step h' : Cost) : Grown (parent.child s m step h') (legs ++ [(m, step)]) h'

theorem Grown.made (hn : n.Grown legs h) : n.Made := by
  induction hn with
  | root s h => exact .root s h
  | child _ s m step h' ih => exact .child ih s m step h'

/-! ### Any tree -/

/-- What is written down agrees with the ancestors. -/
structure Linked (n : Node S M) : Prop where
  depth : n.depth = n.ancestors.length
  /-- Whoever goes up the chain collects the moves with the latest first. -/
  collected : n.movesFromRoot = ((n :: n.ancestors).filterMap lastMove).reverse
  /-- Nodes below the same parent have its moves in common. -/
  moves : n.movesFromRoot = n.parent?.elim [] movesFromRoot ++ n.lastMove.toList

theorem movesFromRoot_make (s : S) (move : Option M) (parent : Option (Node S M)) (g f : Cost) :
    (make s move parent g f).movesFromRoot = parent.elim [] movesFromRoot ++ move.toList := by
  cases parent with
  | none => exact List.append_nil _
  | some parent =>
    show parent.movesBefore (move.toList ++ []) = _
    rw [movesBefore_eq, List.append_nil]
    rfl

/-- One more node does not break the chain. -/
theorem linked_make {parent : Option (Node S M)} (hparent : ∀ n ∈ parent, n.Linked) (s : S)
    (move : Option M) (g f : Cost) : (make s move parent g f).Linked := by
  have hmoves := movesFromRoot_make s move parent g f
  cases parent with
  | none =>
    refine ⟨rfl, hmoves.trans ?_, hmoves⟩
    cases move <;> rfl
  | some parent =>
    obtain ⟨hdepth, hcollected, -⟩ := hparent parent rfl
    refine ⟨congrArg (· + 1) hdepth, hmoves.trans ?_, hmoves⟩
    show parent.movesFromRoot ++ move.toList =
      ((make s move (some parent) g f :: parent :: parent.ancestors).filterMap lastMove).reverse
    rw [hcollected]
    cases move with
    | none => exact List.append_nil _
    | some m => exact List.reverse_cons.symm

theorem Made.linked (hn : n.Made) : n.Linked := by
  induction hn with
  | root s h => exact linked_make (fun n hn => absurd hn (Option.not_mem_none n)) s none 0 h
  | @child parent _ s m step h ih =>
    have hparent : ∀ n ∈ some parent, n.Linked := by
      rintro _ ⟨⟩
      exact ih
    exact linked_make hparent s (some m) _ _
  | make _ s move g f ih => exact linked_make ih s move g f

/-! ### Trees of roots and children -/

/-- What is written down agrees with the legs from the root. -/
structure Tallies (n : Node S M) (legs : List (M × Cost)) (h : Cost) : Prop where
  moves : n.movesFromRoot = legs.map Prod.fst
  depth : n.movesFromRoot.length = n.depth
  pathCost : n.pathCost = Cost.sumFrom 0 (legs.map Prod.snd)
  estimate : n.estimate = Cost.plus n.pathCost h
  dearer : ∀ parent, n.parent? = some parent → parent.pathCost ≤ n.pathCost

theorem Grown.tallies (hn : n.Grown legs h) : n.Tallies legs h := by
  induction hn with
  | root s h =>
    refine ⟨rfl, rfl, rfl, ?_, nofun⟩
    exact (Cost.zero_plus h).symm
  | @child parent legs _ _ s m step h' ih =>
    refine ⟨?_, ?_, ?_, rfl, ?_⟩
    · rw [movesFromRoot_child, ih.moves, List.map_append]
      rfl
    · rw [movesFromRoot_child, List.length_append, ih.depth]
      rfl
    · rw [pathCost_child, ih.pathCost, List.map_append, Cost.sumFrom_append]
      rfl
    · rintro _ ⟨⟩
      exact Cost.le_plus_right _ _

/-- In every tree that is made by these calls, the depth is the number of ancestors, and the moves are those of
the parent and then the node's own. Where there are only roots and children, the legs from the root determine
the moves, as many as the node is deep, and the costs, cut off at the largest one. -/
theorem lineage :
    (∀ n : Node S M, n.Made → n.Linked) ∧
    ∀ (n : Node S M) (legs : List (M × Cost)) (h : Cost), n.Grown legs h → n.Made ∧ n.Tallies legs h ∧
      n.pathCost.toNat = min (legs.map fun leg => leg.2.toNat).sum Cost.largest.toNat ∧
      n.estimate.toNat = min (n.pathCost.toNat + h.toNat) Cost.largest.toNat := by
  refine ⟨fun n hn => hn.linked, fun n legs h hn => ?_⟩
  have htallies := hn.tallies
  refine ⟨hn.made, htallies, ?_, ?_⟩
  · rw [htallies.pathCost, Cost.toNat_sumFrom, List.map_map, UInt64.toNat_zero, Nat.zero_add]
    rfl
  · rw [htallies.estimate, Cost.toNat_plus]

/-- The node 2 lacks its move, and its costs are made up. -/
def orphan : Node Nat Char := make 2 none (some ((root 0 5).child 1 'a' 3 4)) 2 9

/-- Two legs whose costs do not fit together. -/
def steep : Node Nat Char := ((root 0 5).child 1 'a' 3 4).child 2 'b' Cost.largest 7

theorem lineage_steep :
    (orphan.child 3 'c' 1 0).Made ∧ (orphan.child 3 'c' 1 0).Linked ∧
      (orphan.child 3 'c' 1 0).movesFromRoot = ['a', 'c'] ∧ (orphan.child 3 'c' 1 0).depth = 3 ∧
    steep.Grown [('a', 3), ('b', Cost.largest)] 7 ∧ steep.Tallies [('a', 3), ('b', Cost.largest)] 7 ∧
      steep.pathCost = Cost.largest ∧ steep.estimate = Cost.largest := by
  have hmade : (orphan.child 3 'c' 1 0).Made := by
    refine .child (.make ?_ 2 none 2 9) 3 'c' 1 0
    rintro _ ⟨⟩
    exact .child (.root 0 5) 1 'a' 3 4
  have hgrown : steep.Grown [('a', 3), ('b', Cost.largest)] 7 :=
    .child (.child (.root 0 5) 1 'a' 3 4) 2 'b' Cost.largest 7
  obtain ⟨hlinked, hcosts⟩ := lineage (S := Nat) (M := Char)
  obtain ⟨-, htallies, hpath, hestimate⟩ := hcosts steep _ 7 hgrown
  refine ⟨hmade, hlinked _ hmade, rfl, ?_, hgrown, htallies, ?_, ?_⟩
  · rw [(hlinked _ hmade).depth]
    rfl
  · exact UInt64.toNat_inj.1 hpath
  · exact UInt64.toNat_inj.1 (hestimate.trans (by rw [hpath]; rfl))

end Node

end StateSearch
