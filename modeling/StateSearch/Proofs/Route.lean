import StateSearch.Node
import StateSearch.Problem

/-!
# Routes

The `Rules` of a problem are its answers, where these depend on nothing but the question. A route is a
list of moves that can be played one after the other; it has an end and a cost. The cost of a route is
the sum of the costs of its moves, cut off at the largest cost.

A node is genuine if its moves are a route to its state at its path cost (`Node.Genuine`). The root is
genuine, and so is every child that a legal move makes from a genuine node (`Node.Genuine.child`), so a
search that makes its nodes in these two ways has only genuine ones.

For problems whose calls never fail, `PureProblem.IsBest` says that a path leads to a goal and that no
route to a goal costs less.
-/

namespace StateSearch

/-- What is asked about the states of a problem, with the answers. A question may fail. -/
structure Rules (S M : Type) where
  initial : S
  isGoal : S → Except Fault Bool
  legalMoves : S → Except Fault (List M)
  applyMove : S → M → Except Fault S
  moveCost : S → M → Except Fault Cost

/-- The problem answers as the rules say, in whatever world it is asked. Whether it also asks for the
search to be stopped is left open, and so is what it does about seen states and reports. -/
structure Problem.Follows {ω S M : Type} (p : Problem ω S M) (rules : Rules S M) : Prop where
  initial : p.initial = rules.initial
  isGoal : ∀ s world, (p.isGoal s world).result = rules.isGoal s
  legalMoves : ∀ s world, (p.legalMoves s world).result = rules.legalMoves s
  applyMove : ∀ s m world, (p.applyMove s m world).result = rules.applyMove s m
  moveCost : ∀ s m world, (p.moveCost s m world).result = rules.moveCost s m

/-- Whatever the problem answers is what the rules say. It may also fail to answer. -/
structure Problem.Respects {ω S M : Type} (p : Problem ω S M) (rules : Rules S M) : Prop where
  initial : p.initial = rules.initial
  isGoal : ∀ {s world b}, (p.isGoal s world).result = .ok b → rules.isGoal s = .ok b
  legalMoves : ∀ {s world moves}, (p.legalMoves s world).result = .ok moves →
    rules.legalMoves s = .ok moves
  applyMove : ∀ {s m world t}, (p.applyMove s m world).result = .ok t → rules.applyMove s m = .ok t
  moveCost : ∀ {s m world c}, (p.moveCost s m world).result = .ok c → rules.moveCost s m = .ok c

theorem Problem.Follows.respects {ω S M : Type} {p : Problem ω S M} {rules : Rules S M}
    (hp : p.Follows rules) : p.Respects rules where
  initial := hp.initial
  isGoal h := hp.isGoal _ _ ▸ h
  legalMoves h := hp.legalMoves _ _ ▸ h
  applyMove h := hp.applyMove _ _ _ ▸ h
  moveCost h := hp.moveCost _ _ _ ▸ h

/-- To find out whether a state is seen, the problem records that very state. -/
def Problem.Plain {ω S M : Type} (p : Problem ω S M) : Prop :=
  ∀ s world query, (p.alreadySeen s world).result = .ok query → query = .record s

/-- The rules of a problem whose calls never fail. -/
def PureProblem.rules {S M : Type} (p : PureProblem S M) : Rules S M where
  initial := p.initial
  isGoal s := .ok (p.isGoal s)
  legalMoves s := .ok (p.legalMoves s)
  applyMove s m := .ok (p.applyMove s m)
  moveCost s m := .ok (p.moveCost s m)

theorem PureProblem.follows_rules {ω S M : Type} (p : PureProblem S M) :
    (p.toProblem : Problem ω S M).Follows p.rules :=
  ⟨rfl, fun _ _ => rfl, fun _ _ => rfl, fun _ _ _ => rfl, fun _ _ _ => rfl⟩

theorem Call.result_ofExcept {ω α : Type} (result : Except Fault α) (world : ω) :
    (Call.ofExcept result world).result = result := by
  cases result <;> rfl

/-- The problem that answers every call as the rules say, and fails where they do. -/
def Rules.toProblem {ω S M : Type} (rules : Rules S M) : Problem ω S M where
  initial := rules.initial
  isGoal s := .ofExcept (rules.isGoal s)
  legalMoves s := .ofExcept (rules.legalMoves s)
  applyMove s m := .ofExcept (rules.applyMove s m)
  moveCost s m := .ofExcept (rules.moveCost s m)

theorem Rules.follows_toProblem {ω S M : Type} (rules : Rules S M) :
    (rules.toProblem : Problem ω S M).Follows rules :=
  ⟨rfl, fun _ => Call.result_ofExcept _, fun _ => Call.result_ofExcept _,
    fun _ _ => Call.result_ofExcept _, fun _ _ => Call.result_ofExcept _⟩

theorem Rules.plain_toProblem {ω S M : Type} (rules : Rules S M) :
    (rules.toProblem : Problem ω S M).Plain := by
  intro s world query h
  cases h
  rfl

theorem PureProblem.plain_toProblem {ω S M : Type} {p : PureProblem S M} (hseen : p.alreadySeen = .record) :
    (p.toProblem : Problem ω S M).Plain := by
  intro s world query h
  cases h
  rw [hseen]

namespace Rules

variable {S M : Type} {rules : Rules S M} {s t u : S} {m : M} {ms ns : List M} {c d : Cost}

def IsLegal (rules : Rules S M) (s : S) (m : M) : Prop :=
  ∃ moves, rules.legalMoves s = .ok moves ∧ m ∈ moves

/-- The move `m` can be played in `s`. It leads to `t` and costs `c`. -/
structure Step (rules : Rules S M) (s : S) (m : M) (t : S) (c : Cost) : Prop where
  legal : rules.IsLegal s m
  apply : rules.applyMove s m = .ok t
  cost : rules.moveCost s m = .ok c

/-- The moves can be played one after the other from `s`. They lead to a state at a cost. -/
inductive Route (rules : Rules S M) (s : S) : List M → S → Cost → Prop
  | stay : Route rules s [] s 0
  | snoc {ms : List M} {t u : S} {m : M} {c d : Cost} (route : Route rules s ms t c)
      (step : rules.Step t m u d) : Route rules s (ms ++ [m]) u (Cost.plus c d)

theorem Route.append (h : rules.Route s ms t c) (h' : rules.Route t ns u d) :
    rules.Route s (ms ++ ns) u (Cost.plus c d) := by
  induction h' with
  | stay => simpa using h
  | snoc _ step ih =>
    rw [← List.append_assoc, ← Cost.plus_assoc]
    exact ih.snoc step

end Rules

namespace Node

variable {S M : Type} {rules : Rules S M} {n : Node S M}

/-- The moves of the node are a route from the initial state to its state, at its path cost. -/
def Genuine (rules : Rules S M) (n : Node S M) : Prop :=
  rules.Route rules.initial n.movesFromRoot n.state n.pathCost

theorem Genuine.root (h : Cost) : (Node.root rules.initial h : Node S M).Genuine rules :=
  .stay

/-- The node leads to a goal. -/
structure Solves (rules : Rules S M) (n : Node S M) : Prop where
  genuine : n.Genuine rules
  isGoal : rules.isGoal n.state = .ok true

theorem Genuine.child (hn : n.Genuine rules) {m : M} {t : S} {c : Cost}
    (step : rules.Step n.state m t c) (h : Cost) : (n.child t m c h).Genuine rules := by
  unfold Genuine
  rw [movesFromRoot_child, state_child, pathCost_child]
  exact Rules.Route.snoc hn step

end Node

namespace PureProblem

variable {S M : Type} (p : PureProblem S M)

/-- Some route leads from the initial state to `s`. -/
def Reachable (s : S) : Prop :=
  ∃ ms c, p.rules.Route p.initial ms s c

/-- Some route leads to a goal. -/
def Solvable : Prop :=
  ∃ s, p.Reachable s ∧ p.isGoal s = true

/-- The path leads to a goal at the cost it claims, and no route to a goal costs less. -/
structure IsBest (path : Path M) : Prop where
  route : ∃ goal, p.rules.Route p.initial path.moves goal path.cost ∧ p.isGoal goal = true
  least : ∀ ms goal c, p.rules.Route p.initial ms goal c → p.isGoal goal = true → path.cost ≤ c

/-- The answer of a search is right: a path of least cost, or `none` if no route leads to a goal. -/
def IsOptimum : Option (Path M) → Prop
  | none => ¬ p.Solvable
  | some path => p.IsBest path

/-- The heuristic never estimates more than a route to a goal costs. -/
def Admissible : Prop :=
  ∀ s, p.Reachable s → ∀ ms goal c, p.rules.Route s ms goal c → p.isGoal goal = true →
    p.heuristic s ≤ c

/-- The heuristic is zero at goals, and no move lowers it by more than the move costs. -/
structure Consistent : Prop where
  goal : ∀ s, p.Reachable s → p.isGoal s = true → p.heuristic s = 0
  move : ∀ s, p.Reachable s → ∀ m ∈ p.legalMoves s,
    (p.heuristic s).toNat ≤ (p.moveCost s m).toNat + (p.heuristic (p.applyMove s m)).toNat

/-- No move lowers the heuristic by more than the move costs. -/
def Steady : Prop :=
  ∀ s, p.Reachable s → ∀ m ∈ p.legalMoves s,
    (p.heuristic s).toNat ≤ (p.moveCost s m).toNat + (p.heuristic (p.applyMove s m)).toNat

variable {p} {s t : S} {m : M} {c : Cost}

theorem Consistent.steady (hcons : p.Consistent) : p.Steady := hcons.move

theorem step_rules_iff : p.rules.Step s m t c ↔
    m ∈ p.legalMoves s ∧ p.applyMove s m = t ∧ p.moveCost s m = c := by
  constructor
  · rintro ⟨⟨moves, hm, hmem⟩, ha, hc⟩
    cases hm; cases ha; cases hc
    exact ⟨hmem, rfl, rfl⟩
  · rintro ⟨hm, rfl, rfl⟩
    exact ⟨⟨_, rfl, hm⟩, rfl, rfl⟩

theorem mem_of_isLegal (hm : p.rules.IsLegal s m) : m ∈ p.legalMoves s := by
  obtain ⟨moves, hmoves, hmem⟩ := hm
  cases hmoves
  exact hmem

theorem step_of_mem (hm : m ∈ p.legalMoves s) :
    p.rules.Step s m (p.applyMove s m) (p.moveCost s m) :=
  step_rules_iff.2 ⟨hm, rfl, rfl⟩

theorem Reachable.step (h : p.Reachable s) (hm : m ∈ p.legalMoves s) :
    p.Reachable (p.applyMove s m) := by
  obtain ⟨ms, c, route⟩ := h
  exact ⟨_, _, route.snoc (step_of_mem hm)⟩

theorem Reachable.append {ms : List M} (h : p.Reachable s) (route : p.rules.Route s ms t c) :
    p.Reachable t := by
  obtain ⟨ns, d, hroute⟩ := h
  exact ⟨_, _, hroute.append route⟩

/-- Along a route, a consistent heuristic falls by no more than the route costs. -/
theorem Consistent.le_of_route (hcons : p.Consistent) {ms : List M} (hs : p.Reachable s)
    (route : p.rules.Route s ms t c) : p.heuristic s ≤ Cost.plus c (p.heuristic t) := by
  induction route with
  | stay => rw [Cost.zero_plus]; exact UInt64.le_refl _
  | snoc route step ih =>
    obtain ⟨hm, rfl, rfl⟩ := step_rules_iff.1 step
    have hmove := hcons.move _ (hs.append route) _ hm
    refine UInt64.le_trans ih ?_
    rw [Cost.plus_assoc]
    exact Cost.plus_le_plus (UInt64.le_refl _) (Cost.le_plus_iff.2 hmove)

theorem Consistent.admissible (hcons : p.Consistent) : p.Admissible := by
  intro s hs ms goal c route hgoal
  have := hcons.le_of_route hs route
  rwa [hcons.goal goal (hs.append route) hgoal, Cost.plus_zero] at this

/-- A heuristic below a consistent one never overestimates, whether or not it is consistent. -/
theorem Admissible.of_le (bound : S → Cost) (hb : { p with heuristic := bound }.Consistent)
    (h : ∀ s, p.heuristic s ≤ bound s) : p.Admissible :=
  fun s hs _ _ _ route hgoal => UInt64.le_trans (h s) (hb.admissible s hs _ _ _ route hgoal)

/-- The node that a move makes from `n`. -/
def successor (p : PureProblem S M) (n : Node S M) (m : M) : Node S M :=
  n.child (p.applyMove n.state m) m (p.moveCost n.state m) (p.heuristic (p.applyMove n.state m))

end PureProblem

namespace Node

variable {S M : Type} {p : PureProblem S M} {n : Node S M}

/-- The moves of the node are a route, and its estimate is what the route costs together with the
heuristic. -/
structure Fair (p : PureProblem S M) (n : Node S M) : Prop where
  genuine : n.Genuine p.rules
  estimate : n.estimate = Cost.plus n.pathCost (p.heuristic n.state)

theorem Fair.root (p : PureProblem S M) :
    (Node.root p.initial (p.heuristic p.initial) : Node S M).Fair p :=
  ⟨.root _, by simp [Node.root]⟩

theorem Fair.reachable (h : n.Fair p) : p.Reachable n.state :=
  ⟨_, _, h.genuine⟩

theorem Fair.successor (h : n.Fair p) {m : M} (hm : m ∈ p.legalMoves n.state) :
    (p.successor n m).Fair p :=
  ⟨h.genuine.child (PureProblem.step_of_mem hm) _, rfl⟩

theorem Fair.pathCost_le (h : n.Fair p) : n.pathCost ≤ n.estimate :=
  h.estimate ▸ Cost.le_plus_right _ _

end Node

/-- Along a move, estimates do not fall. -/
theorem PureProblem.Steady.estimate_le_successor {S M : Type} {p : PureProblem S M} {n : Node S M}
    (hsteady : p.Steady) (hn : n.Fair p) {m : M} (hm : m ∈ p.legalMoves n.state) :
    n.estimate ≤ (p.successor n m).estimate := by
  rw [hn.estimate, (hn.successor hm).estimate, successor, Node.pathCost_child, Node.state_child,
    Cost.plus_assoc]
  refine Cost.plus_le_plus (UInt64.le_refl _) ?_
  exact Cost.le_plus_iff.2 (hsteady _ hn.reachable m hm)

/-- If a state is reached more cheaply and its estimate is no smaller for that, both estimates are cut off. -/
theorem Node.Fair.eq_largest {S M : Type} {p : PureProblem S M} {m n : Node S M} (hm : m.Fair p)
    (hn : n.Fair p) (hrest : p.heuristic n.state = p.heuristic m.state) (hlt : n.pathCost < m.pathCost)
    (hle : m.estimate ≤ n.estimate) : m.estimate = Cost.largest ∧ n.estimate = Cost.largest := by
  rw [UInt64.lt_iff_toNat_lt] at hlt
  rw [UInt64.le_iff_toNat_le] at hle
  rw [hm.estimate, hn.estimate, hrest] at *
  simp only [← UInt64.toNat_inj, Cost.toNat_plus] at hle ⊢
  omega

/-! ### An example -/

/-- The states of a small problem. -/
inductive Junction where
  | start
  | bypass
  | middle
  | finish
  deriving DecidableEq, Repr

namespace Junction

/-- All hashes are equal, so that looking up a state does not depend on the size of a machine word. -/
instance : Hashable Junction := ⟨fun _ => 0⟩

/-- The middle is reached more cheaply by way of the bypass. As only the bypass is given its true
estimate, a best-first search meets the middle on the dearer way first and has to open it again. -/
def detour : PureProblem Junction Junction where
  initial := start
  isGoal s := s == finish
  legalMoves := fun
    | start => [bypass, middle]
    | bypass => [middle]
    | middle => [finish]
    | finish => []
  applyMove _ m := m
  moveCost s m := if s = start ∧ m = middle ∨ s = middle then 3 else 1
  heuristic s := if s = bypass then 4 else 0

/-- What it costs to reach the finish. -/
def remaining : Junction → Cost
  | start => 5
  | bypass => 4
  | middle => 3
  | finish => 0

/-- The detour with a consistent heuristic. -/
def signposted : PureProblem Junction Junction := { detour with heuristic := remaining }

theorem consistent_signposted : signposted.Consistent := by
  constructor
  · intro s _ hs
    cases s <;> first | rfl | cases hs
  · intro s _
    cases s <;> decide

theorem detour_admissible : detour.Admissible := by
  refine .of_le remaining consistent_signposted fun s => ?_
  cases s <;> decide

end Junction

end StateSearch
