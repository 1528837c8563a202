import StateSearch.Proofs.Route

/-!
# States that count as the same

A problem may record one state for a whole class of states (`PureProblem.Folds`). That is safe if the
states of a class agree on what matters to a search: whether they are goals, what is estimated to remain,
and which classes their moves lead to at which cost.

A search that keeps states closed and nodes open has lost sight of nothing as long as it has a `Coverage`:
whatever a move reaches from a closed class is closed itself, or open, and reached no worse than by way of
that class. What "no worse" means is up to a `Gauge`: a search for cheap paths ranks what a route costs
together with the estimate (`PureProblem.costGauge`), a search level by level counts the moves
(`Gauge.length`). With a cover, every route leaves the closed states by way of something open that ranks no
worse than the route, or ends in a closed state (`Coverage.met`). A cover is kept when something open is
dropped because its class is closed already (`Coverage.drop`), and when a class is closed and the successors of
one of its states are opened (`Coverage.expand`).
-/

namespace StateSearch

variable {S M K : Type}

/-- How far a search has come at a state, and what it prefers. -/
structure Gauge (S M K : Type) where
  zero : K
  step : S → M → K → K
  /-- The smaller, the better. -/
  rank : S → K → Nat

/-- Routes are ranked by their length. -/
def Gauge.length : Gauge S M Nat where
  zero := 0
  step _ _ := (· + 1)
  rank _ k := k

namespace PureProblem

variable (p : PureProblem S M) (rep : S → S)

/-- Routes are ranked by what they cost and what is estimated to remain. -/
def costGauge : Gauge S M Cost where
  zero := 0
  step s m c := Cost.plus c (p.moveCost s m)
  rank s c := (Cost.plus c (p.heuristic s)).toNat

theorem rank_costGauge_le (s : S) {c d : Cost} (h : c ≤ d) : p.costGauge.rank s c ≤ p.costGauge.rank s d :=
  UInt64.le_iff_toNat_le.1 (Cost.plus_le_plus h (UInt64.le_refl _))

/-- The problem records one state for each class, and the states of a class are alike. -/
structure Folds : Prop where
  record : ∀ s, p.alreadySeen s = .record (rep s)
  rep_rep : ∀ s, p.Reachable s → rep (rep s) = rep s
  isGoal : ∀ s t, p.Reachable s → p.Reachable t → rep s = rep t → p.isGoal s = p.isGoal t
  heuristic : ∀ s t, p.Reachable s → p.Reachable t → rep s = rep t → p.heuristic s = p.heuristic t
  move : ∀ s t, p.Reachable s → p.Reachable t → rep s = rep t → ∀ m ∈ p.legalMoves s,
    ∃ m' ∈ p.legalMoves t, rep (p.applyMove t m') = rep (p.applyMove s m) ∧
      p.moveCost t m' = p.moveCost s m

/-- If each state is recorded as it is, every class has one state only. -/
theorem folds_id (hrecord : p.alreadySeen = .record) : p.Folds id where
  record s := by rw [hrecord]; rfl
  rep_rep _ _ := rfl
  isGoal _ _ _ _ h := congrArg _ h
  heuristic _ _ _ _ h := congrArg _ h
  move := by
    rintro s t - - rfl m hm
    exact ⟨m, hm, rfl, rfl⟩

/-- What a search needs to know of its gauge. -/
structure Suits (gauge : Gauge S M K) : Prop where
  mono : ∀ s, p.Reachable s → ∀ m ∈ p.legalMoves s, ∀ k c, gauge.rank s k ≤ gauge.rank s c →
    gauge.rank (p.applyMove s m) (gauge.step s m k) ≤ gauge.rank (p.applyMove s m) (gauge.step s m c)
  le_step : ∀ s, p.Reachable s → ∀ m ∈ p.legalMoves s, ∀ c,
    gauge.rank s c ≤ gauge.rank (p.applyMove s m) (gauge.step s m c)
  rank_eq : ∀ s t, p.Reachable s → p.Reachable t → rep s = rep t → gauge.rank s = gauge.rank t
  isGoal : ∀ s t, p.Reachable s → p.Reachable t → rep s = rep t → p.isGoal s = p.isGoal t
  move : ∀ s t, p.Reachable s → p.Reachable t → rep s = rep t → ∀ m ∈ p.legalMoves s,
    ∃ m' ∈ p.legalMoves t, rep (p.applyMove t m') = rep (p.applyMove s m) ∧
      gauge.step t m' = gauge.step s m

variable {p rep}

theorem Folds.suits_length (h : p.Folds rep) : p.Suits rep Gauge.length where
  mono _ _ _ _ _ _ hle := Nat.succ_le_succ hle
  le_step _ _ _ _ c := Nat.le_succ c
  rank_eq _ _ _ _ _ := rfl
  isGoal := h.isGoal
  move s t hs ht hst m hm := by
    obtain ⟨m', hm', hrep, -⟩ := h.move s t hs ht hst m hm
    exact ⟨m', hm', hrep, rfl⟩

theorem Folds.suits_cost (h : p.Folds rep) (hsteady : p.Steady) : p.Suits rep p.costGauge where
  mono s hs m hm k c hle := by
    -- Where the sums are cut off, the estimates behind the move are cut off as well.
    have hmove := hsteady s hs m hm
    have hk := Cost.toNat_le_largest k
    simp only [costGauge, Cost.toNat_plus] at hle ⊢
    omega
  le_step s hs m hm c := by
    have hmove := hsteady s hs m hm
    simp only [costGauge, Cost.toNat_plus]
    omega
  rank_eq s t hs ht hst := by
    funext c
    simp only [costGauge, h.heuristic s t hs ht hst]
  isGoal := h.isGoal
  move s t hs ht hst m hm := by
    obtain ⟨m', hm', hrep, hcost⟩ := h.move s t hs ht hst m hm
    refine ⟨m', hm', hrep, ?_⟩
    funext c
    simp only [costGauge, hcost]

/-- Some route leads to the state and has come this far. -/
inductive Comes (p : PureProblem S M) (gauge : Gauge S M K) : S → K → Prop
  | start : Comes p gauge p.initial gauge.zero
  | move {s : S} {k : K} {m : M} (comes : Comes p gauge s k) (legal : m ∈ p.legalMoves s) :
    Comes p gauge (p.applyMove s m) (gauge.step s m k)

theorem Comes.reachable {gauge : Gauge S M K} {s : S} {k : K} (h : p.Comes gauge s k) :
    p.Reachable s := by
  induction h with
  | start => exact ⟨_, _, .stay⟩
  | move _ hm ih => exact ih.step hm

theorem comes_cost {ms : List M} {s : S} {c : Cost} (route : p.rules.Route p.initial ms s c) :
    p.Comes p.costGauge s c := by
  induction route with
  | stay => exact .start
  | snoc route step ih =>
    obtain ⟨hm, rfl, rfl⟩ := step_rules_iff.1 step
    exact ih.move hm

theorem comes_length {ms : List M} {s : S} {c : Cost} (route : p.rules.Route p.initial ms s c) :
    p.Comes Gauge.length s ms.length := by
  induction route with
  | stay => exact .start
  | snoc route step ih =>
    obtain ⟨hm, rfl, rfl⟩ := step_rules_iff.1 step
    rw [List.length_append]
    exact ih.move hm

end PureProblem

/-! ### Covers -/

section

variable (p : PureProblem S M) (rep : S → S) (gauge : Gauge S M K) (closed opened : S → K → Prop)

/-- The class of the state is closed or open, and reached no worse than this. -/
def Met (s : S) (c : K) : Prop :=
  ∃ k, (closed (rep s) k ∨ opened (rep s) k) ∧ gauge.rank s k ≤ gauge.rank s c

/-- What the search has closed, and what it has opened, is enough to find every goal. -/
structure Coverage : Prop where
  initial : Met rep gauge closed opened p.initial gauge.zero
  /-- No goal is closed. -/
  isGoal : ∀ s, p.Reachable s → ∀ k, closed (rep s) k → p.isGoal s = false
  /-- What a move reaches from a closed class is met. -/
  move : ∀ s, p.Reachable s → ∀ k, closed (rep s) k → ∀ m ∈ p.legalMoves s,
    Met rep gauge closed opened (p.applyMove s m) (gauge.step s m k)

end

namespace Coverage

variable {p : PureProblem S M} {rep : S → S} {gauge : Gauge S M K} {closed opened opened' : S → K → Prop}
  (h : Coverage p rep gauge closed opened) (hsuits : p.Suits rep gauge) {s : S} {c k : K}
include h hsuits

/-- Every route passes something open that ranks no worse, or ends in a class that is closed and reached no
worse. -/
theorem met (comes : p.Comes gauge s c) :
    (∃ k, closed (rep s) k ∧ gauge.rank s k ≤ gauge.rank s c) ∨
      ∃ t k, p.Reachable t ∧ opened (rep t) k ∧ gauge.rank t k ≤ gauge.rank s c := by
  induction comes with
  | start =>
    obtain ⟨k, hk | hk, hle⟩ := h.initial
    · exact .inl ⟨k, hk, hle⟩
    · exact .inr ⟨p.initial, k, ⟨_, _, .stay⟩, hk, hle⟩
  | @move s c m comes hm ih =>
    have hs := comes.reachable
    rcases ih with ⟨k, hk, hle⟩ | ⟨t, k, ht, hk, hle⟩
    · have hnext := hsuits.mono s hs m hm k c hle
      obtain ⟨k', hk' | hk', hle'⟩ := h.move s hs k hk m hm
      · exact .inl ⟨k', hk', Nat.le_trans hle' hnext⟩
      · exact .inr ⟨_, k', hs.step hm, hk', Nat.le_trans hle' hnext⟩
    · exact .inr ⟨t, k, ht, hk, Nat.le_trans hle (hsuits.le_step s hs m hm c)⟩

/-- A route to a goal passes something open that ranks no worse. -/
theorem exists_open (comes : p.Comes gauge s c) (hgoal : p.isGoal s = true) :
    ∃ t k, p.Reachable t ∧ opened (rep t) k ∧ gauge.rank t k ≤ gauge.rank s c := by
  rcases h.met hsuits comes with ⟨k, hk, -⟩ | hopen
  · rw [h.isGoal s comes.reachable k hk] at hgoal
    cases hgoal
  · exact hopen

/-- Something open can be dropped if its class is closed and was reached no worse. -/
theorem drop (hs : p.Reachable s) (hc : closed (rep s) c) (hle : gauge.rank s c ≤ gauge.rank s k)
    (hopened : ∀ r j, opened r j → opened' r j ∨ r = rep s ∧ j = k) :
    Coverage p rep gauge closed opened' := by
  have hmet : ∀ t, p.Reachable t → ∀ d, Met rep gauge closed opened t d →
      Met rep gauge closed opened' t d := by
    rintro t ht d ⟨j, hj | hj, hjd⟩
    · exact ⟨j, .inl hj, hjd⟩
    · rcases hopened _ _ hj with hj | ⟨hrep, rfl⟩
      · exact ⟨j, .inr hj, hjd⟩
      · rw [hsuits.rank_eq s t hs ht hrep.symm] at hle
        exact ⟨c, .inl (hrep ▸ hc), Nat.le_trans hle hjd⟩
  exact ⟨hmet _ ⟨_, _, .stay⟩ _ h.initial, h.isGoal,
    fun t ht j hj m hm => hmet _ (ht.step hm) _ (h.move t ht j hj m hm)⟩

/-- A class can be closed when one of its states is expanded. It may have been closed before, if it was
reached no better then or is left as it is. -/
theorem expand (hs : p.Reachable s) (hgoal : p.isGoal s = false)
    (hopened : ∀ r j, opened r j → opened' r j ∨ r = rep s ∧ j = k) {closed' : S → K → Prop}
    (hnew : closed' (rep s) k) (hclosed : ∀ r j, closed' r j → r = rep s ∧ j = k ∨ closed r j)
    (hold : ∀ r j, closed r j → closed' r j ∨ r = rep s ∧ gauge.rank s k ≤ gauge.rank s j)
    (hmoves : ∀ m ∈ p.legalMoves s,
      Met rep gauge closed' opened' (p.applyMove s m) (gauge.step s m k)) :
    Coverage p rep gauge closed' opened' := by
  have hmet : ∀ t, p.Reachable t → ∀ d, Met rep gauge closed opened t d →
      Met rep gauge closed' opened' t d := by
    rintro t ht d ⟨j, hj | hj, hjd⟩
    · rcases hold _ _ hj with hj | ⟨hrep, hle⟩
      · exact ⟨j, .inl hj, hjd⟩
      · rw [hsuits.rank_eq s t hs ht hrep.symm] at hle
        exact ⟨k, .inl (hrep ▸ hnew), Nat.le_trans hle hjd⟩
    · rcases hopened _ _ hj with hj | ⟨hrep, rfl⟩
      · exact ⟨j, .inr hj, hjd⟩
      · exact ⟨j, .inl (hrep ▸ hnew), hjd⟩
  refine ⟨hmet _ ⟨_, _, .stay⟩ _ h.initial, fun t ht j hj => ?_, fun t ht j hj m hm => ?_⟩
  · rcases hclosed _ _ hj with ⟨hrep, -⟩ | hj
    · rw [hsuits.isGoal t s ht hs hrep]
      exact hgoal
    · exact h.isGoal t ht j hj
  · rcases hclosed _ _ hj with ⟨hrep, rfl⟩ | hj
    · -- The state that was expanded has a move into the same class.
      obtain ⟨m', hm', hnext, hstep⟩ := hsuits.move t s ht hs hrep m hm
      obtain ⟨k', hk', hle⟩ := hmoves m' hm'
      rw [hnext] at hk'
      rw [hsuits.rank_eq _ _ (hs.step hm') (ht.step hm) hnext, hstep] at hle
      exact ⟨k', hk', hle⟩
    · exact hmet _ (ht.step hm) _ (h.move t ht j hj m hm)

end Coverage

/-! ### Nodes that are open -/

/-- Some node that waits has a state of this class and has come this far. -/
def OpenAt (rep : S → S) (pos : Node S M → K) (waiting : List (Node S M)) (r : S) (k : K) : Prop :=
  ∃ n ∈ waiting, rep n.state = r ∧ pos n = k

namespace OpenAt

variable {rep : S → S} {pos : Node S M → K} {waiting rest : List (Node S M)} {n : Node S M} {r : S} {k : K}

theorem of_mem (hn : n ∈ waiting) : OpenAt rep pos waiting (rep n.state) (pos n) := ⟨n, hn, rfl, rfl⟩

theorem mono (h : OpenAt rep pos rest r k) (hsub : ∀ c ∈ rest, c ∈ waiting) :
    OpenAt rep pos waiting r k := by
  obtain ⟨c, hc, hr, hk⟩ := h
  exact ⟨c, hsub c hc, hr, hk⟩

/-- What was open still is when a node has been taken, or it is that node. -/
theorem of_perm (h : OpenAt rep pos waiting r k) (hperm : waiting.Perm (n :: rest)) :
    OpenAt rep pos rest r k ∨ r = rep n.state ∧ k = pos n := by
  obtain ⟨c, hc, rfl, rfl⟩ := h
  rcases List.mem_cons.1 (hperm.mem_iff.1 hc) with rfl | hc
  · exact .inr ⟨rfl, rfl⟩
  · exact .inl (.of_mem hc)

end OpenAt

namespace Coverage

variable {p : PureProblem S M} {rep : S → S} {waiting : List (Node S M)} {n : Node S M}

theorem start (p : PureProblem S M) (rep : S → S) (gauge : Gauge S M K) {closed : S → K → Prop}
    (hclosed : ∀ r k, ¬ closed r k) {pos : Node S M → K} {root : Node S M} (hstate : root.state = p.initial)
    (hpos : pos root = gauge.zero) : Coverage p rep gauge closed (OpenAt rep pos [root]) := by
  have hroot : OpenAt rep pos [root] (rep p.initial) gauge.zero :=
    ⟨root, List.mem_singleton_self _, by rw [hstate], hpos⟩
  exact ⟨⟨_, .inr hroot, Nat.le_refl _⟩, fun s _ k hk => absurd hk (hclosed _ _),
    fun s _ k hk => absurd hk (hclosed _ _)⟩

theorem not_solvable {gauge : Gauge S M K} {closed : S → K → Prop} {pos : Node S M → K}
    (h : Coverage p rep gauge closed (OpenAt rep pos [])) (hsuits : p.Suits rep gauge)
    (hcomes : ∀ s, p.Reachable s → ∃ c, p.Comes gauge s c) : ¬ p.Solvable := by
  rintro ⟨s, hs, hgoal⟩
  obtain ⟨c, hc⟩ := hcomes s hs
  obtain ⟨t, k, -, ⟨o, ho, -⟩, -⟩ := h.exists_open hsuits hc hgoal
  cases ho

/-- A goal of least estimate among the nodes that wait is a best one. -/
theorem isBest {closed : S → Cost → Prop}
    (h : Coverage p rep p.costGauge closed (OpenAt rep Node.pathCost waiting)) (hfolds : p.Folds rep)
    (hcons : p.Consistent) (hfair : ∀ n ∈ waiting, n.Fair p) (hn : n ∈ waiting)
    (hgoal : p.isGoal n.state = true) (hleast : ∀ c ∈ waiting, n.estimate ≤ c.estimate) :
    p.IsBest n.toPath := by
  have hsuits := hfolds.suits_cost hcons.steady
  refine ⟨⟨n.state, (hfair n hn).genuine, hgoal⟩, fun ms t c route ht => ?_⟩
  have hcomes := PureProblem.comes_cost route
  obtain ⟨u, k, hu, ⟨o, ho, hrep, rfl⟩, hle⟩ := h.exists_open hsuits hcomes ht
  -- The rank of the open node is its estimate, and that of the route is what it costs.
  rw [hsuits.rank_eq u o.state hu (hfair o ho).reachable hrep.symm] at hle
  have hrank : o.estimate ≤ c := by
    rw [UInt64.le_iff_toNat_le, (hfair o ho).estimate]
    have hrest := hcons.goal t hcomes.reachable ht
    simp only [PureProblem.costGauge, hrest, Cost.plus_zero] at hle
    exact hle
  exact UInt64.le_trans (hfair n hn).pathCost_le (UInt64.le_trans (hleast o ho) hrank)

end Coverage

/-! ### Taking nodes in the order of their ranks -/

/-- What is closed ranks no worse than any node that waits. -/
structure Wavefront (p : PureProblem S M) (rep : S → S) (gauge : Gauge S M K) (pos : Node S M → K)
    (closed : S → K → Prop) (waiting : List (Node S M)) : Prop where
  coverage : Coverage p rep gauge closed (OpenAt rep pos waiting)
  reachable : ∀ n ∈ waiting, p.Reachable n.state
  behind : ∀ s, p.Reachable s → ∀ k, closed (rep s) k → ∀ n ∈ waiting,
    gauge.rank s k ≤ gauge.rank n.state (pos n)

/-- What is closed once the class of `n` is. -/
def Closing (rep : S → S) (pos : Node S M → K) (n : Node S M) (closed : S → K → Prop) (r : S) (k : K) :
    Prop :=
  r = rep n.state ∧ k = pos n ∨ closed r k

namespace Wavefront

variable {p : PureProblem S M} {rep : S → S} {gauge : Gauge S M K} {pos : Node S M → K}
  {closed : S → K → Prop} {waiting rest made : List (Node S M)} {n : Node S M} {k : K}

theorem start (p : PureProblem S M) (rep : S → S) (gauge : Gauge S M K) {root : Node S M}
    (hstate : root.state = p.initial) (hpos : pos root = gauge.zero) :
    Wavefront p rep gauge pos (fun _ _ => False) [root] := by
  refine ⟨.start p rep gauge (fun _ _ => id) hstate hpos, fun n hn => ?_, fun _ _ _ hk => hk.elim⟩
  rw [List.mem_singleton.1 hn, hstate]
  exact ⟨_, _, .stay⟩

theorem drop (h : Wavefront p rep gauge pos closed waiting) (hsuits : p.Suits rep gauge)
    (hperm : waiting.Perm (n :: rest)) (hclosed : closed (rep n.state) k) :
    Wavefront p rep gauge pos closed rest := by
  have hn : n ∈ waiting := hperm.mem_iff.2 (List.mem_cons_self ..)
  have hsub : ∀ c ∈ rest, c ∈ waiting := fun c hc => hperm.mem_iff.2 (List.mem_cons_of_mem _ hc)
  have hreach := h.reachable n hn
  exact ⟨h.coverage.drop hsuits hreach hclosed (h.behind _ hreach k hclosed n hn) fun r j hj =>
      hj.of_perm hperm,
    fun c hc => h.reachable c (hsub c hc), fun s hs j hj c hc => h.behind s hs j hj c (hsub c hc)⟩

/-- A node of least rank can be expanded. Of its successors, those need not wait whose classes are closed, or
open at no larger rank. -/
theorem expand (h : Wavefront p rep gauge pos closed waiting) (hsuits : p.Suits rep gauge)
    (hperm : waiting.Perm (n :: rest)) (hgoal : p.isGoal n.state = false)
    (hleast : ∀ c ∈ rest, gauge.rank n.state (pos n) ≤ gauge.rank c.state (pos c))
    {waiting' : List (Node S M)} (hwaiting : ∀ c, c ∈ waiting' ↔ c ∈ made ∨ c ∈ rest)
    (hmade : ∀ c ∈ made, ∃ m ∈ p.legalMoves n.state, c.state = p.applyMove n.state m ∧
      pos c = gauge.step n.state m (pos n))
    (hmoves : ∀ m ∈ p.legalMoves n.state,
      (∃ k, Closing rep pos n closed (rep (p.applyMove n.state m)) k) ∨
        ∃ c ∈ waiting', rep c.state = rep (p.applyMove n.state m) ∧ gauge.rank c.state (pos c) ≤
          gauge.rank (p.applyMove n.state m) (gauge.step n.state m (pos n))) :
    Wavefront p rep gauge pos (Closing rep pos n closed) waiting' := by
  have hn : n ∈ waiting := hperm.mem_iff.2 (List.mem_cons_self ..)
  have hreach := h.reachable n hn
  have hreach' : ∀ c ∈ waiting', p.Reachable c.state := by
    intro c hc
    rcases (hwaiting c).1 hc with hc | hc
    · obtain ⟨m, hm, hstate, -⟩ := hmade c hc
      exact hstate ▸ hreach.step hm
    · exact h.reachable c (hperm.mem_iff.2 (List.mem_cons_of_mem _ hc))
  have hahead : ∀ c ∈ waiting', gauge.rank n.state (pos n) ≤ gauge.rank c.state (pos c) := by
    intro c hc
    rcases (hwaiting c).1 hc with hc | hc
    · obtain ⟨m, hm, hstate, hpos⟩ := hmade c hc
      rw [hstate, hpos]
      exact hsuits.le_step _ hreach m hm _
    · exact hleast c hc
  have hbehind : ∀ s, p.Reachable s → ∀ k, Closing rep pos n closed (rep s) k →
      gauge.rank s k ≤ gauge.rank n.state (pos n) := by
    rintro s hs k (⟨hrep, rfl⟩ | hk)
    · exact Nat.le_of_eq (congrFun (hsuits.rank_eq s n.state hs hreach hrep) _)
    · exact h.behind s hs k hk n hn
  refine ⟨h.coverage.expand hsuits hreach hgoal ?_ (.inl ⟨rfl, rfl⟩) (fun _ _ => id)
    (fun r j hj => .inl (.inr hj)) fun m hm => ?_, hreach',
    fun s hs k hk c hc => Nat.le_trans (hbehind s hs k hk) (hahead c hc)⟩
  · intro r j hj
    exact (hj.of_perm hperm).imp_left fun hj => hj.mono fun c hc => (hwaiting c).2 (.inr hc)
  · have hnext := hreach.step hm
    rcases hmoves m hm with ⟨k, hk⟩ | ⟨c, hc, hrep, hle⟩
    · exact ⟨k, .inl hk, Nat.le_trans (hbehind _ hnext k hk) (hsuits.le_step _ hreach m hm _)⟩
    · rw [hsuits.rank_eq c.state _ (hreach' c hc) hnext hrep] at hle
      exact ⟨pos c, .inr ⟨c, hc, hrep, rfl⟩, hle⟩

end Wavefront

end StateSearch
