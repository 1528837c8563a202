import StateSearch.Proofs.Replay

/-!
# The checks of a path agree

Moves that are checked need not be legal, so both checks may stop early, and one of them asks for costs that
the other does not need. What they come to is still the same (`checks_agree`): a path is confirmed exactly if a
replay of its moves ends in a goal and the costs along the replay add up to the cost of the path, and a replay
is given up exactly at a move that is not legal after the moves before it, from where no path leads on to a
solution.

Each direction follows the checks move by move: the moves before are replayed and priced, the moves behind are
still to be played. Where moves are equal only to themselves, the paths that are confirmed are the solutions of
the rules (`isSolution_iff_solves`).
-/

namespace StateSearch

namespace Problem

variable {ω S M : Type} [BEq M] {rules : Rules S M} {p : Problem ω S M} {s : S} {m : M} {ms : List M}
  {costs : List Cost} {total : Cost} {world : ω}

/-! ### Confirmed paths -/

theorem exists_priced_of_isSolutionFrom (hp : p.Follows rules) (hcosts : p.Priced rules world ms costs)
    (hs : (p.replay ms world).result = .ok (some s)) {rest : List M}
    (h : (p.isSolutionFrom total s (Cost.sumFrom 0 costs) rest world).result = .ok true) :
    ∃ goal costs, (p.replay (ms ++ rest) world).result = .ok (some goal) ∧
      rules.isGoal goal = .ok true ∧ p.Priced rules world (ms ++ rest) costs ∧
      Cost.sumFrom 0 costs = total := by
  induction rest generalizing ms costs s with
  | nil =>
    rw [isSolutionFrom] at h
    split at h <;> rename_i hsum
    · rw [List.append_nil]
      exact ⟨s, costs, hs, (hp.isGoal s world).symm.trans h, hcosts, hsum⟩
    · cases h
  | cons m rest ih =>
    obtain ⟨c, t, hm, hc, ht, h⟩ := of_isSolutionFrom_cons hp h
    have hsum : Cost.plus (Cost.sumFrom 0 costs) c = Cost.sumFrom 0 (costs ++ [c]) :=
      (Cost.sumFrom_append 0 costs [c]).symm
    rw [hsum] at h
    rw [List.append_cons]
    exact ih (hcosts.snoc hs hc) (replay_concat hp hs hm ht) h

theorem isSolution_iff_priced (hp : p.Follows rules) {path : Path M} :
    (p.isSolution path world).result = .ok true ↔
      ∃ goal costs, (p.replay path.moves world).result = .ok (some goal) ∧
        rules.isGoal goal = .ok true ∧ p.Priced rules world path.moves costs ∧
        Cost.sumFrom 0 costs = path.cost := by
  constructor
  · intro h
    have hstart : p.Priced rules world [] [] := .nil
    exact exists_priced_of_isSolutionFrom hp hstart rfl h
  · rintro ⟨goal, costs, hreplay, hgoal, hcosts, hsum⟩
    exact (isSolution_of_priced hp hcosts hreplay path.cost).trans ((if_pos hsum).trans hgoal)

theorem route_of_priced [LawfulBEq M] (hp : p.Follows rules) (hcosts : p.Priced rules world ms costs)
    (hs : (p.replay ms world).result = .ok (some s)) :
    rules.Route rules.initial ms s (Cost.sumFrom 0 costs) := by
  induction hcosts generalizing s with
  | nil =>
    rw [replay, hp.initial] at hs
    cases hs
    exact .stay
  | snoc _ reached hc ih =>
    obtain ⟨hm, ht⟩ := of_replay_concat hp reached hs
    rw [Cost.sumFrom_append]
    exact (ih reached).snoc ⟨Rules.admits_iff_isLegal.1 hm, ht, hc⟩

/-- The checker confirms the solutions and no other path. -/
theorem isSolution_iff_solves [LawfulBEq M] (hp : p.Follows rules) {path : Path M} :
    (p.isSolution path world).result = .ok true ↔ rules.Solves path := by
  refine ⟨fun h => ?_, fun h => isSolution_of_solves hp h world⟩
  obtain ⟨goal, costs, hreplay, hgoal, hcosts, hsum⟩ := (isSolution_iff_priced hp).1 h
  exact ⟨goal, hsum ▸ route_of_priced hp hcosts hreplay, hgoal⟩

/-! ### Illegal moves -/

/-- The moves can be replayed, and in the state that they lead to the next move is not legal. -/
def IllegalAfter (p : Problem ω S M) (rules : Rules S M) (world : ω) (moves : List M) (next : M) : Prop :=
  ∃ s, (p.replay moves world).result = .ok (some s) ∧ rules.Refuses s next

theorem exists_illegalAfter_of_replayFrom (hp : p.Follows rules)
    (hs : (p.replay ms world).result = .ok (some s)) {rest : List M}
    (h : (p.replayFrom s rest world).result = .ok none) :
    ∃ before next after, ms ++ rest = before ++ next :: after ∧
      p.IllegalAfter rules world before next := by
  induction rest generalizing ms s with
  | nil => cases h
  | cons m rest ih =>
    rcases of_replayFrom_cons hp h with ⟨t, hm, ht, h⟩ | ⟨hm, -⟩
    · rw [List.append_cons]
      exact ih (replay_concat hp hs hm ht) h
    · exact ⟨ms, m, rest, rfl, s, hs, hm⟩

theorem replay_of_illegalAfter (hp : p.Follows rules) (h : p.IllegalAfter rules world ms m)
    (after : List M) : (p.replay (ms ++ m :: after) world).result = .ok none := by
  obtain ⟨s, hs, hm⟩ := h
  rw [replay_append hp hs, replayFrom_cons_of_refuses hp hm]

theorem replay_eq_none_iff (hp : p.Follows rules) : (p.replay ms world).result = .ok none ↔
    ∃ before next after, ms = before ++ next :: after ∧ p.IllegalAfter rules world before next := by
  constructor
  · intro h
    have hstart : (p.replay [] world).result = .ok (some p.initial) := rfl
    exact exists_illegalAfter_of_replayFrom hp hstart h
  · rintro ⟨before, next, after, rfl, h⟩
    exact replay_of_illegalAfter hp h after

theorem isSolution_ne_true_of_illegalAfter (hp : p.Follows rules) (h : p.IllegalAfter rules world ms m)
    (after : List M) (total : Cost) :
    (p.isSolution ⟨ms ++ m :: after, total⟩ world).result ≠ .ok true := by
  intro hsolution
  obtain ⟨goal, costs, hreplay, -⟩ := (isSolution_iff_priced hp).1 hsolution
  cases hreplay.symm.trans (replay_of_illegalAfter hp h after)

theorem isSolution_of_illegalAfter (hp : p.Follows rules) (h : p.IllegalAfter rules world ms m)
    (hcosts : p.Priced rules world ms costs) (after : List M) (total : Cost) :
    (p.isSolution ⟨ms ++ m :: after, total⟩ world).result = .ok false := by
  obtain ⟨s, hs, hm⟩ := h
  rw [isSolution_append hp hcosts hs, isSolutionFrom_cons_of_refuses hp hm]

/-! ### Both checks -/

/-- Whatever the moves are, and in whatever worlds the checks are made, they agree. The path is a solution
exactly if the replay ends in a goal and the path costs what the moves cost along the replay; where these costs
are told, the check answers. The replay gives up exactly if some moves can be replayed and the next one is not
legal after them, and no path that goes on with that move is a solution. -/
theorem checks_agree (hp : p.Follows rules) (world world' : ω) :
    (∀ path : Path M, (p.isSolution path world).result = .ok true ↔
      ∃ goal costs, (p.replay path.moves world').result = .ok (some goal) ∧
        rules.isGoal goal = .ok true ∧ p.Priced rules world' path.moves costs ∧
        Cost.sumFrom 0 costs = path.cost) ∧
    (∀ (path : Path M) (last : S) (costs : List Cost),
      (p.replay path.moves world').result = .ok (some last) → p.Priced rules world' path.moves costs →
        (p.isSolution path world).result =
          if Cost.sumFrom 0 costs = path.cost then rules.isGoal last else .ok false) ∧
    (∀ moves : List M, (p.replay moves world').result = .ok none ↔
      ∃ before next after, moves = before ++ next :: after ∧ p.IllegalAfter rules world' before next) ∧
    ∀ (before : List M) (next : M), p.IllegalAfter rules world' before next →
      ∀ (after : List M) (cost : Cost),
        (p.isSolution ⟨before ++ next :: after, cost⟩ world).result ≠ .ok true ∧
        ∀ costs, p.Priced rules world' before costs →
          (p.isSolution ⟨before ++ next :: after, cost⟩ world).result = .ok false := by
  have hworld (path : Path M) : (p.isSolution path world).result = (p.isSolution path world').result :=
    result_isSolutionFrom_eq hp path.cost p.initial 0 path.moves world world'
  simp only [hworld]
  refine ⟨fun path => isSolution_iff_priced hp, ?_, fun moves => replay_eq_none_iff hp, ?_⟩
  · intro path last costs hreplay hcosts
    exact isSolution_of_priced hp hcosts hreplay path.cost
  · intro before next h after cost
    exact ⟨isSolution_ne_true_of_illegalAfter hp h after cost,
      fun costs hcosts => isSolution_of_illegalAfter hp h hcosts after cost⟩

end Problem

/-! ### An example -/

/-- What opens a gate. -/
inductive Ticket where
  | fresh
  | worn

namespace Ticket

/-- A worn ticket is equal to no ticket, not even to itself. -/
instance : BEq Ticket where
  beq
    | fresh, fresh => true
    | _, _ => false

/-- Two gates one behind the other, each at the largest cost. What it costs to go further is not told. -/
def gates : Rules Nat Ticket where
  initial := 0
  isGoal passed := .ok (passed == 2)
  legalMoves _ := .ok [fresh, worn]
  applyMove passed _ := .ok (passed + 1)
  moveCost passed _ := if passed < 2 then .ok Cost.largest else .error .wordless

theorem checks_agree_gates : (gates.toProblem : Problem Unit Nat Ticket).Follows gates ∧
    (gates.toProblem.isSolution ⟨[fresh, fresh], Cost.largest⟩ ()).result = .ok true ∧
    (gates.toProblem.isSolution ⟨[fresh], Cost.largest⟩ ()).result = .ok false ∧
    (gates.toProblem.replay [fresh, worn, fresh] ()).result = .ok none ∧
    (∀ after cost, (gates.toProblem.isSolution ⟨fresh :: worn :: after, cost⟩ ()).result = .ok false) ∧
    ∀ after cost, (gates.toProblem.isSolution ⟨fresh :: fresh :: fresh :: worn :: after, cost⟩ ()).result ≠
      .ok true := by
  have hp : (gates.toProblem : Problem Unit Nat Ticket).Follows gates := gates.follows_toProblem
  have hone : (gates.toProblem : Problem Unit Nat Ticket).Priced gates () [fresh] [Cost.largest] :=
    .snoc .nil rfl rfl
  have hworn (passed : Nat) : gates.Refuses passed worn := ⟨_, rfl, rfl⟩
  obtain ⟨hsolution, hverdict, hreplay, hillegal⟩ := Problem.checks_agree hp () ()
  refine ⟨hp, ?_, ?_, ?_, fun after cost => ?_, fun after cost => ?_⟩
  · exact (hsolution _).2 ⟨2, _, rfl, rfl, hone.snoc rfl rfl, rfl⟩
  · exact hverdict ⟨[fresh], Cost.largest⟩ 1 _ rfl hone
  · exact (hreplay _).2 ⟨[fresh], worn, [fresh], rfl, 1, rfl, hworn 1⟩
  · exact (hillegal [fresh] worn ⟨1, rfl, hworn 1⟩ after cost).2 _ hone
  · exact (hillegal [fresh, fresh, fresh] worn ⟨3, rfl, hworn 3⟩ after cost).1

end Ticket

end StateSearch
