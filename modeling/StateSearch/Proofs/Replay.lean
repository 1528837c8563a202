import StateSearch.Proofs.Route
import StateSearch.Replay

/-!
# Routes and the checks of a path

Both checks of a path play its moves from the first one on. On a problem that follows some rules, the rules
alone decide what one move comes to (`result_replayFrom_cons`, `result_isSolutionFrom_cons`). So a list of moves
can be cut in two: once its first part is replayed, the rest is played from the state that was reached
(`replay_append`), and it is checked at the sum of what the moves so far cost there (`isSolution_append`).

A path is a solution of the rules if its moves are a route to a goal at the cost it claims. If moves are equal
only to themselves, both checks confirm a solution: `replay_of_route` and `isSolution_of_solves`.
-/

namespace StateSearch

variable {ω S M : Type} {rules : Rules S M} {p : Problem ω S M}

/-- The path leads to a goal at the cost it claims. -/
def Rules.Solves (rules : Rules S M) (path : Path M) : Prop :=
  ∃ goal, rules.Route rules.initial path.moves goal path.cost ∧ rules.isGoal goal = .ok true

theorem Node.Solves.toPath {n : Node S M} (h : n.Solves rules) : rules.Solves n.toPath :=
  ⟨n.state, h.genuine, h.isGoal⟩

theorem Call.result_bind {α β : Type} (call : Call ω α) (next : α → Call ω β) (world : ω) :
    ((call >>= next) world).result =
      (call world).result >>= fun value => (next value (call world).world).result := by
  show (Call.andThen call next world).result = _
  unfold Call.andThen
  cases h : (call world).result <;> simp only [h] <;> rfl

theorem exists_of_bind_eq_ok {α β ε : Type} {first : Except ε α} {next : α → Except ε β} {value : β}
    (h : (first >>= next) = .ok value) : ∃ between, first = .ok between ∧ next between = .ok value := by
  cases first with
  | error fault => cases h
  | ok between => exact ⟨between, rfl, h⟩

namespace Rules

variable [BEq M] {s : S} {m : M}

/-- The move equals one of the moves that can be played in `s`. -/
def Admits (rules : Rules S M) (s : S) (m : M) : Prop :=
  ∃ moves, rules.legalMoves s = .ok moves ∧ moves.any (· == m) = true

/-- The move equals none of the moves that can be played in `s`. -/
def Refuses (rules : Rules S M) (s : S) (m : M) : Prop :=
  ∃ moves, rules.legalMoves s = .ok moves ∧ moves.any (· == m) = false

theorem admits_iff_isLegal [LawfulBEq M] : rules.Admits s m ↔ rules.IsLegal s m := by
  simp only [Admits, IsLegal, List.any_beq', List.contains_iff_mem]

end Rules

namespace Problem

variable [BEq M] {s t : S} {m : M} {ms : List M} {c spent total : Cost}

/-! ### One move -/

/-- A replay comes to the same in every world. -/
theorem result_replayFrom_eq (hp : p.Follows rules) (s : S) (ms : List M) (world world' : ω) :
    (p.replayFrom s ms world).result = (p.replayFrom s ms world').result := by
  induction ms generalizing s world world' with
  | nil => rfl
  | cons m ms ih =>
    simp only [replayFrom, Call.result_bind, hp.legalMoves]
    refine bind_congr fun moves => ?_
    split
    · simp only [Call.result_bind, hp.applyMove]
      exact bind_congr fun t => ih t _ _
    · rfl

theorem result_isSolutionFrom_eq (hp : p.Follows rules) (total : Cost) (s : S) (spent : Cost) (ms : List M)
    (world world' : ω) : (p.isSolutionFrom total s spent ms world).result =
      (p.isSolutionFrom total s spent ms world').result := by
  induction ms generalizing s spent world world' with
  | nil =>
    simp only [isSolutionFrom]
    split
    · rw [hp.isGoal, hp.isGoal]
    · rfl
  | cons m ms ih =>
    simp only [isSolutionFrom, Call.result_bind, hp.legalMoves]
    refine bind_congr fun moves => ?_
    split
    · simp only [Call.result_bind, hp.moveCost, hp.applyMove]
      exact bind_congr fun c => bind_congr fun t => ih t _ _ _
    · rfl

theorem result_replayFrom_cons (hp : p.Follows rules) (s : S) (m : M) (ms : List M) (world : ω) :
    (p.replayFrom s (m :: ms) world).result = do
      if (← rules.legalMoves s).any (· == m) then
        (p.replayFrom (← rules.applyMove s m) ms world).result
      else
        return none := by
  simp only [replayFrom, Call.result_bind, hp.legalMoves]
  refine bind_congr fun moves => ?_
  split
  · simp only [Call.result_bind, hp.applyMove]
    exact bind_congr fun t => result_replayFrom_eq hp t ms _ _
  · rfl

theorem result_isSolutionFrom_cons (hp : p.Follows rules) (total : Cost) (s : S) (spent : Cost) (m : M)
    (ms : List M) (world : ω) : (p.isSolutionFrom total s spent (m :: ms) world).result = do
      if (← rules.legalMoves s).any (· == m) then
        let spent := Cost.plus spent (← rules.moveCost s m)
        (p.isSolutionFrom total (← rules.applyMove s m) spent ms world).result
      else
        return false := by
  simp only [isSolutionFrom, Call.result_bind, hp.legalMoves]
  refine bind_congr fun moves => ?_
  split
  · simp only [Call.result_bind, hp.moveCost, hp.applyMove]
    exact bind_congr fun c => bind_congr fun t => result_isSolutionFrom_eq hp total t _ ms _ _
  · rfl

theorem replayFrom_cons_of_admits (hp : p.Follows rules) (hm : rules.Admits s m)
    (ht : rules.applyMove s m = .ok t) (ms : List M) (world : ω) :
    (p.replayFrom s (m :: ms) world).result = (p.replayFrom t ms world).result := by
  obtain ⟨moves, hmoves, hmem⟩ := hm
  rw [result_replayFrom_cons hp, hmoves]
  exact (if_pos hmem).trans (by rw [ht]; rfl)

theorem replayFrom_cons_of_refuses (hp : p.Follows rules) (hm : rules.Refuses s m) (ms : List M)
    (world : ω) : (p.replayFrom s (m :: ms) world).result = .ok none := by
  obtain ⟨moves, hmoves, hmem⟩ := hm
  rw [result_replayFrom_cons hp, hmoves]
  exact if_neg (Bool.eq_false_iff.1 hmem)

theorem of_replayFrom_cons (hp : p.Follows rules) {world : ω} {result : Option S}
    (h : (p.replayFrom s (m :: ms) world).result = .ok result) :
    (∃ t, rules.Admits s m ∧ rules.applyMove s m = .ok t ∧
      (p.replayFrom t ms world).result = .ok result) ∨ rules.Refuses s m ∧ result = none := by
  rw [result_replayFrom_cons hp] at h
  obtain ⟨moves, hmoves, h⟩ := exists_of_bind_eq_ok h
  split at h <;> rename_i hmem
  · obtain ⟨t, ht, h⟩ := exists_of_bind_eq_ok h
    exact .inl ⟨t, ⟨moves, hmoves, hmem⟩, ht, h⟩
  · exact .inr ⟨⟨moves, hmoves, Bool.eq_false_iff.2 hmem⟩, (Except.ok.inj h).symm⟩

theorem isSolutionFrom_cons_of_admits (hp : p.Follows rules) (hm : rules.Admits s m)
    (hc : rules.moveCost s m = .ok c) (ht : rules.applyMove s m = .ok t) (total spent : Cost) (ms : List M)
    (world : ω) : (p.isSolutionFrom total s spent (m :: ms) world).result =
      (p.isSolutionFrom total t (Cost.plus spent c) ms world).result := by
  obtain ⟨moves, hmoves, hmem⟩ := hm
  rw [result_isSolutionFrom_cons hp, hmoves]
  exact (if_pos hmem).trans (by rw [hc, ht]; rfl)

theorem isSolutionFrom_cons_of_refuses (hp : p.Follows rules) (hm : rules.Refuses s m)
    (total spent : Cost) (ms : List M) (world : ω) :
    (p.isSolutionFrom total s spent (m :: ms) world).result = .ok false := by
  obtain ⟨moves, hmoves, hmem⟩ := hm
  rw [result_isSolutionFrom_cons hp, hmoves]
  exact if_neg (Bool.eq_false_iff.1 hmem)

theorem of_isSolutionFrom_cons (hp : p.Follows rules) {world : ω}
    (h : (p.isSolutionFrom total s spent (m :: ms) world).result = .ok true) :
    ∃ c t, rules.Admits s m ∧ rules.moveCost s m = .ok c ∧ rules.applyMove s m = .ok t ∧
      (p.isSolutionFrom total t (Cost.plus spent c) ms world).result = .ok true := by
  rw [result_isSolutionFrom_cons hp] at h
  obtain ⟨moves, hmoves, h⟩ := exists_of_bind_eq_ok h
  split at h <;> rename_i hmem
  · obtain ⟨c, hc, h⟩ := exists_of_bind_eq_ok h
    obtain ⟨t, ht, h⟩ := exists_of_bind_eq_ok h
    exact ⟨c, t, ⟨moves, hmoves, hmem⟩, hc, ht, h⟩
  · cases h

/-! ### Many moves -/

theorem replayFrom_append (hp : p.Follows rules) {world : ω}
    (h : (p.replayFrom s ms world).result = .ok (some t)) (rest : List M) :
    (p.replayFrom s (ms ++ rest) world).result = (p.replayFrom t rest world).result := by
  induction ms generalizing s with
  | nil =>
    cases h
    rfl
  | cons m ms ih =>
    rcases of_replayFrom_cons hp h with ⟨u, hm, hu, h⟩ | ⟨-, h⟩
    · rw [List.cons_append, replayFrom_cons_of_admits hp hm hu, ih h]
    · cases h

/-- Once the first moves are replayed, the others are played from the state that was reached. -/
theorem replay_append (hp : p.Follows rules) {world : ω}
    (h : (p.replay ms world).result = .ok (some s)) (rest : List M) :
    (p.replay (ms ++ rest) world).result = (p.replayFrom s rest world).result :=
  replayFrom_append hp h rest

theorem replay_concat (hp : p.Follows rules) {world : ω} (h : (p.replay ms world).result = .ok (some s))
    (hm : rules.Admits s m) (ht : rules.applyMove s m = .ok t) :
    (p.replay (ms ++ [m]) world).result = .ok (some t) := by
  rw [replay_append hp h, replayFrom_cons_of_admits hp hm ht]
  rfl

theorem of_replay_concat (hp : p.Follows rules) {world : ω} (h : (p.replay ms world).result = .ok (some s))
    (ht : (p.replay (ms ++ [m]) world).result = .ok (some t)) :
    rules.Admits s m ∧ rules.applyMove s m = .ok t := by
  rw [replay_append hp h] at ht
  rcases of_replayFrom_cons hp ht with ⟨u, hm, hu, ht⟩ | ⟨-, ht⟩
  · cases ht
    exact ⟨hm, hu⟩
  · cases ht

/-- What the moves cost one by one, each in the state that a replay of the moves before it leads to. -/
inductive Priced (p : Problem ω S M) (rules : Rules S M) (world : ω) : List M → List Cost → Prop
  | nil : Priced p rules world [] []
  | snoc {ms : List M} {costs : List Cost} {s : S} {m : M} {c : Cost}
      (earlier : Priced p rules world ms costs) (reached : (p.replay ms world).result = .ok (some s))
      (cost : rules.moveCost s m = .ok c) : Priced p rules world (ms ++ [m]) (costs ++ [c])

variable {costs : List Cost}

/-- Once the first moves are checked, the others are checked from the state that was reached, at the sum of
the costs so far. -/
theorem isSolution_append (hp : p.Follows rules) {world : ω} (hcosts : p.Priced rules world ms costs)
    (hs : (p.replay ms world).result = .ok (some s)) (rest : List M) (total : Cost) :
    (p.isSolution ⟨ms ++ rest, total⟩ world).result =
      (p.isSolutionFrom total s (Cost.sumFrom 0 costs) rest world).result := by
  induction hcosts generalizing s rest with
  | nil =>
    cases hs
    rfl
  | snoc _ reached hc ih =>
    obtain ⟨hm, ht⟩ := of_replay_concat hp reached hs
    rw [List.append_assoc, ih reached, List.singleton_append, isSolutionFrom_cons_of_admits hp hm hc ht,
      Cost.sumFrom_append]
    rfl

/-- Where a replay ends and all costs are told, the check compares their sum and then asks for the goal. -/
theorem isSolution_of_priced (hp : p.Follows rules) {world : ω} (hcosts : p.Priced rules world ms costs)
    (hs : (p.replay ms world).result = .ok (some s)) (total : Cost) :
    (p.isSolution ⟨ms, total⟩ world).result =
      if Cost.sumFrom 0 costs = total then rules.isGoal s else .ok false := by
  have h := isSolution_append hp hcosts hs [] total
  rw [List.append_nil] at h
  rw [h, isSolutionFrom]
  split
  · exact hp.isGoal s world
  · rfl

/-! ### Solutions -/

variable [LawfulBEq M]

theorem exists_priced_of_route (hp : p.Follows rules) (route : rules.Route rules.initial ms t c)
    (world : ω) : ∃ costs, p.Priced rules world ms costs ∧ (p.replay ms world).result = .ok (some t) ∧
      Cost.sumFrom 0 costs = c := by
  induction route with
  | stay => exact ⟨[], .nil, by rw [replay, hp.initial]; rfl, rfl⟩
  | snoc _ step ih =>
    obtain ⟨costs, hcosts, hreplay, rfl⟩ := ih
    have hm := Rules.admits_iff_isLegal.2 step.legal
    exact ⟨_, hcosts.snoc hreplay step.cost, replay_concat hp hreplay hm step.apply,
      Cost.sumFrom_append ..⟩

/-- Playing the moves of a route leads to its end. -/
theorem replay_of_route (hp : p.Follows rules) (route : rules.Route rules.initial ms t c)
    (world : ω) : (p.replay ms world).result = .ok (some t) := by
  obtain ⟨_, -, hreplay, -⟩ := exists_priced_of_route hp route world
  exact hreplay

/-- The checker confirms every solution. -/
theorem isSolution_of_solves (hp : p.Follows rules) {path : Path M} (h : rules.Solves path)
    (world : ω) : (p.isSolution path world).result = .ok true := by
  obtain ⟨goal, route, hgoal⟩ := h
  obtain ⟨costs, hcosts, hreplay, hsum⟩ := exists_priced_of_route hp route world
  exact (isSolution_of_priced hp hcosts hreplay path.cost).trans ((if_pos hsum).trans hgoal)

end Problem

end StateSearch
