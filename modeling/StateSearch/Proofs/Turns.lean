import StateSearch.Proofs.Act

/-!
# Searches that take turns

A search without workers takes one turn after the other. It takes a node, unless none is left or somebody asked for
a stop, and does something with it. Then it ends, or goes on with other lists. Which lists it keeps, which node is
next and what is done with it is where exhaustive and best-first search differ, and `TurnTaking` leaves it open.
What is said here of such a search holds of both.
-/

namespace StateSearch

open Act

variable {ω S M σ τ : Type}

/-- Take a node and do something with it, unless there is none or somebody asked for a stop. -/
def takeTurn (take? : σ → Option (Node S M × σ)) (hand : Node S M → σ → Act ω τ) (exhausted stopped : τ)
    (lists : σ) : Act ω τ :=
  match take? lists with
  | none => return exhausted
  | some (n, rest) => do
    if ← isStopped then return stopped else hand n rest

/-- A search of `p` that takes turns. Between two turns it has lists in `σ`, and a turn comes to something in `τ`. -/
structure TurnTaking (p : Problem ω S M) (σ τ : Type) where
  /-- What comes before the first turn. -/
  start : Act ω σ
  /-- The node that is next, and the lists without it. -/
  take? : σ → Option (Node S M × σ)
  /-- What is done with a node in hand. -/
  hand : Node S M → σ → Act ω τ
  exhausted : τ
  stopped : τ
  turn : σ → Act ω τ
  /-- After a turn the search ends, maybe with a goal, or goes on. -/
  next : τ → Option (Node S M) ⊕ σ
  /-- All turns. -/
  run : σ → Act ω (Option (Node S M))
  solve : Act ω (Option (Path M))
  /-- How often the search can still go on. -/
  room : Arena ω → Nat
  next_exhausted : next exhausted = .inl none
  next_stopped : next stopped = .inl none
  turn_eq : ∀ lists, turn lists = takeTurn take? hand exhausted stopped lists
  run_eq : ∀ lists, run lists = turn lists >>= fun result => (next result).elim pure run
  solve_eq : solve = start >>= fun lists => run lists >>= conclude p
  room_of_turn : ∀ {lists rest : σ} {result : τ} {arena after : Arena ω},
    turn lists arena = .ok result after → next result = .inr rest → room after < room arena

namespace TurnTaking

variable {p : Problem ω S M} {search : TurnTaking p σ τ} {n : Node S M} {lists rest : σ} {result : τ}
  {fault : Fault} {arena middle after : Arena ω}

/-- The goal with which the search ends after this turn, if it does. -/
def goal? (search : TurnTaking p σ τ) (result : τ) : Option (Node S M) :=
  (search.next result).elim id fun _ => none

/-! ### Turns -/

theorem turn_of_stopped (search : TurnTaking p σ τ) (lists : σ) (hstopped : arena.stopped = true) :
    search.turn lists arena =
      .ok (if (search.take? lists).isNone then search.exhausted else search.stopped) arena := by
  rw [search.turn_eq, takeTurn]
  cases search.take? lists with
  | none => rfl
  | some taken =>
    show (if arena.stopped then _ else _ : Act ω τ) arena = _
    rw [hstopped]
    rfl

theorem turn_of_none (ht : search.take? lists = none) : search.turn lists arena = .ok search.exhausted arena := by
  rw [search.turn_eq, takeTurn, ht]
  rfl

theorem turn_of_take? (ht : search.take? lists = some (n, rest)) (hopen : arena.stopped = false) :
    search.turn lists arena = search.hand n rest arena := by
  rw [search.turn_eq, takeTurn, ht]
  exact (bind_eq (isStopped_eq hopen)).trans rfl

/-- A turn is to be looked at only for what is done with the node in hand. -/
theorem wp_turn (search : TurnTaking p σ τ) (lists : σ) {post : τ → Arena ω → Prop}
    {err : Fault → Arena ω → Prop} (hexhausted : search.take? lists = none → post search.exhausted arena)
    (hstopped : arena.stopped = true → post search.stopped arena)
    (hhand : ∀ n rest, search.take? lists = some (n, rest) → arena.stopped = false →
      wp (search.hand n rest) post err arena) : wp (search.turn lists) post err arena := by
  cases ht : search.take? lists with
  | none =>
    unfold wp
    rw [turn_of_none ht]
    exact hexhausted ht
  | some taken =>
    obtain ⟨n, rest⟩ := taken
    cases hs : arena.stopped with
    | true =>
      unfold wp
      rw [search.turn_of_stopped lists hs, ht]
      exact hstopped hs
    | false =>
      have hwp := hhand n rest ht hs
      unfold wp at hwp ⊢
      rwa [turn_of_take? ht hs]

/-! ### Runs -/

theorem run_of_turn (ht : search.turn lists arena = .ok result after) :
    search.run lists arena = (search.next result).elim pure search.run after := by
  rw [search.run_eq]
  exact bind_eq ht

theorem run_of_turn_error (ht : search.turn lists arena = .error fault after) :
    search.run lists arena = .error fault after := by
  rw [search.run_eq]
  show EStateM.bind _ _ arena = _
  unfold EStateM.bind
  rw [ht]

theorem run_of_stopped (hstopped : arena.stopped = true) : search.run lists arena = .ok none arena := by
  rw [run_of_turn (search.turn_of_stopped lists hstopped)]
  cases (search.take? lists).isNone with
  | true =>
    rw [if_pos rfl, search.next_exhausted]
    rfl
  | false =>
    rw [if_neg Bool.false_ne_true, search.next_stopped]
    rfl

/-- What every turn keeps, a run keeps. -/
theorem wp_run {I : σ → Arena ω → Prop} {post : Option (Node S M) → Arena ω → Prop}
    {err : Fault → Arena ω → Prop}
    (hturn : ∀ lists arena, I lists arena → wp (search.turn lists)
      (fun result after => (search.next result).elim (post · after) (I · after)) err arena)
    (h : I lists arena) : wp (search.run lists) post err arena := by
  induction hr : search.room arena using Nat.strongRecOn generalizing lists arena with
  | _ _ ih =>
    have hlists := hturn lists arena h
    unfold wp at hlists ⊢
    cases ht : search.turn lists arena with
    | error fault after =>
      rw [ht] at hlists
      rw [run_of_turn_error ht]
      exact hlists
    | ok result after =>
      rw [ht] at hlists
      rw [run_of_turn ht]
      cases hnext : search.next result with
      | inl goal =>
        simp only [hnext] at hlists
        exact hlists
      | inr rest =>
        simp only [hnext] at hlists
        exact ih _ (hr ▸ search.room_of_turn ht hnext) hlists rfl

/-- Two searches do the same if they take the same turns as long as their lists satisfy `I`. -/
theorem run_congr {p' : Problem ω S M} (search : TurnTaking p σ τ) (search' : TurnTaking p' σ τ)
    (lists : σ) {I : σ → Prop} (hnext : search'.next = search.next)
    (hturn : ∀ lists, I lists → search'.turn lists = search.turn lists)
    (hkeeps : ∀ lists arena, I lists → wp (search.turn lists)
      (fun result _ => (search.next result).elim (fun _ => True) I) (fun _ _ => True) arena)
    (h : I lists) : search'.run lists = search.run lists := by
  funext arena
  induction hr : search.room arena using Nat.strongRecOn generalizing lists arena with
  | _ _ ih =>
    have hsame := congrFun (hturn lists h) arena
    cases ht : search.turn lists arena with
    | error fault after => rw [run_of_turn_error ht, run_of_turn_error (hsame.trans ht)]
    | ok result after =>
      have hkept := (hkeeps lists arena h).of_eq_ok ht
      rw [run_of_turn ht, run_of_turn (hsame.trans ht), hnext]
      cases hgoes : search.next result with
      | inl goal => rfl
      | inr rest =>
        simp only [hgoes] at hkept
        exact ih _ (hr ▸ search.room_of_turn ht hgoes) rest hkept after rfl

end TurnTaking

end StateSearch
