import StateSearch.Proofs.Turns
import StateSearch.Search.Exhaustive

/-!
# Runs of exhaustive search

The search takes turns (`turnTaking`), so what every turn keeps, a run keeps (`wp_run`). In particular all nodes
that wait are genuine, whatever the problem does about seen states, so the goal that is found leads to a solution
(`wp_run_solves`).
-/

namespace StateSearch

theorem Deque.toList_of_popFront? {α : Type} {queue rest : Deque α} {entry : α}
    (h : queue.popFront? = some (entry, rest)) : queue.toList = entry :: rest.toList := by
  have := queue.map_popFront?
  rw [h] at this
  cases hl : queue.toList with
  | nil => rw [hl] at this; cases this
  | cons first others => rw [hl] at this; cases this; rfl

theorem Deque.toList_of_popBack? {α : Type} {queue rest : Deque α} {entry : α}
    (h : queue.popBack? = some (entry, rest)) : queue.toList = rest.toList ++ [entry] := by
  have := queue.map_popBack?
  rw [h] at this
  cases hl : queue.toList.reverse with
  | nil => rw [hl] at this; cases this
  | cons first others =>
    rw [hl] at this
    cases this
    rw [← List.reverse_reverse queue.toList, hl]
    simp

/-- The node that is taken is one of those that wait. -/
theorem Discipline.toList_of_take? {α : Type} {d : Discipline} {queue rest : Deque α} {entry : α}
    (h : d.take? queue = some (entry, rest)) : queue.toList.Perm (entry :: rest.toList) := by
  cases d with
  | depthFirst =>
    rw [Deque.toList_of_popBack? h]
    exact List.perm_append_comm
  | breadthFirst => exact .of_eq (Deque.toList_of_popFront? h)

namespace Exhaustive

open Act

variable {ω S M : Type} [DecidableEq S] [Hashable S] {d : Discipline} {p : Problem ω S M}
  {seen : Std.HashSet S} {waiting : Deque (Node S M)} {arena : Arena ω}

/-- A run does what its first turn comes to. -/
theorem run_eq (d : Discipline) (p : Problem ω S M) (seen : Std.HashSet S)
    (waiting : Deque (Node S M)) (arena : Arena ω) : run d p seen waiting arena =
      match turn d p seen waiting arena with
      | .ok (.onward seen waiting) after => run d p seen waiting after
      | .ok (.found goal) after => .ok (some goal) after
      | .ok _ after => .ok none after
      | .error fault after => .error fault after := by
  rw [run]
  split <;> rename_i h
  · simp only [h]
  · rw [h]
  · rename_i result after hn hf
    rw [h]
    cases result with
    | onward => exact absurd rfl (hn _ _)
    | found => exact absurd rfl (hf _)
    | exhausted => rfl
    | stopped => rfl
  · rw [h]

/-- A turn with which the search goes on has counted a state, so there is less room for more. -/
theorem room_of_turn {seen' : Std.HashSet S} {waiting' : Deque (Node S M)} {after : Arena ω}
    (ht : turn d p seen waiting arena = .ok (.onward seen' waiting') after) :
    Stats.room after.stats.expanded < Stats.room arena.stats.expanded := by
  have hcounted := Stats.increment_eq_ok (increment_of_turn ht)
  unfold Stats.room
  omega

/-- After this turn the search ends, maybe with a goal, or goes on with these lists. -/
def Turn.next : Turn S M → Option (Node S M) ⊕ (Std.HashSet S × Deque (Node S M))
  | onward seen waiting => .inr (seen, waiting)
  | found goal => .inl (some goal)
  | exhausted | stopped => .inl none

/-- The search is one that takes turns. -/
def turnTaking (d : Discipline) (p : Problem ω S M) :
    TurnTaking p (Std.HashSet S × Deque (Node S M)) (Turn S M) where
  start := inquire p p.initial (∅ : Std.HashSet S) >>= fun result =>
    pure (result.2, Deque.empty.pushBack (.root p.initial 0))
  take? lists := (d.take? lists.2).map fun taken => (taken.1, (lists.1, taken.2))
  hand n lists := expand p n lists.1 lists.2
  exhausted := .exhausted
  stopped := .stopped
  turn lists := turn d p lists.1 lists.2
  next := Turn.next
  run lists := run d p lists.1 lists.2
  solve := solve d p
  room arena := Stats.room arena.stats.expanded
  next_exhausted := rfl
  next_stopped := rfl
  turn_eq lists := by
    unfold turn takeTurn
    dsimp only
    cases d.take? lists.2 <;> rfl
  run_eq lists := by
    funext arena
    show _ = EStateM.bind _ _ arena
    unfold EStateM.bind
    rw [run_eq]
    cases turn d p lists.1 lists.2 arena with
    | error fault after => rfl
    | ok result after => cases result <;> rfl
  solve_eq := by
    rw [bind_assoc]
    rfl
  room_of_turn {lists rest result arena after} ht hnext := by
    cases result with
    | onward seen waiting => exact room_of_turn ht
    | exhausted | stopped | found => cases hnext

/-- A turn is to be looked at only for the expansion of the node in hand. -/
theorem wp_turn_taken {post : Turn S M → Arena ω → Prop} {err : Fault → Arena ω → Prop}
    (hexhausted : d.take? waiting = none → post .exhausted arena)
    (hstopped : arena.stopped = true → post .stopped arena)
    (hexpand : ∀ n rest, d.take? waiting = some (n, rest) → arena.stopped = false →
      wp (expand p n seen rest) post err arena) : wp (turn d p seen waiting) post err arena := by
  refine (turnTaking d p).wp_turn (seen, waiting) (fun ht => hexhausted (Option.map_eq_none_iff.1 ht))
    hstopped fun n lists ht hopen => ?_
  obtain ⟨⟨n, rest⟩, htaken, heq⟩ := Option.map_eq_some_iff.1 ht
  cases heq
  exact hexpand n rest htaken hopen

/-- What is known of the end of a run, if it ends with this turn. -/
def Turn.Ends (I : Std.HashSet S → Deque (Node S M) → Arena ω → Prop)
    (post : Option (Node S M) → Arena ω → Prop) (after : Arena ω) : Turn S M → Prop
  | onward seen waiting => I seen waiting after
  | found goal => post (some goal) after
  | exhausted | stopped => post none after

/-- What every turn keeps, a run keeps. -/
theorem wp_run {I : Std.HashSet S → Deque (Node S M) → Arena ω → Prop}
    {post : Option (Node S M) → Arena ω → Prop} {err : Fault → Arena ω → Prop}
    (hturn : ∀ seen waiting arena, I seen waiting arena →
      wp (turn d p seen waiting) (fun result after => result.Ends I post after) err arena)
    (h : I seen waiting arena) : wp (run d p seen waiting) post err arena := by
  have hrun : wp ((turnTaking d p).run (seen, waiting)) post err arena := by
    refine TurnTaking.wp_run (I := fun lists => I lists.1 lists.2) (fun lists arena hlists => ?_) h
    refine (hturn lists.1 lists.2 arena hlists).mono fun result after hends => ?_
    cases result <;> exact hends
  exact hrun

/-! ### Solutions -/

variable {rules : Rules S M} {n : Node S M}

theorem wp_explore_genuine (hp : p.Respects rules) (hn : n.Genuine rules) {moves : List M}
    (hm : ∀ m ∈ moves, rules.IsLegal n.state m) (hw : ∀ c ∈ waiting.toList, c.Genuine rules) :
    wp (explore p n moves seen waiting) (fun lists _ => ∀ c ∈ lists.2.toList, c.Genuine rules)
      (fun _ _ => True) arena := by
  induction moves generalizing seen waiting arena with
  | nil => exact hw
  | cons m rest ih =>
    have hrest : ∀ m ∈ rest, rules.IsLegal n.state m := fun m hm' => hm m (List.mem_cons_of_mem _ hm')
    simp only [explore, wp_bind]
    refine wp_ask _ (fun t _ _ ht => ?_) fun _ _ _ _ => trivial
    refine wp_countGenerated (fun _ => ?_) fun _ => trivial
    refine wp_of_forall_ok fun result after _ => ?_
    split
    · rw [wp_bind]
      exact wp_countDuplicate (fun _ => ih hrest hw) fun _ => trivial
    · rw [wp_bind]
      refine wp_ask _ (fun c _ _ hc => ih hrest ?_) fun _ _ _ _ => trivial
      intro c' hc'
      rw [Deque.toList_pushBack] at hc'
      rcases List.mem_append.1 hc' with hc' | hc'
      · exact hw c' hc'
      · rw [List.mem_singleton.1 hc']
        exact hn.child ⟨hm m (List.mem_cons_self ..), hp.applyMove ht, hp.moveCost hc⟩ 0

theorem wp_turn_genuine (hp : p.Respects rules) (hw : ∀ c ∈ waiting.toList, c.Genuine rules) :
    wp (turn d p seen waiting) (fun result after => result.Ends
      (fun _ waiting _ => ∀ c ∈ waiting.toList, c.Genuine rules)
      (fun goal _ => ∀ n ∈ goal, n.Solves rules) after) (fun _ _ => True) arena := by
  have hnone : ∀ n ∈ (none : Option (Node S M)), n.Solves rules := nofun
  refine wp_turn_taken (fun _ => hnone) (fun _ => hnone) fun n rest ht _ => ?_
  have hperm := Discipline.toList_of_take? ht
  have hn := hw n (hperm.mem_iff.2 (List.mem_cons_self ..))
  have hrest : ∀ c ∈ rest.toList, c.Genuine rules := fun c hc =>
    hw c (hperm.mem_iff.2 (List.mem_cons_of_mem _ hc))
  simp only [expand, wp_bind]
  refine wp_countExpanded (fun _ => ?_) fun _ => trivial
  refine wp_ask _ (fun reached _ _ hr => ?_) fun _ _ _ _ => trivial
  split
  · rename_i hreached
    intro n' hn'
    cases hn'
    exact ⟨hn, hp.isGoal (hreached ▸ hr)⟩
  · rw [wp_bind]
    refine wp_ask _ (fun moves _ _ hm => ?_) fun _ _ _ _ => trivial
    rw [wp_bind]
    refine (wp_explore_genuine hp hn (fun m hm' => ⟨moves, hp.legalMoves hm, hm'⟩) hrest).mono ?_
    intro lists after hlists
    rw [wp_bind]
    exact wp_ask _ (fun _ _ _ _ => hlists) fun _ _ _ _ => trivial

theorem wp_run_solves (hp : p.Respects rules) (hw : ∀ c ∈ waiting.toList, c.Genuine rules) :
    wp (run d p seen waiting) (fun goal _ => ∀ n ∈ goal, n.Solves rules) (fun _ _ => True) arena :=
  wp_run (fun _ _ _ h => wp_turn_genuine hp h) hw

end Exhaustive

end StateSearch
