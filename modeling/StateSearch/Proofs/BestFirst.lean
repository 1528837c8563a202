import StateSearch.Proofs.Turns
import StateSearch.Proofs.OpenList
import StateSearch.Search.BestFirst

/-!
# Best-first search is optimal

With a heuristic that never overestimates, best-first search finds a path of least cost
(`solve_optimal`). The argument rests on one invariant of its two lists, `Inv`: whatever can be reached
from a closed state by a move is closed as well, or waits in the open list, at most as dearly as by way
of that state. So every route from the initial state to a goal leaves the closed states somewhere, and
the node that waits there has an estimate of at most the cost of the route (`Inv.exists_waiting`). The
node that leaves the open list has the least estimate; if it is a goal, no route is cheaper.

Nothing is said about the order of estimates along a route, so the heuristic may be inconsistent, and
states may be closed several times.
-/

namespace StateSearch

namespace ClosedAt

variable {S : Type} [DecidableEq S] [Hashable S] {best : Std.HashMap S Cost} {s t : S} {c d : Cost}

theorem holds_iff : holds best s c = true ↔ ∃ k, best[s]? = some k ∧ k ≤ c := by
  unfold holds
  split <;> simp_all

theorem holds_mono (h : holds best s c = true) (hcd : c ≤ d) : holds best s d = true := by
  obtain ⟨k, hk, hkc⟩ := holds_iff.1 h
  exact holds_iff.2 ⟨k, hk, UInt64.le_trans hkc hcd⟩

theorem holds_insert_self : holds (best.insert s c) s c = true :=
  holds_iff.2 ⟨c, by simp, UInt64.le_refl c⟩

/-- Closing a state more cheaply than before keeps what was closed closed. -/
theorem holds_insert (hs : holds best s c = false) (h : holds best t d = true) :
    holds (best.insert s c) t d = true := by
  obtain ⟨k, hk, hkd⟩ := holds_iff.1 h
  by_cases heq : s = t
  · subst heq
    have hck : ¬ k ≤ c := fun hkc => by rw [holds_iff.2 ⟨k, hk, hkc⟩] at hs; cases hs
    exact holds_iff.2 ⟨c, by simp, UInt64.le_trans (UInt64.le_of_lt (UInt64.not_le.1 hck)) hkd⟩
  · exact holds_iff.2 ⟨k, by simpa [Std.HashMap.getElem?_insert, heq] using hk, hkd⟩

end ClosedAt

namespace BestFirst

open Act

variable {ω S M : Type} [DecidableEq S] [Hashable S]

/-- The nodes that an expansion of `n` puts into the open list. -/
def successors (p : PureProblem S M) (n : Node S M) (closed : Std.HashMap S Cost) (moves : List M) :
    List (Node S M) :=
  (moves.map (p.successor n)).filter fun child => !ClosedAt.holds closed child.state child.pathCost

theorem wp_explore (p : PureProblem S M) (n : Node S M) (closed : Std.HashMap S Cost)
    (moves : List M) (waiting : OpenList S M) (arena : Arena ω) :
    wp (explore p.toProblem n closed moves waiting)
      (fun waiting' after => after.stopped = arena.stopped ∧
        waiting' = (successors p n closed moves).foldl OpenList.push waiting) Overflow arena := by
  induction moves generalizing waiting arena with
  | nil => exact ⟨rfl, rfl⟩
  | cons m rest ih =>
    simp only [explore, PureProblem.toProblem, wp_bind, wp_ask_answer]
    refine wp_countGenerated (fun _ => ?_) id
    by_cases hc : ClosedAt.holds closed (p.applyMove n.state m)
        (Cost.plus n.pathCost (p.moveCost n.state m)) = true
    · rw [if_pos hc, wp_bind]
      refine wp_countDuplicate (fun _ => (ih _ _).mono ?_) id
      rintro waiting' after ⟨hs, rfl⟩
      exact ⟨hs, by simp [successors, PureProblem.successor, hc]⟩
    · rw [if_neg hc]
      simp only [wp_bind, wp_ask_answer]
      refine (ih _ _).mono ?_
      rintro waiting' after ⟨hs, rfl⟩
      exact ⟨hs, by simp [successors, PureProblem.successor, hc]⟩

section

variable {p : PureProblem S M} {waiting rest : OpenList S M} {n : Node S M} {made : List (Node S M)}
  (hsound : waiting.Sound) (hp : waiting.pop? = some (n, rest))
  (hmade : made ⊆ (p.legalMoves n.state).map (p.successor n))
include hsound hp hmade

omit [DecidableEq S] [Hashable S] in
/-- If successors of the node that left are put in, then they wait, and those who waited before. -/
theorem mem_pushAll {c : Node S M} (hc : c ∈ (made.foldl OpenList.push rest).toList) :
    (∃ m ∈ p.legalMoves n.state, c = p.successor n m) ∨ c ∈ waiting.toList := by
  rw [(OpenList.toList_pushAll (hsound.of_pop? hp) made).mem_iff, List.mem_append] at hc
  rcases hc with hc | hc
  · obtain ⟨m, hm, rfl⟩ := List.mem_map.1 (hmade hc)
    exact .inl ⟨m, hm, rfl⟩
  · exact .inr (OpenList.mem_of_mem_pop? hp hc)

omit [DecidableEq S] [Hashable S] in
/-- Putting in successors of the node that left keeps all nodes fair. -/
theorem fair_pushAll (hfair : ∀ c ∈ waiting.toList, c.Fair p) :
    ∀ c ∈ (made.foldl OpenList.push rest).toList, c.Fair p := by
  intro c hc
  rcases mem_pushAll hsound hp hmade hc with ⟨m, hm, rfl⟩ | hc
  · exact (hfair n (OpenList.mem_of_pop? hp)).successor hm
  · exact hfair c hc

omit [DecidableEq S] [Hashable S] in
/-- The nodes that wait from now on are estimated at no less than the node that left. -/
theorem estimate_le_pushAll (hsteady : p.Steady) (hfair : ∀ c ∈ waiting.toList, c.Fair p) :
    ∀ c ∈ (made.foldl OpenList.push rest).toList, n.estimate ≤ c.estimate := by
  intro c hc
  rcases mem_pushAll hsound hp hmade hc with ⟨m, hm, rfl⟩ | hc
  · exact hsteady.estimate_le_successor (hfair n (OpenList.mem_of_pop? hp)) hm
  · exact OpenList.estimate_le_of_pop? hsound hp hc

end

/-! ### The invariant -/

/-- `s` is closed, or waits, at a path cost of at most `c`. -/
def Reached (closed : Std.HashMap S Cost) (waiting : OpenList S M) (s : S) (c : Cost) : Prop :=
  ClosedAt.holds closed s c = true ∨ ∃ n ∈ waiting.toList, n.state = s ∧ n.pathCost ≤ c

theorem Reached.mono {closed : Std.HashMap S Cost} {waiting : OpenList S M} {s : S} {c d : Cost}
    (h : Reached closed waiting s c) (hcd : c ≤ d) : Reached closed waiting s d := by
  rcases h with h | ⟨n, hn, hs, hc⟩
  · exact .inl (ClosedAt.holds_mono h hcd)
  · exact .inr ⟨n, hn, hs, UInt64.le_trans hc hcd⟩

/-- What holds of the closed list and the open list between two turns. -/
structure Inv (p : PureProblem S M) (closed : Std.HashMap S Cost) (waiting : OpenList S M) :
    Prop where
  sound : waiting.Sound
  fair : ∀ n ∈ waiting.toList, n.Fair p
  /-- The search has not lost sight of the initial state. -/
  initial : Reached closed waiting p.initial 0
  /-- No goal is closed. -/
  goal : ∀ s k, closed[s]? = some k → p.isGoal s = false
  /-- What a move reaches from a closed state is closed or waits, at most as dearly. -/
  move : ∀ s k, closed[s]? = some k → ∀ m ∈ p.legalMoves s,
    Reached closed waiting (p.applyMove s m) (Cost.plus k (p.moveCost s m))

namespace Inv

variable {p : PureProblem S M} {closed : Std.HashMap S Cost} {waiting rest : OpenList S M}
  {n : Node S M} {s : S} {ms : List M} {c : Cost}

theorem start (p : PureProblem S M) :
    Inv p (∅ : Std.HashMap S Cost)
      (OpenList.empty.push (.root p.initial (p.heuristic p.initial))) := by
  have hperm := OpenList.toList_push .empty (Node.root p.initial (p.heuristic p.initial) : Node S M)
  have hmem : ∀ n, n ∈ (OpenList.empty.push (Node.root p.initial (p.heuristic p.initial) :
      Node S M)).toList ↔ n = .root p.initial (p.heuristic p.initial) := by
    intro n
    rw [hperm.mem_iff]
    simp [OpenList.empty, OpenList.toList]
  refine ⟨OpenList.Sound.empty.push _, ?_, ?_, ?_, ?_⟩
  · intro n hn
    rw [(hmem n).1 hn]
    exact .root p
  · exact .inr ⟨_, (hmem _).2 rfl, rfl, UInt64.le_refl _⟩
  · intro s k hk
    simp at hk
  · intro s k hk
    simp at hk

/-- Every route ends in a closed state, or passes a state whose node waits at most as dearly. -/
theorem covers (I : Inv p closed waiting) (route : p.rules.Route p.initial ms s c) :
    ClosedAt.holds closed s c = true ∨
      ∃ n ∈ waiting.toList, ∃ ns d, p.rules.Route n.state ns s d ∧ Cost.plus n.pathCost d ≤ c := by
  induction route with
  | stay =>
    rcases I.initial with h | ⟨n, hn, hs, hc⟩
    · exact .inl h
    · exact .inr ⟨n, hn, [], 0, hs ▸ .stay, by simpa using hc⟩
  | snoc _ step ih =>
    rcases ih with h | ⟨n, hn, ns, d, hroute, hle⟩
    · obtain ⟨k, hk, hkc⟩ := ClosedAt.holds_iff.1 h
      obtain ⟨hm, rfl, rfl⟩ := PureProblem.step_rules_iff.1 step
      rcases (I.move _ k hk _ hm).mono (Cost.plus_le_plus hkc (UInt64.le_refl _)) with
        h | ⟨n, hn, hs, hc⟩
      · exact .inl h
      · exact .inr ⟨n, hn, [], 0, hs ▸ .stay, by simpa using hc⟩
    · refine .inr ⟨n, hn, _, _, hroute.snoc step, ?_⟩
      rw [← Cost.plus_assoc]
      exact Cost.plus_le_plus hle (UInt64.le_refl _)

/-- While a route to a goal is open, some node waits that is estimated at no more than its cost. -/
theorem exists_waiting (I : Inv p closed waiting) (hadm : p.Admissible)
    (route : p.rules.Route p.initial ms s c) (hs : p.isGoal s = true) :
    ∃ n ∈ waiting.toList, n.estimate ≤ c := by
  rcases I.covers route with h | ⟨n, hn, ns, d, hroute, hle⟩
  · obtain ⟨k, hk, -⟩ := ClosedAt.holds_iff.1 h
    rw [I.goal _ k hk] at hs
    cases hs
  · have hfair := I.fair n hn
    refine ⟨n, hn, UInt64.le_trans ?_ hle⟩
    rw [hfair.estimate]
    exact Cost.plus_le_plus (UInt64.le_refl _)
      (hadm _ hfair.reachable _ _ _ hroute hs)

/-- When nothing waits any more, there is no route to a goal. -/
theorem not_solvable (I : Inv p closed waiting) (hadm : p.Admissible) (hw : waiting.toList = []) :
    ¬ p.Solvable := by
  rintro ⟨s, ⟨ms, c, route⟩, hs⟩
  obtain ⟨n, hn, -⟩ := I.exists_waiting hadm route hs
  rw [hw] at hn
  cases hn

/-- A goal that leaves the open list is reached at the least cost. -/
theorem isBest (I : Inv p closed waiting) (hadm : p.Admissible)
    (hp : waiting.pop? = some (n, rest)) (hn : p.isGoal n.state = true) : p.IsBest n.toPath := by
  have hfair := I.fair n (OpenList.mem_of_pop? hp)
  refine ⟨⟨n.state, hfair.genuine, hn⟩, ?_⟩
  intro ms goal c route hgoal
  obtain ⟨n', hn', hle⟩ := I.exists_waiting hadm route hgoal
  exact UInt64.le_trans hfair.pathCost_le
    (UInt64.le_trans (OpenList.estimate_le_of_pop? I.sound hp hn') hle)

/-- A node that leaves the open list for a state that is closed at most as dearly can be dropped. -/
theorem drop (I : Inv p closed waiting) (hp : waiting.pop? = some (n, rest))
    (hn : ClosedAt.holds closed n.state n.pathCost = true) : Inv p closed rest := by
  have hmem := fun n' => (OpenList.toList_of_pop? hp).mem_iff (a := n')
  have hreached : ∀ s c, Reached closed waiting s c → Reached closed rest s c := by
    rintro s c (h | ⟨n', hn', hs, hc⟩)
    · exact .inl h
    · rcases List.mem_cons.1 ((hmem n').1 hn') with rfl | hn'
      · exact .inl (ClosedAt.holds_mono (hs ▸ hn) hc)
      · exact .inr ⟨n', hn', hs, hc⟩
  exact ⟨I.sound.of_pop? hp, fun n' hn' => I.fair n' ((hmem n').2 (List.mem_cons_of_mem _ hn')),
    hreached _ _ I.initial, I.goal, fun s k hk m hm => hreached _ _ (I.move s k hk m hm)⟩

/-- Closing the state of a node and putting in its successors keeps the invariant. -/
theorem expand (I : Inv p closed waiting) (hp : waiting.pop? = some (n, rest))
    (hn : ClosedAt.holds closed n.state n.pathCost = false) (hg : p.isGoal n.state = false) :
    Inv p (closed.insert n.state n.pathCost)
      ((successors p n (closed.insert n.state n.pathCost) (p.legalMoves n.state)).foldl
        OpenList.push rest) := by
  set closed' := closed.insert n.state n.pathCost with hclosed
  set children := successors p n closed' (p.legalMoves n.state) with hchildren
  have hmem := fun n' => (OpenList.toList_of_pop? hp).mem_iff (a := n')
  have hrest := I.sound.of_pop? hp
  have hpush := fun n' => (OpenList.toList_pushAll hrest children).mem_iff (a := n')
  have hreached : ∀ s c, Reached closed waiting s c →
      Reached closed' (children.foldl OpenList.push rest) s c := by
    rintro s c (h | ⟨n', hn', hs, hc⟩)
    · exact .inl (ClosedAt.holds_insert hn h)
    · rcases List.mem_cons.1 ((hmem n').1 hn') with rfl | hn'
      · exact .inl (ClosedAt.holds_mono (hs ▸ ClosedAt.holds_insert_self) hc)
      · exact .inr ⟨n', (hpush n').2 (List.mem_append_right _ hn'), hs, hc⟩
  refine ⟨hrest.pushAll _, fair_pushAll I.sound hp List.filter_sublist.subset I.fair,
    hreached _ _ I.initial, ?_, ?_⟩
  · intro s k hk
    rw [hclosed, Std.HashMap.getElem?_insert] at hk
    split at hk
    · rename_i heq
      exact (beq_iff_eq.1 heq) ▸ hg
    · exact I.goal s k hk
  · intro s k hk m hm
    rw [hclosed, Std.HashMap.getElem?_insert] at hk
    split at hk
    · rename_i heq
      obtain rfl := beq_iff_eq.1 heq
      cases hk
      -- The successor is a duplicate, or it has just been put in.
      by_cases hc : ClosedAt.holds closed' (p.applyMove n.state m)
          (Cost.plus n.pathCost (p.moveCost n.state m)) = true
      · exact .inl hc
      · refine .inr ⟨p.successor n m, (hpush _).2 (List.mem_append_left _ ?_), rfl,
          UInt64.le_refl _⟩
        exact List.mem_filter.2 ⟨List.mem_map_of_mem hm, by simpa [PureProblem.successor] using hc⟩
    · exact hreached _ _ (I.move s k hk m hm)

end Inv

/-! ### Turns and runs -/

/-- A run does what its first turn comes to. -/
theorem run_eq (p : Problem ω S M) (closed : Std.HashMap S Cost) (waiting : OpenList S M)
    (arena : Arena ω) : run p closed waiting arena =
      match turn p closed waiting arena with
      | .ok (.onward closed waiting) after => run p closed waiting after
      | .ok (.found goal) after => .ok (some goal) after
      | .ok _ after => .ok none after
      | .error fault after => .error fault after := by
  rw [run]
  split <;> rename_i h
  · simp only [h]
  · rw [h]
  · rename_i result after hn hf
    rw [h]
    cases result with
    | onward => exact absurd rfl (hn _ _)
    | found => exact absurd rfl (hf _)
    | exhausted => rfl
    | stopped => rfl
  · rw [h]

/-- After this turn the search ends, maybe with a goal, or goes on with these lists. -/
def Turn.next : Turn S M → Option (Node S M) ⊕ (Std.HashMap S Cost × OpenList S M)
  | onward closed waiting => .inr (closed, waiting)
  | found goal => .inl (some goal)
  | exhausted | stopped => .inl none

/-- The search is one that takes turns. -/
def turnTaking (p : Problem ω S M) : TurnTaking p (Std.HashMap S Cost × OpenList S M) (Turn S M) where
  start := ask (p.heuristic p.initial) >>= fun remaining =>
    pure (∅, OpenList.empty.push (.root p.initial remaining))
  take? lists := lists.2.pop?.map fun taken => (taken.1, (lists.1, taken.2))
  hand n lists := claim p n lists.1 lists.2
  exhausted := .exhausted
  stopped := .stopped
  turn lists := turn p lists.1 lists.2
  next := Turn.next
  run lists := run p lists.1 lists.2
  solve := solve p
  room := room
  next_exhausted := rfl
  next_stopped := rfl
  turn_eq lists := by
    unfold turn takeTurn
    dsimp only
    cases lists.2.pop? <;> rfl
  run_eq lists := by
    funext arena
    show _ = EStateM.bind _ _ arena
    unfold EStateM.bind
    rw [run_eq]
    cases turn p lists.1 lists.2 arena with
    | error fault after => rfl
    | ok result after => cases result <;> rfl
  solve_eq := by
    rw [bind_assoc]
    rfl
  room_of_turn {lists rest result arena after} ht hnext := by
    cases result with
    | onward closed waiting => exact room_of_turn ht
    | exhausted | stopped | found => cases hnext

/-- A turn is to be looked at only for what is done with the node in hand. -/
theorem wp_turn_taken {p : Problem ω S M} {closed : Std.HashMap S Cost} {waiting : OpenList S M}
    {arena : Arena ω} {post : Turn S M → Arena ω → Prop} {err : Fault → Arena ω → Prop}
    (hexhausted : waiting.pop? = none → post .exhausted arena)
    (hstopped : arena.stopped = true → post .stopped arena)
    (hclaim : ∀ n rest, waiting.pop? = some (n, rest) → arena.stopped = false →
      wp (claim p n closed rest) post err arena) : wp (turn p closed waiting) post err arena := by
  refine (turnTaking p).wp_turn (closed, waiting) (fun ht => hexhausted (Option.map_eq_none_iff.1 ht))
    hstopped fun n lists ht hopen => ?_
  obtain ⟨⟨n, rest⟩, htaken, heq⟩ := Option.map_eq_some_iff.1 ht
  cases heq
  exact hclaim n rest htaken hopen

/-- What is known of the end of a run, if it ends with this turn. -/
def Turn.Ends (I : Std.HashMap S Cost → OpenList S M → Arena ω → Prop)
    (post : Option (Node S M) → Arena ω → Prop) (after : Arena ω) : Turn S M → Prop
  | onward closed waiting => I closed waiting after
  | found goal => post (some goal) after
  | exhausted | stopped => post none after

/-- What every turn keeps, a run keeps. -/
theorem wp_run {p : Problem ω S M} {I : Std.HashMap S Cost → OpenList S M → Arena ω → Prop}
    {post : Option (Node S M) → Arena ω → Prop} {err : Fault → Arena ω → Prop}
    (hturn : ∀ closed waiting arena, I closed waiting arena →
      wp (turn p closed waiting) (fun result after => result.Ends I post after) err arena)
    {closed : Std.HashMap S Cost} {waiting : OpenList S M} {arena : Arena ω}
    (h : I closed waiting arena) : wp (run p closed waiting) post err arena := by
  have hrun : wp ((turnTaking p).run (closed, waiting)) post err arena := by
    refine TurnTaking.wp_run (I := fun lists => I lists.1 lists.2) (fun lists arena hlists => ?_) h
    refine (hturn lists.1 lists.2 arena hlists).mono fun result after hends => ?_
    cases result <;> exact hends
  exact hrun

/-! ### Optimality -/

variable {p : PureProblem S M} {closed : Std.HashMap S Cost} {waiting : OpenList S M}
  {arena : Arena ω}

/-- A turn drops the node that leaves the open list, or finds that it is a goal, or closes what is
recorded for its state and puts its successors in. -/
theorem wp_turn_of {rep : S → S} (hrecord : ∀ s, p.alreadySeen s = .record (rep s))
    (hs : arena.stopped = false) {I : Std.HashMap S Cost → OpenList S M → Prop}
    {post : Option (Node S M) → Prop} (hempty : waiting.toList = [] → post none)
    (hdrop : ∀ n rest, waiting.pop? = some (n, rest) →
      ClosedAt.holds closed (rep n.state) n.pathCost = true → I closed rest)
    (hfound : ∀ n rest, waiting.pop? = some (n, rest) → p.isGoal n.state = true → post (some n))
    (hexpand : ∀ n rest, waiting.pop? = some (n, rest) →
      ClosedAt.holds closed (rep n.state) n.pathCost = false → p.isGoal n.state = false →
      I (closed.insert (rep n.state) n.pathCost)
        ((successors p n (closed.insert (rep n.state) n.pathCost) (p.legalMoves n.state)).foldl
          OpenList.push rest)) :
    wp (turn p.toProblem closed waiting)
      (fun result after => result.Ends (fun closed waiting after =>
        I closed waiting ∧ after.stopped = false) (fun goal _ => post goal) after)
      Overflow arena := by
  unfold turn
  cases hp : waiting.pop? with
  | none => exact hempty (OpenList.pop?_eq_none hp)
  | some taken =>
    obtain ⟨n, rest⟩ := taken
    simp only [wp_bind, wp_isStopped, hs, Bool.false_eq_true, if_false, claim,
      wp_inquire_of_eq p (hrecord n.state), SeenSet.insert, ClosedAt.insert]
    cases hc : ClosedAt.holds closed (rep n.state) n.pathCost with
    | true =>
      simp only [if_true, Bool.not_false, wp_bind]
      exact wp_countDuplicate (fun _ => ⟨hdrop n rest hp hc, hs⟩) id
    | false =>
      simp only [Bool.false_eq_true, if_false, Bool.not_true, BestFirst.expand, wp_bind]
      refine wp_countExpanded (fun _ => ?_) id
      simp only [PureProblem.toProblem, wp_ask_answer]
      cases hg : p.isGoal n.state with
      | true => exact hfound n rest hp hg
      | false =>
        simp only [Bool.false_eq_true, if_false, wp_bind, wp_ask_answer]
        refine (wp_explore p _ _ _ _ _).mono ?_
        rintro waiting' after ⟨hs', rfl⟩
        exact ⟨hexpand n rest hp hc hg, hs'.trans hs⟩

theorem wp_turn (hseen : p.alreadySeen = .record) (hadm : p.Admissible)
    (I : Inv p closed waiting) (hs : arena.stopped = false) :
    wp (turn p.toProblem closed waiting)
      (fun result after => result.Ends (fun closed waiting after =>
        Inv p closed waiting ∧ after.stopped = false) (fun goal _ => p.IsOptimum (goal.map Node.toPath))
        after)
      Overflow arena := by
  refine wp_turn_of (congrFun hseen) hs ?_ ?_ ?_ ?_
  · exact I.not_solvable hadm
  · exact fun _ _ hp hc => I.drop hp hc
  · exact fun _ _ hp hg => I.isBest hadm hp hg
  · exact fun _ _ hp hc hg => I.expand hp hc hg

/-- Best-first search with a heuristic that never overestimates finds a best path, or finds out that
there is none, unless a counter overflows. -/
theorem solve_optimal (p : PureProblem S M) (hseen : p.alreadySeen = .record)
    (hadm : p.Admissible) (arena : Arena ω) (hs : arena.stopped = false) :
    wp (solve p.toProblem) (fun path _ => p.IsOptimum path) Overflow arena := by
  unfold solve
  rw [wp_bind]
  refine (wp_ask_answer _).2 ?_
  rw [wp_bind]
  refine (wp_run (fun _ _ _ h => wp_turn hseen hadm h.1 h.2) ⟨Inv.start p, hs⟩).mono ?_
  intro goal after hgoal
  exact wp_conclude p goal fun _ => hgoal

theorem solve_detour_optimal :
    Junction.detour.alreadySeen = .record ∧ Junction.detour.Admissible ∧
      wp (solve Junction.detour.toProblem) (fun path _ => Junction.detour.IsOptimum path) Overflow
        { world := () } :=
  ⟨rfl, Junction.detour_admissible,
    solve_optimal Junction.detour rfl Junction.detour_admissible _ rfl⟩

end BestFirst

end StateSearch
