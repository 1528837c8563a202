import StateSearch.Proofs.Pool.OneByOne
import StateSearch.Proofs.Soundness

/-!
# A single worker does what A* does

A* compares path costs: it drops a node if its state was closed at most as dearly, and opens a state again
that turns out to be cheaper. A worker who claims states when they are taken only asks whether a state was
claimed. If no move lowers the heuristic by more than the move costs, and no sum of a path cost and an
estimate is cut off, this makes no difference (`PoolSearch.single_worker_best_first`). For then no node that
waits has a smaller estimate than a state that is closed had when it was closed (`Settled.least`), and so a
closed state is never met again on a cheaper way: neither when its node is taken (`Settled.holds_iff`) nor
when it is generated (`Settled.successors_eq`).
-/

namespace StateSearch

open Act StateSearch.Random

variable {ω S M : Type}

/-- The path cost of the node and the estimate of the rest together are not cut off. -/
def Node.Fits (p : PureProblem S M) (n : Node S M) : Prop :=
  n.pathCost.toNat + (p.heuristic n.state).toNat ≤ Cost.largest.toNat

theorem Node.Fair.toNat_estimate {p : PureProblem S M} {n : Node S M} (h : n.Fair p) (hfits : n.Fits p) :
    n.estimate.toNat = n.pathCost.toNat + (p.heuristic n.state).toNat := by
  rw [h.estimate, Cost.toNat_plus]
  exact Nat.min_eq_left hfits

variable [DecidableEq S] [Hashable S]

namespace BestFirst

/-- The lists that a search comes by, with the arena it comes by in. -/
inductive Visits (p : Problem ω S M) (closed : Std.HashMap S Cost) (waiting : OpenList S M)
    (arena : Arena ω) : Std.HashMap S Cost → OpenList S M → Arena ω → Prop
  | start : Visits p closed waiting arena closed waiting arena
  | turn {closed₁ closed₂ : Std.HashMap S Cost} {waiting₁ waiting₂ : OpenList S M}
      {arena₁ arena₂ : Arena ω} (visits : Visits p closed waiting arena closed₁ waiting₁ arena₁)
      (turn : turn p closed₁ waiting₁ arena₁ = .ok (.onward closed₂ waiting₂) arena₂) :
    Visits p closed waiting arena closed₂ waiting₂ arena₂

/-- Of all nodes that the search in this world generates, none has a path cost and an estimate of the rest
that together are cut off. -/
def StaysInRange (p : PureProblem S M) (o : Observer ω S M) (arena : Arena ω) : Prop :=
  ∀ closed waiting after,
    Visits (p.observed o) ∅ (OpenList.empty.push (.root p.initial (p.heuristic p.initial))) arena
      closed waiting after → ∀ n ∈ waiting.toList, n.Fits p

/-- The search stays in range if no route to any state is dear enough to leave it. -/
theorem StaysInRange.of_routes {p : PureProblem S M} {o : Observer ω S M} {arena : Arena ω}
    (h : ∀ ms s c, p.rules.Route p.initial ms s c →
      c.toNat + (p.heuristic s).toNat ≤ Cost.largest.toNat) : StaysInRange p o arena := by
  have hgenuine : ∀ closed waiting after,
      Visits (p.observed o) ∅ (OpenList.empty.push (.root p.initial (p.heuristic p.initial))) arena
        closed waiting after → Genuine p.rules waiting := by
    intro closed waiting after hvisits
    induction hvisits with
    | start => exact ⟨(Inv.start p).sound, fun n hn => ((Inv.start p).fair n hn).genuine⟩
    | turn _ hturn ih => exact (wp_turn_genuine (p.respects_observed o) ih).of_eq_ok hturn
  intro closed waiting after hvisits n hn
  exact h _ _ _ ((hgenuine _ _ _ hvisits).nodes n hn)

theorem wp_explore_observed (p : PureProblem S M) (o : Observer ω S M) (n : Node S M)
    (closed : Std.HashMap S Cost) (moves : List M) (waiting : OpenList S M) (arena : Arena ω) :
    wp (explore (p.observed o) n closed moves waiting)
      (fun waiting' after => waiting' = (successors p n closed moves).foldl OpenList.push waiting ∧
        after = arena.tally 0 moves.length (moves.length - (successors p n closed moves).length))
      Overflow arena := by
  induction moves generalizing waiting arena with
  | nil => exact ⟨rfl, rfl⟩
  | cons m rest ih =>
    have hle : (successors p n closed rest).length ≤ rest.length :=
      Nat.le_trans (List.length_filter_le _ _) (Nat.le_of_eq (List.length_map _))
    simp only [explore, PureProblem.observed, PureProblem.toProblem, wp_bind, wp_ask_answer]
    refine wp_countGenerated_tally ?_ id
    by_cases hc : ClosedAt.holds closed (p.applyMove n.state m)
        (Cost.plus n.pathCost (p.moveCost n.state m)) = true
    · have hsucc : successors p n closed (m :: rest) = successors p n closed rest := by
        simp [successors, PureProblem.successor, hc]
      rw [if_pos hc, wp_bind, hsucc]
      refine wp_countDuplicate_tally ((ih _ _).mono ?_) id
      rintro waiting' after ⟨rfl, rfl⟩
      refine ⟨rfl, ?_⟩
      rw [Arena.tally_tally, Arena.tally_tally, List.length_cons]
      congr 1 <;> omega
    · have hsucc : successors p n closed (m :: rest) =
          p.successor n m :: successors p n closed rest := by
        simp [successors, PureProblem.successor, hc]
      rw [if_neg hc, hsucc]
      simp only [wp_bind, wp_ask_answer]
      refine (ih _ _).mono ?_
      rintro waiting' after ⟨rfl, rfl⟩
      refine ⟨rfl, ?_⟩
      rw [Arena.tally_tally, List.length_cons, List.length_cons]
      congr 1 <;> omega

/-! ### Closed states are never met again on a cheaper way -/

/-- What holds of the lists of A* and of the states that a single worker has recorded. -/
structure Settled (p : PureProblem S M) (closed : Std.HashMap S Cost) (seen : Std.HashSet S)
    (waiting : OpenList S M) : Prop where
  sound : waiting.Sound
  fair : ∀ n ∈ waiting.toList, n.Fair p
  same : ∀ s, s ∈ closed ↔ s ∈ seen
  least : ∀ s k, closed[s]? = some k → ∀ n ∈ waiting.toList,
    k.toNat + (p.heuristic s).toNat ≤ n.estimate.toNat

namespace Settled

variable {p : PureProblem S M} {closed : Std.HashMap S Cost} {seen : Std.HashSet S}
  {waiting rest : OpenList S M} {n : Node S M}

theorem start (p : PureProblem S M) : Settled p (∅ : Std.HashMap S Cost) ∅
    (OpenList.empty.push (.root p.initial (p.heuristic p.initial))) := by
  have I := Inv.start p
  refine ⟨I.sound, I.fair, fun s => by simp, fun s k hk => ?_⟩
  simp at hk

theorem holds_iff (h : Settled p closed seen waiting) (hn : n ∈ waiting.toList) (hfits : n.Fits p) :
    ClosedAt.holds closed n.state n.pathCost = seen.contains n.state := by
  rw [Bool.eq_iff_iff, ClosedAt.holds_iff, Std.HashSet.contains_iff_mem, ← h.same,
    Std.HashMap.mem_iff_isSome_getElem?, Option.isSome_iff_exists]
  constructor
  · rintro ⟨k, hk, -⟩
    exact ⟨k, hk⟩
  · rintro ⟨k, hk⟩
    have hleast := h.least _ k hk n hn
    rw [(h.fair n hn).toNat_estimate hfits] at hleast
    exact ⟨k, hk, UInt64.le_iff_toNat_le.2 (Nat.le_of_add_le_add_right hleast)⟩

theorem drop (h : Settled p closed seen waiting) (hp : waiting.pop? = some (n, rest))
    (hn : n.state ∈ seen) : Settled p closed (seen.insert n.state) rest := by
  refine ⟨h.sound.of_pop? hp, fun c hc => h.fair c (OpenList.mem_of_mem_pop? hp hc), fun s => ?_,
    fun s k hk c hc => h.least s k hk c (OpenList.mem_of_mem_pop? hp hc)⟩
  rw [h.same, Std.HashSet.mem_insert, beq_iff_eq]
  refine ⟨.inr, ?_⟩
  rintro (rfl | hs)
  · exact hn
  · exact hs

/-- Once the state of the node that leaves is closed, none is closed at a larger estimate. -/
theorem le_of_close (h : Settled p closed seen waiting) (hp : waiting.pop? = some (n, rest))
    (hfits : n.Fits p) {s : S} {k : Cost} (hk : (closed.insert n.state n.pathCost)[s]? = some k) :
    k.toNat + (p.heuristic s).toNat ≤ n.estimate.toNat := by
  rw [Std.HashMap.getElem?_insert] at hk
  split at hk
  · rename_i heq
    obtain rfl := beq_iff_eq.1 heq
    cases hk
    exact Nat.le_of_eq ((h.fair n (OpenList.mem_of_pop? hp)).toNat_estimate hfits).symm
  · exact h.least s k hk n (OpenList.mem_of_pop? hp)

theorem same_insert (h : Settled p closed seen waiting) (s : S) :
    s ∈ closed.insert n.state n.pathCost ↔ s ∈ seen.insert n.state := by
  rw [Std.HashMap.mem_insert, Std.HashSet.mem_insert, h.same]

/-- Both searches put in the same successors. -/
theorem successors_eq (h : Settled p closed seen waiting) (hsteady : p.Steady)
    (hp : waiting.pop? = some (n, rest)) (hfits : n.Fits p) :
    successors p n (closed.insert n.state n.pathCost) (p.legalMoves n.state) =
      p.fresh (seen.insert n.state) n (p.legalMoves n.state) := by
  have hfair := h.fair n (OpenList.mem_of_pop? hp)
  refine List.filter_congr fun c hc => congrArg _ ?_
  obtain ⟨m, hm, rfl⟩ := List.mem_map.1 hc
  rw [Bool.eq_iff_iff, ClosedAt.holds_iff, Std.HashSet.contains_iff_mem, ← h.same_insert,
    Std.HashMap.mem_iff_isSome_getElem?, Option.isSome_iff_exists]
  constructor
  · rintro ⟨k, hk, -⟩
    exact ⟨k, hk⟩
  · rintro ⟨k, hk⟩
    have hclosed := h.le_of_close hp hfits hk
    have hmove := hsteady n.state hfair.reachable m hm
    rw [hfair.toNat_estimate hfits] at hclosed
    refine ⟨k, hk, Cost.le_plus_iff.2 ?_⟩
    simp only [PureProblem.successor, Node.state_child] at hclosed
    omega

theorem expand (h : Settled p closed seen waiting) (hsteady : p.Steady)
    (hp : waiting.pop? = some (n, rest)) (hfits : n.Fits p) :
    Settled p (closed.insert n.state n.pathCost) (seen.insert n.state)
      ((p.fresh (seen.insert n.state) n (p.legalMoves n.state)).foldl OpenList.push rest) := by
  have hmade : p.fresh (seen.insert n.state) n (p.legalMoves n.state) ⊆
      (p.legalMoves n.state).map (p.successor n) := List.filter_sublist.subset
  have hnodes := estimate_le_pushAll h.sound hp hmade hsteady h.fair
  exact ⟨(h.sound.of_pop? hp).pushAll _, fair_pushAll h.sound hp hmade h.fair, h.same_insert,
    fun s k hk c hc => Nat.le_trans (h.le_of_close hp hfits hk) (UInt64.le_iff_toNat_le.1 (hnodes c hc))⟩

end Settled

/-! ### The two searches side by side -/

variable {p : PureProblem S M} {o : Observer ω S M} {closed : Std.HashMap S Cost} {seen : Std.HashSet S}
  {waiting : OpenList S M} {arena : Arena ω}

/-- A turn of A* is a step of the search that opens no state again. -/
theorem wp_turn_observed (hrecord : p.alreadySeen = .record) (hsteady : p.Steady)
    (h : Settled p closed seen waiting) (hfits : ∀ n ∈ waiting.toList, n.Fits p)
    (hopen : arena.stopped = false) :
    wp (turn (p.observed o) closed waiting)
      (fun result after => result.Ends
        (fun closed' waiting' after => after.stopped = false ∧ ∃ seen', Settled p closed' seen' waiting' ∧
          ∀ goal final, OneByOne p o seen' waiting' after goal final →
            OneByOne p o seen waiting arena goal final)
        (fun goal after => OneByOne p o seen waiting arena goal after) after)
      Overflow arena := by
  have hquery : ∀ s, (p.alreadySeen s).run seen = (.ok (seen.contains s), seen.insert s) := by
    intro s
    rw [hrecord]
    exact SeenQuery.run_record s seen
  unfold turn
  cases hp : waiting.pop? with
  | none => exact .exhausted hp
  | some taken =>
    obtain ⟨n, rest⟩ := taken
    have hn := OpenList.mem_of_pop? hp
    have hholds := h.holds_iff hn (hfits n hn)
    simp only [wp_bind, wp_isStopped, hopen, Bool.false_eq_true, if_false, claim,
      wp_inquire_observed hrecord, SeenSet.insert, ClosedAt.insert, hholds]
    have hrun := hquery n.state
    cases hc : seen.contains n.state with
    | true =>
      rw [hc] at hrun
      simp only [if_true, Bool.not_false, wp_bind]
      refine wp_countDuplicate_tally ⟨hopen, _, h.drop hp (Std.HashSet.contains_iff_mem.1 hc),
        fun goal final => .dropped hp hrun⟩ id
    | false =>
      rw [hc] at hrun
      simp only [Bool.false_eq_true, if_false, Bool.not_true, BestFirst.expand, wp_bind]
      refine wp_countExpanded_tally ?_ id
      simp only [PureProblem.observed, PureProblem.toProblem, wp_ask_answer]
      cases hg : p.isGoal n.state with
      | true => exact .found hp hrun hg
      | false =>
        simp only [Bool.false_eq_true, if_false, wp_bind, wp_ask_answer]
        refine (wp_explore_observed p o _ _ _ _ _).mono ?_
        rintro waiting' after ⟨rfl, rfl⟩
        rw [h.successors_eq hsteady hp (hfits n hn)]
        refine (wp_ask_progress (p := p)).2
          ⟨hopen, _, h.expand hsteady hp (hfits n hn), fun goal final hfinal => ?_⟩
        refine .expanded hp hrun hg ?_
        unfold Arena.expanded Arena.swept
        simpa only [Arena.tally_tally, Nat.add_zero, Nat.zero_add] using hfinal

/-- A* does what the search does that opens no state again, or a counter overflows. -/
theorem wp_run_observed (hrecord : p.alreadySeen = .record) (hsteady : p.Steady)
    (hopen : arena.stopped = false) (hrange : StaysInRange p o arena) :
    wp (run (p.observed o) ∅ (OpenList.empty.push (.root p.initial (p.heuristic p.initial))))
      (fun goal after => OneByOne p o ∅
        (OpenList.empty.push (.root p.initial (p.heuristic p.initial))) arena goal after) Overflow arena := by
  let start : OpenList S M := OpenList.empty.push (.root p.initial (p.heuristic p.initial))
  -- What is left of the search leads to its end from where it stands, and so from the beginning.
  let I (closed : Std.HashMap S Cost) (waiting : OpenList S M) (middle : Arena ω) : Prop :=
    middle.stopped = false ∧ Visits (p.observed o) ∅ start arena closed waiting middle ∧
      ∃ seen, Settled p closed seen waiting ∧ ∀ goal final,
        OneByOne p o seen waiting middle goal final → OneByOne p o ∅ start arena goal final
  have hturn : ∀ closed waiting middle, I closed waiting middle →
      wp (turn (p.observed o) closed waiting)
        (fun result after => result.Ends I (fun goal after => OneByOne p o ∅ start arena goal after) after)
        Overflow middle := by
    rintro closed waiting middle ⟨hopen, hvisits, seen, hsettled, hback⟩
    have hfits := hrange closed waiting middle hvisits
    refine (wp_turn_observed hrecord hsteady hsettled hfits hopen).with_eq.mono ?_
    rintro result after ⟨heq, hresult⟩
    cases result with
    | onward closed' waiting' =>
      obtain ⟨hopen', seen', hsettled', hnext⟩ := hresult
      exact ⟨hopen', hvisits.turn heq, seen', hsettled', fun goal final h => hback _ _ (hnext _ _ h)⟩
    | found n => exact hback _ _ hresult
    | exhausted | stopped => exact hback _ _ hresult
  exact wp_run hturn ⟨hopen, .start, ∅, .start p, fun _ _ h => h⟩

end BestFirst

/-! ### The pool -/

namespace PoolSearch

variable {p : PureProblem S M} {world : ω}

/-- With a heuristic that no move lowers by more than the move costs, and as long as no sum of a path cost
and an estimate is cut off, a search with one worker that claims states when they are taken does what A*
does: it has the same result, and leaves the same arena behind, with the same counters and with the world
that the observer made of the same reports. -/
theorem single_worker_best_first (hrecord : p.alreadySeen = .record) (hsteady : p.Steady)
    (o : Observer ω S M) (seed : UInt64)
    (hrange : BestFirst.StaysInRange p o { world, stats := { workers := 1 } }) :
    wp (BestFirst.solve (p.observed o))
      (fun path final => ∃ pool middle, prepareAStar (p.observed o) (.ofSeed 1 seed)
          { world, stats := { workers := 1 } } = .ok pool middle ∧
        Lands (p.observed o) .whenTaken pool middle path final)
      Overflow { world, stats := { workers := 1 } } := by
  unfold BestFirst.solve
  rw [wp_bind]
  refine (wp_ask_answer _).2 ?_
  rw [wp_bind]
  refine (BestFirst.wp_run_observed hrecord hsteady rfl hrange).mono fun goal after hgoal => ?_
  exact hgoal.lands (.ofSeed 1 seed) rfl rfl

end PoolSearch

/-! ### An example -/

namespace Junction

/-- The dearest way to get there. -/
def longest : Junction → Nat
  | start => 0
  | bypass => 1
  | middle => 3
  | finish => 6

theorem route_le_longest {ms : List Junction} {s : Junction} {c : Cost}
    (route : signposted.rules.Route start ms s c) : c.toNat ≤ longest s := by
  have hmove : ∀ s, ∀ m ∈ signposted.legalMoves s,
      longest s + (signposted.moveCost s m).toNat ≤ longest (signposted.applyMove s m) := by
    intro s
    cases s <;> decide
  induction route with
  | stay => exact Nat.le_refl _
  | @snoc ms t u m c d route step ih =>
    obtain ⟨hm, rfl, rfl⟩ := PureProblem.step_rules_iff.1 step
    have := hmove t m hm
    rw [Cost.toNat_plus]
    omega

theorem signposted_staysInRange :
    BestFirst.StaysInRange signposted ⟨fun s tries log => .progress s tries :: log,
      fun path s tries log => .finished path s tries :: log⟩ silent := by
  refine .of_routes fun ms s c route => ?_
  have hroute := route_le_longest route
  have hbound : longest s + (signposted.heuristic s).toNat ≤ Cost.largest.toNat := by
    cases s <;> decide
  omega

/-- The middle is met on the dearer way first. By the time that node is taken, the cheaper one has been. -/
theorem single_worker_signposted :
    signposted.alreadySeen = .record ∧ signposted.Steady ∧
      Act.wp (BestFirst.solve signposted.recording)
        (fun path final => ∃ pool middle, PoolSearch.prepareAStar signposted.recording (.ofSeed 1 42) silent =
            .ok pool middle ∧
          PoolSearch.Lands signposted.recording .whenTaken pool middle path final)
        Overflow silent :=
  ⟨rfl, consistent_signposted.steady,
    PoolSearch.single_worker_best_first rfl consistent_signposted.steady _ 42 signposted_staysInRange⟩

end Junction

end StateSearch
