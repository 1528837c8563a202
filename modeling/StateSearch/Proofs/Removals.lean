import StateSearch.Proofs.BestFirst
import StateSearch.Proofs.Observer

/-!
# The order in which nodes leave the open list

With a heuristic that no move lowers by more than the move costs, nodes leave the open list in the order of
their estimates, and a state is expanded again only where estimates are cut off at the largest cost
(`leave_in_order`). This is so however many states can be reached, whatever calls fail, and whenever the
search is asked to stop.

`removals` is what leaves the open list along a run, each node with whether its expansion is counted.
`Turn.Leaves` says all that a turn can do with the node that it takes, and `Trace` what a run makes of that.
-/

namespace StateSearch

/-- Whatever the problem answers is what the pure functions say, and it records each state as it is. It may
also fail to answer, or ask for a stop. -/
structure Problem.Echoes {ω S M : Type} (p : Problem ω S M) (q : PureProblem S M) : Prop where
  respects : p.Respects q.rules
  plain : p.Plain
  heuristic : ∀ {s world c}, (p.heuristic s world).result = .ok c → c = q.heuristic s

theorem PureProblem.echoes {ω S M : Type} (q : PureProblem S M) (hseen : q.alreadySeen = .record) :
    (q.toProblem : Problem ω S M).Echoes q where
  respects := q.follows_rules.respects
  plain := PureProblem.plain_toProblem hseen
  heuristic h := (Except.ok.inj h).symm

variable {ω S M : Type} {p : Problem ω S M} {q : PureProblem S M}

namespace Problem.Echoes

theorem applyMove (hp : p.Echoes q) {s t : S} {m : M} {world : ω}
    (h : (p.applyMove s m world).result = .ok t) : t = q.applyMove s m :=
  (Except.ok.inj (hp.respects.applyMove h)).symm

theorem moveCost (hp : p.Echoes q) {s : S} {m : M} {world : ω} {c : Cost}
    (h : (p.moveCost s m world).result = .ok c) : c = q.moveCost s m :=
  (Except.ok.inj (hp.respects.moveCost h)).symm

theorem legalMoves (hp : p.Echoes q) {s : S} {world : ω} {moves : List M}
    (h : (p.legalMoves s world).result = .ok moves) : moves = q.legalMoves s :=
  (Except.ok.inj (hp.respects.legalMoves h)).symm

end Problem.Echoes

/-- A record that each state is put into as it is. -/
theorem Act.wp_inquire_plain {σ : Type} [SeenSet σ S] (hplain : p.Plain) {s : S} {seen : σ}
    {arena : Arena ω} {post : Bool × σ → Arena ω → Prop} {err : Fault → Arena ω → Prop}
    (hok : ∀ world stopped, post (!(SeenSet.insert seen s).1, (SeenSet.insert seen s).2)
      { arena with world, stopped })
    (herr : ∀ fault world stopped, err fault { arena with world, stopped }) :
    wp (inquire p s seen) post err arena := by
  unfold inquire
  rw [wp_bind]
  refine wp_ask _ (fun query world stopped hquery => ?_) fun fault world stopped _ => herr fault world stopped
  obtain rfl := hplain _ _ _ hquery
  exact hok world stopped

namespace BestFirst

open Act

variable [DecidableEq S] [Hashable S] {closed : Std.HashMap S Cost} {waiting rest : OpenList S M}
  {arena : Arena ω} {n : Node S M}

/-! ### What leaves the open list -/

/-- Whether the next turn counts an expansion. -/
def counts (p : Problem ω S M) (closed : Std.HashMap S Cost) (waiting : OpenList S M) (arena : Arena ω) :
    Bool :=
  arena.stats.expanded < (arenaAfter (turn p closed waiting arena)).stats.expanded

/-- The nodes that a run takes from the open list one after the other, each with whether its expansion is
counted. -/
def removals (p : Problem ω S M) (closed : Std.HashMap S Cost) (waiting : OpenList S M) (arena : Arena ω) :
    List (Node S M × Bool) :=
  match waiting.pop? with
  | none => []
  | some (n, _) => (n, counts p closed waiting arena) ::
      match h : turn p closed waiting arena with
      | .ok (.onward closed waiting) after =>
        have := room_of_turn h
        removals p closed waiting after
      | _ => []
termination_by room arena

/-- The first node that leaves is the one that the first turn takes. -/
theorem removals_eq (p : Problem ω S M) (closed : Std.HashMap S Cost) (waiting : OpenList S M)
    (arena : Arena ω) : removals p closed waiting arena =
      match waiting.pop? with
      | none => []
      | some (n, _) => (n, counts p closed waiting arena) ::
          match turn p closed waiting arena with
          | .ok (.onward closed waiting) after => removals p closed waiting after
          | _ => [] := by
  rw [removals]
  cases waiting.pop? with
  | none => rfl
  | some taken =>
    refine congrArg (List.cons _) ?_
    split <;> rename_i h
    · simp only [h]
    · split
      · exact absurd ‹_› (h _ _ _)
      · rfl

/-- The nodes that leave the open list in a whole search. -/
def removed (p : Problem ω S M) (arena : Arena ω) : List (Node S M × Bool) :=
  match ask (p.heuristic p.initial) arena with
  | .ok remaining arena => removals p ∅ (OpenList.empty.push (.root p.initial remaining)) arena
  | .error _ _ => []

/-- The nodes among these that are expanded. -/
def expansions (log : List (Node S M × Bool)) : List (Node S M) :=
  (log.filter (·.2)).map (·.1)

/-! ### What a turn does with the node that it takes -/

/-- What a turn comes to that takes `n` and leaves the others, and whether it counts an expansion. -/
inductive Turn.Leaves (q : PureProblem S M) (closed : Std.HashMap S Cost) (n : Node S M)
    (rest : OpenList S M) : Bool → Turn S M → Prop
  | stopped : Leaves q closed n rest false .stopped
  | dropped : Leaves q closed n rest false (.onward closed rest)
  | found (new : ClosedAt.holds closed n.state n.pathCost = false) : Leaves q closed n rest true (.found n)
  | expanded {made : List (Node S M)} (new : ClosedAt.holds closed n.state n.pathCost = false)
      (successors : made ⊆ (q.legalMoves n.state).map (q.successor n)) :
    Leaves q closed n rest true (.onward (closed.insert n.state n.pathCost) (made.foldl OpenList.push rest))

theorem wp_explore_echoes (hp : p.Echoes q) (n : Node S M) (closed : Std.HashMap S Cost) (moves : List M)
    (waiting : OpenList S M) (arena : Arena ω) :
    wp (explore p n closed moves waiting)
      (fun waiting' after => after.stats.expanded = arena.stats.expanded ∧
        ∃ made ⊆ moves.map (q.successor n), waiting' = made.foldl OpenList.push waiting)
      (fun _ after => after.stats.expanded = arena.stats.expanded) arena := by
  induction moves generalizing waiting arena with
  | nil => exact ⟨rfl, [], List.Subset.refl _, rfl⟩
  | cons m moves ih =>
    have hskip : ∀ {waiting' : OpenList S M} {after : Arena ω},
        after.stats.expanded = arena.stats.expanded ∧
        (∃ made ⊆ moves.map (q.successor n), waiting' = made.foldl OpenList.push waiting) →
        after.stats.expanded = arena.stats.expanded ∧
          ∃ made ⊆ (m :: moves).map (q.successor n), waiting' = made.foldl OpenList.push waiting :=
      fun ⟨hexpanded, made, hmade, hwaiting⟩ =>
        ⟨hexpanded, made, List.Subset.trans hmade (List.subset_cons_self _ _), hwaiting⟩
    simp only [explore, wp_bind]
    refine wp_ask _ (fun t _ _ ht => ?_) fun _ _ _ _ => rfl
    refine wp_countGenerated (fun _ => ?_) fun _ => rfl
    refine wp_ask _ (fun c _ _ hc => ?_) fun _ _ _ _ => rfl
    split
    · rw [wp_bind]
      exact wp_countDuplicate (fun _ => (ih _ _).mono fun _ _ => hskip) fun _ => rfl
    · rw [wp_bind]
      refine wp_ask _ (fun remaining _ _ hremaining => (ih _ _).mono ?_) fun _ _ _ _ => rfl
      rintro waiting' after ⟨hexpanded, made, hmade, rfl⟩
      obtain rfl := hp.applyMove ht
      obtain rfl := hp.moveCost hc
      obtain rfl := hp.heuristic hremaining
      exact ⟨hexpanded, q.successor n m :: made, List.cons_subset_cons _ hmade, rfl⟩

theorem wp_turn_leaves (hp : p.Echoes q) (closed : Std.HashMap S Cost)
    (htaken : waiting.pop? = some (n, rest)) (arena : Arena ω) :
    wp (turn p closed waiting)
      (fun result after => ∃ counted, Turn.Leaves q closed n rest counted result ∧
        after.stats.expanded = arena.stats.expanded + counted.toNat)
      (fun _ after => ∃ counted : Bool,
        (counted = true → ClosedAt.holds closed n.state n.pathCost = false) ∧
        after.stats.expanded = arena.stats.expanded + counted.toNat) arena := by
  have hnone : ∀ {P : Prop}, false = true → P := fun h => absurd h Bool.false_ne_true
  unfold turn
  simp only [htaken, wp_bind, wp_isStopped]
  split
  · exact ⟨false, .stopped, rfl⟩
  · rw [claim, wp_bind]
    refine wp_inquire_plain hp.plain (fun world stopped => ?_) fun _ _ _ => ⟨false, hnone, rfl⟩
    cases hholds : ClosedAt.holds closed n.state n.pathCost with
    | true =>
      simp only [SeenSet.insert, ClosedAt.insert, hholds, if_true, Bool.not_false, wp_bind]
      exact wp_countDuplicate (fun _ => ⟨false, .dropped, rfl⟩) fun _ => ⟨false, hnone, rfl⟩
    | false =>
      simp only [SeenSet.insert, ClosedAt.insert, hholds, Bool.false_eq_true, if_false, Bool.not_true,
        BestFirst.expand, wp_bind]
      refine wp_countExpanded_tally ?_ fun _ => ⟨false, hnone, rfl⟩
      refine wp_ask _ (fun reached _ _ _ => ?_) fun _ _ _ _ => ⟨true, fun _ => trivial, rfl⟩
      split
      · exact ⟨true, .found hholds, rfl⟩
      · rw [wp_bind]
        refine wp_ask _ (fun moves _ _ hmoves => ?_) fun _ _ _ _ => ⟨true, fun _ => trivial, rfl⟩
        obtain rfl := hp.legalMoves hmoves
        rw [wp_bind]
        have hexplore := wp_explore_echoes hp n (closed.insert n.state n.pathCost) (q.legalMoves n.state) rest
        refine ((hexplore _).mono ?_).mono_error fun _ _ hexpanded => ⟨true, fun _ => trivial, hexpanded⟩
        rintro waiting' after ⟨hexpanded, made, hmade, rfl⟩
        rw [wp_bind]
        exact wp_ask _ (fun _ _ _ _ => ⟨true, .expanded hholds hmade, hexpanded⟩)
          fun _ _ _ _ => ⟨true, fun _ => trivial, hexpanded⟩

/-! ### What a run makes of the nodes that it takes -/

/-- With these states closed and these nodes waiting, these nodes leave the open list one after the other. -/
inductive Trace (q : PureProblem S M) : Std.HashMap S Cost → OpenList S M → List (Node S M × Bool) → Prop
  | nil {closed : Std.HashMap S Cost} {waiting : OpenList S M} : Trace q closed waiting []
  /-- The run ends with this node. -/
  | last {closed : Std.HashMap S Cost} {waiting rest : OpenList S M} {n : Node S M} {counted : Bool}
      (taken : waiting.pop? = some (n, rest))
      (new : counted = true → ClosedAt.holds closed n.state n.pathCost = false) :
    Trace q closed waiting [(n, counted)]
  | onward {closed closed' : Std.HashMap S Cost} {waiting waiting' rest : OpenList S M} {n : Node S M}
      {counted : Bool} {log : List (Node S M × Bool)} (taken : waiting.pop? = some (n, rest))
      (leaves : Turn.Leaves q closed n rest counted (.onward closed' waiting'))
      (next : Trace q closed' waiting' log) : Trace q closed waiting ((n, counted) :: log)

theorem Turn.Leaves.new {counted : Bool} {result : Turn S M}
    (h : Turn.Leaves q closed n rest counted result) (hcounted : counted = true) :
    ClosedAt.holds closed n.state n.pathCost = false := by
  cases h with
  | stopped | dropped => cases hcounted
  | found hnew => exact hnew
  | expanded hnew _ => exact hnew

/-- What a turn does with the node that it takes, whether it succeeds or not. -/
theorem exists_leaves (hp : p.Echoes q) (closed : Std.HashMap S Cost)
    (htaken : waiting.pop? = some (n, rest)) (arena : Arena ω) :
    (arenaAfter (turn p closed waiting arena)).stats.expanded =
        arena.stats.expanded + (counts p closed waiting arena).toNat ∧
      (counts p closed waiting arena = true → ClosedAt.holds closed n.state n.pathCost = false) ∧
      ∀ {result after}, turn p closed waiting arena = .ok result after →
        Turn.Leaves q closed n rest (counts p closed waiting arena) result := by
  have hcounts : ∀ {counted : Bool} {k : Nat},
      (arenaAfter (turn p closed waiting arena)).stats.expanded = k →
        k = arena.stats.expanded + counted.toNat → counts p closed waiting arena = counted := by
    rintro counted k rfl h
    rw [counts, h]
    cases counted <;> simp
  have hturn := wp_turn_leaves hp closed htaken arena
  unfold wp at hturn
  split at hturn <;> rename_i heq
  · obtain ⟨counted, hleaves, hexpanded⟩ := hturn
    rw [hcounts (by rw [heq]; rfl) hexpanded, heq]
    refine ⟨hexpanded, hleaves.new, fun h => ?_⟩
    cases h
    exact hleaves
  · obtain ⟨counted, hnew, hexpanded⟩ := hturn
    rw [hcounts (by rw [heq]; rfl) hexpanded, heq]
    exact ⟨hexpanded, hnew, nofun⟩

omit [DecidableEq S] [Hashable S] in
theorem length_expansions_cons (n : Node S M) (counted : Bool) (log : List (Node S M × Bool)) :
    (expansions ((n, counted) :: log)).length = counted.toNat + (expansions log).length := by
  cases counted <;> simp [expansions, Nat.add_comm]

/-- What leaves the open list is a trace, and its expansions are those that the search counts. -/
theorem trace_removals (hp : p.Echoes q) (closed : Std.HashMap S Cost) (waiting : OpenList S M)
    (arena : Arena ω) : Trace q closed waiting (removals p closed waiting arena) ∧
      (arenaAfter (run p closed waiting arena)).stats.expanded =
        arena.stats.expanded + (expansions (removals p closed waiting arena)).length := by
  match htaken : waiting.pop? with
  | none =>
    have hturn : turn p closed waiting arena = .ok .exhausted arena := by
      simp only [turn, htaken]
      rfl
    rw [removals_eq, run_eq, htaken, hturn]
    exact ⟨.nil, rfl⟩
  | some (n, rest) =>
    obtain ⟨hexpanded, hnew, hleaves⟩ := exists_leaves hp closed htaken arena
    rw [removals_eq, run_eq, htaken]
    match hturn : turn p closed waiting arena with
    | .ok (.onward closed' waiting') after =>
      obtain ⟨htrace, hsum⟩ := trace_removals hp closed' waiting' after
      rw [hturn] at hexpanded
      refine ⟨.onward htaken (hleaves hturn) htrace, hsum.trans ?_⟩
      rw [length_expansions_cons, ← Nat.add_assoc]
      exact congrArg (· + _) hexpanded
    | .ok .exhausted after | .ok .stopped after | .ok (.found goal) after | .error fault after =>
      rw [hturn] at hexpanded
      refine ⟨.last htaken hnew, ?_⟩
      rw [length_expansions_cons]
      exact hexpanded
termination_by room arena
decreasing_by exact room_of_turn hturn

namespace Trace

variable {log : List (Node S M × Bool)}

/-- What holds of the nodes that wait, and is handed down to successors, holds of all that leave. -/
theorem forall_of_waiting {I : Node S M → Prop}
    (hI : ∀ n, I n → ∀ m ∈ q.legalMoves n.state, I (q.successor n m)) (h : Trace q closed waiting log)
    (hsound : waiting.Sound) (hwaiting : ∀ n ∈ waiting.toList, I n) : ∀ e ∈ log, I e.1 := by
  induction h with
  | nil => exact fun e he => absurd he List.not_mem_nil
  | last htaken => simpa using hwaiting _ (OpenList.mem_of_pop? htaken)
  | onward htaken hleaves _ ih =>
    have hfirst := hwaiting _ (OpenList.mem_of_pop? htaken)
    refine List.forall_mem_cons.2 ⟨hfirst, ?_⟩
    cases hleaves with
    | dropped =>
      exact ih (hsound.of_pop? htaken) fun n hn => hwaiting n (OpenList.mem_of_mem_pop? htaken hn)
    | expanded _ hmade =>
      refine ih ((hsound.of_pop? htaken).pushAll _) fun n hn => ?_
      rcases mem_pushAll hsound htaken hmade hn with ⟨m, hm, rfl⟩ | hn
      · exact hI _ hfirst m hm
      · exact hwaiting n hn

/-- Nodes leave in the order of their estimates. -/
theorem ascending (hsteady : q.Steady) (h : Trace q closed waiting log) (hsound : waiting.Sound)
    (hfair : ∀ n ∈ waiting.toList, n.Fair q) : log.Pairwise fun e f => e.1.estimate ≤ f.1.estimate := by
  induction h with
  | nil => exact .nil
  | last => exact List.pairwise_singleton _ _
  | @onward closed closed' waiting waiting' rest n counted log htaken hleaves hnext ih =>
    -- Whatever waits from now on is estimated at no less than the node that has left.
    have hkept : waiting'.Sound ∧ (∀ c ∈ waiting'.toList, c.Fair q) ∧
        ∀ c ∈ waiting'.toList, n.estimate ≤ c.estimate := by
      cases hleaves with
      | dropped =>
        have hmem : ∀ c ∈ waiting'.toList, c ∈ waiting.toList := fun c => OpenList.mem_of_mem_pop? htaken
        exact ⟨hsound.of_pop? htaken, fun c hc => hfair c (hmem c hc),
          fun c hc => OpenList.estimate_le_of_pop? hsound htaken (hmem c hc)⟩
      | expanded _ hmade =>
        exact ⟨(hsound.of_pop? htaken).pushAll _, fair_pushAll hsound htaken hmade hfair,
          estimate_le_pushAll hsound htaken hmade hsteady hfair⟩
    obtain ⟨hsound', hfair', hle⟩ := hkept
    refine List.pairwise_cons.2 ⟨fun e he => ?_, ih hsound' hfair'⟩
    refine (hnext.forall_of_waiting (I := fun c => c.Fair q ∧ n.estimate ≤ c.estimate) ?_ hsound'
      (fun c hc => ⟨hfair' c hc, hle c hc⟩) e he).2
    rintro c ⟨hc, hle⟩ m hm
    exact ⟨hc.successor hm, UInt64.le_trans hle (hsteady.estimate_le_successor hc hm)⟩

/-- A state is expanded only below the cost at which it is closed. -/
theorem not_holds (h : Trace q closed waiting log) :
    ∀ e ∈ log, e.2 = true → ClosedAt.holds closed e.1.state e.1.pathCost = false := by
  induction h with
  | nil => exact fun e he => absurd he List.not_mem_nil
  | last _ hnew => simpa using hnew
  | onward _ hleaves _ ih =>
    refine List.forall_mem_cons.2 ⟨hleaves.new, fun e he hcounted => ?_⟩
    have hlater := ih e he hcounted
    cases hleaves with
    | dropped => exact hlater
    | expanded hfirst _ =>
      refine Bool.eq_false_iff.2 fun hholds => ?_
      rw [ClosedAt.holds_insert hfirst hholds] at hlater
      cases hlater

/-- Of two expansions of a state, the later one is cheaper. -/
theorem cheaper (h : Trace q closed waiting log) : log.Pairwise fun e f => e.2 = true → f.2 = true →
    f.1.state = e.1.state → f.1.pathCost < e.1.pathCost := by
  induction h with
  | nil => exact .nil
  | last => exact List.pairwise_singleton _ _
  | onward _ hleaves hnext ih =>
    refine List.pairwise_cons.2 ⟨fun e he hcounted hlater heq => ?_, ih⟩
    have hnew := hnext.not_holds e he hlater
    cases hleaves with
    | dropped => cases hcounted
    | expanded hfirst _ =>
      refine UInt64.not_le.1 fun hle => ?_
      rw [heq, ClosedAt.holds_mono ClosedAt.holds_insert_self hle] at hnew
      cases hnew

/-- A state is expanded again only where estimates are cut off. -/
theorem again (hsteady : q.Steady) (h : Trace q closed waiting log) (hsound : waiting.Sound)
    (hfair : ∀ n ∈ waiting.toList, n.Fair q) : log.Pairwise fun e f => e.2 = true → f.2 = true →
      f.1.state = e.1.state → e.1.estimate = Cost.largest ∧ f.1.estimate = Cost.largest := by
  have hall := h.forall_of_waiting (fun _ hn _ hm => hn.successor hm) hsound hfair
  refine ((h.ascending hsteady hsound hfair).and h.cheaper).imp_of_mem ?_
  rintro e f he hf ⟨hle, hcheaper⟩ hfirst hlater heq
  exact (hall e he).eq_largest (hall f hf) (by rw [heq]) (hcheaper hfirst hlater heq) hle

end Trace

/-- What leaves the open list in a whole search, and what it counts. -/
theorem trace_removed (hp : p.Echoes q) (arena : Arena ω) :
    Trace q ∅ (OpenList.empty.push (.root q.initial (q.heuristic q.initial))) (removed p arena) ∧
      (arenaAfter (solve p arena)).stats.expanded =
        arena.stats.expanded + (expansions (removed p arena)).length := by
  have hasked := Keeps.ask_stats (p.heuristic p.initial) arena
  unfold removed
  cases hask : ask (p.heuristic p.initial) arena with
  | error fault after =>
    rw [hask] at hasked
    have hsolve : solve p arena = .error fault after := by
      show EStateM.bind _ _ arena = _
      unfold EStateM.bind
      rw [hask]
    rw [hsolve]
    exact ⟨.nil, congrArg Stats.expanded hasked⟩
  | ok remaining after =>
    rw [hask] at hasked
    have hroot : (Node.root p.initial remaining : Node S M) = .root q.initial (q.heuristic q.initial) := by
      obtain rfl := hp.heuristic (ask_eq_ok hask)
      rw [hp.respects.initial]
      rfl
    obtain ⟨htrace, hsum⟩ := trace_removals hp ∅ (OpenList.empty.push (.root p.initial remaining)) after
    refine ⟨hroot ▸ htrace, ?_⟩
    have hsolve : solve p arena =
        (run p ∅ (OpenList.empty.push (.root p.initial remaining)) >>= conclude p) after := bind_eq hask
    rw [hsolve, Keeps.view_bind (Keeps.conclude_expanded p) after, hsum]
    exact congrArg (·.expanded + _) hasked

/-- If no move lowers the heuristic by more than the move costs, nodes leave the open list in the order of
their estimates, and a state is expanded again only if its estimate is cut off both times. -/
theorem leave_in_order (hp : p.Echoes q) (hsteady : q.Steady) (arena : Arena ω) :
    (∀ e ∈ removed p arena, e.1.Fair q) ∧
      ((removed p arena).Pairwise fun e f => e.1.estimate ≤ f.1.estimate) ∧
      ((expansions (removed p arena)).Pairwise fun m n =>
        n.state = m.state → m.estimate = Cost.largest ∧ n.estimate = Cost.largest) ∧
      (arenaAfter (solve p arena)).stats.expanded =
        arena.stats.expanded + (expansions (removed p arena)).length := by
  obtain ⟨htrace, hsum⟩ := trace_removed hp arena
  have I := Inv.start q
  refine ⟨htrace.forall_of_waiting (fun _ hn _ hm => hn.successor hm) I.sound I.fair,
    htrace.ascending hsteady I.sound I.fair, ?_, hsum⟩
  exact List.pairwise_map.2 (List.pairwise_filter.2 (htrace.again hsteady I.sound I.fair))

end BestFirst

/-! ### An example -/

namespace Junction

theorem leave_signposted_in_order :
    (signposted.toProblem : Problem Unit Junction Junction).Echoes signposted ∧ signposted.Steady ∧
    ((BestFirst.removed signposted.toProblem { world := () }).Pairwise fun e f =>
        e.1.estimate ≤ f.1.estimate) ∧
      ((BestFirst.expansions (BestFirst.removed signposted.toProblem { world := () })).Pairwise fun m n =>
        n.state = m.state → m.estimate = Cost.largest ∧ n.estimate = Cost.largest) := by
  have hechoes : (signposted.toProblem : Problem Unit Junction Junction).Echoes signposted :=
    signposted.echoes rfl
  have hsteady := consistent_signposted.steady
  obtain ⟨-, hascending, hagain, -⟩ := BestFirst.leave_in_order hechoes hsteady { world := () }
  exact ⟨hechoes, hsteady, hascending, hagain⟩

end Junction

end StateSearch
