import StateSearch.Proofs.Exhaustive.Course

/-!
# Breadth-first search goes by distance

The nodes that are taken from a queue come in the order of their depths, and each of them is as deep as its
state is far away from the initial state. A route to the state of the next node leaves the states that were
expanded by way of a node that waits (`Coverage.met`), as no state is expanded twice, and no node that waits is
nearer than the next one. So no route to that state is shorter than the one by which it was found
(`Layered.isDistance`).

Main statement: `solve_nearest`, what a breadth-first search with finitely many states in reach does.
-/

namespace StateSearch

variable {ω S M : Type}

/-- What is closed once the class of `n` is, if what was expanded is closed. -/
theorem closing_openAt {K : Type} (rep : S → S) (pos : Node S M → K) (n : Node S M)
    (done : List (Node S M)) : Closing rep pos n (OpenAt rep pos done) = OpenAt rep pos (done ++ [n]) := by
  funext r k
  refine propext ⟨?_, ?_⟩
  · rintro (⟨rfl, rfl⟩ | h)
    · exact .of_mem (by simp)
    · exact h.mono fun c hc => List.mem_append_left _ hc
  · rintro ⟨c, hc, rfl, rfl⟩
    rcases List.mem_append.1 hc with hc | hc
    · exact .inr (.of_mem hc)
    · rw [List.mem_singleton.1 hc]
      exact .inl ⟨rfl, rfl⟩

namespace Exhaustive

variable [DecidableEq S] [Hashable S] {p : PureProblem S M} {rep : S → S} {o : Observer ω S M}
  {d : Discipline} {seen seen' : Std.HashSet S} {waiting rest : Deque (Node S M)} {arena after : Arena ω}
  {n : Node S M} {made ns done : List (Node S M)} {goal : Option (Node S M)}

/-! ### The next node -/

/-- The next node is as deep as its state is far away from the initial state. -/
theorem Layered.isDistance {rest : List (Node S M)}
    (h : Layered p rep (OpenAt rep Node.depth done) seen (n :: rest)) (hfolds : p.Folds rep)
    (I : Ledger p rep done seen (n :: rest)) : p.IsDistance n.state n.depth := by
  obtain ⟨hgenuine, hlength⟩ := h.counted n (List.mem_cons_self ..)
  refine ⟨⟨_, _, hgenuine, hlength⟩, fun ms c route => ?_⟩
  rcases h.wave.coverage.met hfolds.suits_length (PureProblem.comes_length route) with
    ⟨k, ⟨x, hx, hrep, -⟩, -⟩ | ⟨t, k, -, ⟨x, hx, -, rfl⟩, hle⟩
  · -- No state is expanded twice.
    have hnodup := I.nodup
    rw [List.map_append, List.nodup_append] at hnodup
    exact absurd hrep (hnodup.2.2 _ (List.mem_map_of_mem hx) _ (List.mem_cons_self ..))
  · calc n.depth
      _ ≤ x.depth := h.depth_le hx
      _ ≤ ms.length := hle

theorem Layered.expand_taken (h : Layered p rep (OpenAt rep Node.depth done) seen (n :: rest.toList))
    (hfolds : p.Folds rep) (hgoal : p.isGoal n.state = false)
    (hgrown : sprouts p rep n (p.legalMoves n.state) seen = (made, seen')) :
    Layered p rep (OpenAt rep Node.depth (done ++ [n])) seen' (made.foldl Deque.pushBack rest).toList := by
  rw [Deque.toList_pushAll, ← closing_openAt]
  exact h.expand hfolds hgoal (.of_sprouts hgrown)

/-! ### The nodes that are expanded -/

namespace Course

theorem isDistance (hfolds : p.Folds rep) (I : Ledger p rep done seen waiting.toList)
    (hlayered : Layered p rep (OpenAt rep Node.depth done) seen waiting.toList)
    (h : Course p rep o .breadthFirst seen waiting arena ns goal after) :
    ∀ n ∈ ns, p.IsDistance n.state n.depth := by
  induction h generalizing done with
  | exhausted => exact fun n hn => absurd hn List.not_mem_nil
  | found htaken _ =>
    have hnext := I.of_take? htaken
    rw [Deque.toList_of_popFront? htaken] at hlayered
    simpa using hlayered.isDistance hfolds hnext
  | expanded htaken hno_goal hgrown _ ih =>
    have hnext := I.of_take? htaken
    have hlater := I.expand_taken htaken hno_goal hgrown
    rw [Deque.toList_of_popFront? htaken] at hlayered
    exact List.forall_mem_cons.2 ⟨hlayered.isDistance hfolds hnext,
      ih hlater (hlayered.expand_taken hfolds hno_goal hgrown)⟩

/-- Nodes are expanded in the order of their depths. -/
theorem deepening (hfolds : p.Folds rep)
    (hlayered : Layered p rep (OpenAt rep Node.depth done) seen waiting.toList)
    (h : Course p rep o .breadthFirst seen waiting arena ns goal after) :
    ns.Pairwise fun m n => m.depth ≤ n.depth := by
  induction h generalizing done with
  | exhausted => exact .nil
  | found => exact List.pairwise_singleton _ _
  | @expanded seen seen' waiting rest arena after n made ns goal htaken hno_goal hgrown hnext ih =>
    rw [Deque.toList_of_popFront? htaken] at hlayered
    refine List.pairwise_cons.2 ⟨?_, ih (hlayered.expand_taken hfolds hno_goal hgrown)⟩
    refine hnext.forall_of_waiting (fun c hc m _ => Nat.le_succ_of_le hc) ?_
    rw [Deque.toList_pushAll]
    refine List.forall_mem_append.2 ⟨fun c hc => hlayered.depth_le (List.mem_cons_of_mem _ hc), ?_⟩
    intro c hc
    obtain ⟨m, -, rfl⟩ := (Grown.of_sprouts hgrown).child c hc
    exact Nat.le_succ _

/-- The goal that is found is a nearest one, and if none is found there is none. -/
theorem isNearest (hfolds : p.Folds rep) (I : Ledger p rep done seen waiting.toList)
    (hlayered : Layered p rep (OpenAt rep Node.depth done) seen waiting.toList)
    (h : Course p rep o .breadthFirst seen waiting arena ns goal after) :
    p.IsNearest (goal.map Node.toPath) := by
  induction h generalizing done with
  | exhausted hempty =>
    rw [Discipline.toList_of_take?_eq_none hempty] at I
    exact I.not_solvable hfolds
  | found htaken hgoal =>
    rw [Deque.toList_of_popFront? htaken] at hlayered
    exact hlayered.isShortest hfolds hgoal
  | expanded htaken hno_goal hgrown _ ih =>
    have hlater := I.expand_taken htaken hno_goal hgrown
    rw [Deque.toList_of_popFront? htaken] at hlayered
    exact ih hlater (hlayered.expand_taken hfolds hno_goal hgrown)

end Course

theorem Layered.seedling (p : PureProblem S M) (rep : S → S) :
    Layered p rep (OpenAt rep (Node.depth : Node S M → Nat) []) (record p rep) (seedling p).toList := by
  have hnothing : OpenAt rep (Node.depth : Node S M → Nat) [] = fun _ _ => False := by
    funext r k
    exact propext ⟨fun ⟨_, hc, _⟩ => List.not_mem_nil hc, False.elim⟩
  rw [hnothing]
  exact .start p rep

/-- Breadth-first search ends if finitely many states can be reached. It expands states in the order of their
distances from the initial state, and it finds a path with the fewest moves, or `none` if no goal can be
reached. The problem is told of all expansions but that of the goal. -/
theorem solve_nearest (p : PureProblem S M) (hseen : p.alreadySeen = .record)
    (hfinite : {s | p.Reachable s}.Finite) (o : Observer ω S M) (arena : Arena ω)
    (hopen : arena.stopped = false) :
    ∃ ns goal after, Course p id o .breadthFirst (record p id) (Exhaustive.seedling p) arena ns goal after ∧
      (∀ n ∈ ns, p.IsDistance n.state n.depth) ∧
      (ns.Pairwise fun m n => m.depth ≤ n.depth) ∧
      p.IsNearest (goal.map Node.toPath) ∧
      after.stats.expanded = arena.stats.expanded + ns.length ∧
      after.world =
        BestFirst.reports o arena.stats.expanded (ns.filter (!p.isGoal ·.state)) arena.world ∧
      (after.stats.Fits → ∃ final,
        solve .breadthFirst (p.observed o) arena = .ok (goal.map Node.toPath) final ∧
          final.stats = { after.stats with cost := goal.map Node.pathCost }) := by
  have hfolds := p.folds_id hseen
  have I := Ledger.start p id
  have hlayered := Layered.seedling p id
  obtain ⟨ns, goal, after, hcourse⟩ := I.exists_course (d := .breadthFirst) o
    (fun s hs => hfinite.mem_toFinset.2 hs) _ _ _ arena
  refine ⟨ns, goal, after, hcourse, hcourse.isDistance hfolds I hlayered,
    hcourse.deepening hfolds hlayered, hcourse.isNearest hfolds I hlayered, hcourse.expanded_eq,
    hcourse.world_eq, fun hfits => ?_⟩
  rw [hcourse.solve_eq hfolds.record hopen hfits]
  exact Act.exists_conclude_eq o goal after

end Exhaustive

/-! ### An example -/

namespace Junction

theorem solve_detour_nearest :
    detour.alreadySeen = .record ∧ {s | detour.Reachable s}.Finite ∧
    ∃ ns goal after, Exhaustive.Course detour id .deaf .breadthFirst (Exhaustive.record detour id)
        (Exhaustive.seedling detour) { world := () } ns goal after ∧
      (∀ n ∈ ns, detour.IsDistance n.state n.depth) ∧
      (ns.Pairwise fun m n => m.depth ≤ n.depth) ∧
      detour.IsNearest (goal.map Node.toPath) := by
  have hfinite : {s | detour.Reachable s}.Finite :=
    (List.finite_toSet [start, bypass, middle, finish]).subset fun s _ => by cases s <;> simp
  obtain ⟨ns, goal, after, hcourse, hdistance, hdepths, hnearest, -⟩ := Exhaustive.solve_nearest detour rfl
    hfinite (.deaf : Observer Unit Junction Junction) { world := () } rfl
  exact ⟨rfl, hfinite, ns, goal, after, hcourse, hdistance, hdepths, hnearest⟩

end Junction

end StateSearch
