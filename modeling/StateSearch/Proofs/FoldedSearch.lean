import StateSearch.Proofs.BestFirst
import StateSearch.Proofs.Exhaustive
import StateSearch.Proofs.Folding
import StateSearch.Proofs.Pool.Levels

/-!
# Searches that fold states

A* and breadth-first search are right also when one state is recorded for a whole class of states that are
alike: A* with a consistent heuristic finds a path of least cost (`BestFirst.solve_folded`), and
breadth-first search one with the fewest moves (`Exhaustive.solve_folded`), unless there is none. Both keep
a `Coverage` of what they have closed and what they have opened.

A* looks up the states it generates as they are, without folding them. This does no harm, because what it
finds in its closed list is a state that stands for its own class (`BestFirst.Folded.keys`).
-/

namespace StateSearch

open Act

/-! ### Right answers -/

namespace PureProblem

variable {S M : Type} {p : PureProblem S M}

/-- The answer of a search is right: a path with the fewest moves, or `none` if no route leads to a goal. -/
def IsNearest (p : PureProblem S M) : Option (Path M) → Prop
  | none => ¬ p.Solvable
  | some path => p.IsShortest path

theorem IsBest.solvable {path : Path M} (h : p.IsBest path) : p.Solvable := by
  obtain ⟨goal, route, hgoal⟩ := h.route
  exact ⟨goal, ⟨_, _, route⟩, hgoal⟩

theorem IsShortest.solvable {path : Path M} (h : p.IsShortest path) : p.Solvable := by
  obtain ⟨goal, route, hgoal⟩ := h.route
  exact ⟨goal, ⟨_, _, route⟩, hgoal⟩

/-- A right answer is a path if and only if there is a solution. -/
theorem IsOptimum.isSome_iff {path : Option (Path M)} (h : p.IsOptimum path) :
    path.isSome = true ↔ p.Solvable := by
  cases path with
  | none => exact iff_of_false Bool.false_ne_true h
  | some path => exact iff_of_true rfl (IsBest.solvable h)

/-- Right answers agree on whether there is a path, and on what it costs. -/
theorem IsOptimum.map_cost_eq {path path' : Option (Path M)} (h : p.IsOptimum path)
    (h' : p.IsOptimum path') : path.map Path.cost = path'.map Path.cost := by
  match path, path' with
  | none, none => rfl
  | none, some _ => exact absurd h'.solvable h
  | some _, none => exact absurd h.solvable h'
  | some path, some path' =>
    obtain ⟨goal, route, hgoal⟩ := h.route
    obtain ⟨goal', route', hgoal'⟩ := h'.route
    exact congrArg some (UInt64.le_antisymm (h.least _ _ _ route' hgoal') (h'.least _ _ _ route hgoal))

/-- Right answers agree on whether there is a path, and on how many moves it has. -/
theorem IsNearest.map_length_eq {path path' : Option (Path M)} (h : p.IsNearest path)
    (h' : p.IsNearest path') : path.map (·.moves.length) = path'.map (·.moves.length) := by
  match path, path' with
  | none, none => rfl
  | none, some _ => exact absurd h'.solvable h
  | some _, none => exact absurd h.solvable h'
  | some path, some path' =>
    obtain ⟨goal, route, hgoal⟩ := h.route
    obtain ⟨goal', route', hgoal'⟩ := h'.route
    exact congrArg some (Nat.le_antisymm (h.fewest _ _ _ route' hgoal') (h'.fewest _ _ _ route hgoal))

end PureProblem

variable {ω S M : Type} [DecidableEq S] [Hashable S] {p : PureProblem S M} {rep : S → S} {arena : Arena ω}

/-! ### A* -/

namespace BestFirst

variable {closed : Std.HashMap S Cost} {waiting rest : OpenList S M} {n : Node S M}

/-- What holds of the closed list and the open list between two turns. -/
structure Folded (p : PureProblem S M) (rep : S → S) (closed : Std.HashMap S Cost)
    (waiting : OpenList S M) : Prop where
  sound : waiting.Sound
  fair : ∀ n ∈ waiting.toList, n.Fair p
  /-- The states that are closed stand for classes. -/
  keys : ∀ r k, closed[r]? = some k → ∃ s, p.Reachable s ∧ rep s = r
  cover : Coverage p rep p.costGauge (fun r k => closed[r]? = some k)
    (OpenAt rep Node.pathCost waiting.toList)

namespace Folded

theorem start (p : PureProblem S M) (rep : S → S) : Folded p rep (∅ : Std.HashMap S Cost)
    (OpenList.empty.push (.root p.initial (p.heuristic p.initial))) := by
  have I := Inv.start p
  have hroot := OpenList.toList_push .empty (Node.root p.initial (p.heuristic p.initial) : Node S M)
  have hlist : (OpenList.empty.push (Node.root p.initial (p.heuristic p.initial) : Node S M)).toList =
      [.root p.initial (p.heuristic p.initial)] := List.perm_singleton.1 hroot
  refine ⟨I.sound, I.fair, fun r k hk => ?_, ?_⟩
  · simp at hk
  · rw [hlist]
    exact .start p rep _ (fun r k hk => by simp at hk) rfl rfl

theorem drop (h : Folded p rep closed waiting) (hsuits : p.Suits rep p.costGauge)
    (hp : waiting.pop? = some (n, rest)) (hn : ClosedAt.holds closed (rep n.state) n.pathCost = true) :
    Folded p rep closed rest := by
  have hperm := OpenList.toList_of_pop? hp
  have hreach := (h.fair n (OpenList.mem_of_pop? hp)).reachable
  obtain ⟨k, hk, hle⟩ := ClosedAt.holds_iff.1 hn
  refine ⟨h.sound.of_pop? hp, fun c hc => h.fair c (OpenList.mem_of_mem_pop? hp hc), h.keys, ?_⟩
  exact h.cover.drop hsuits hreach hk (p.rank_costGauge_le _ hle) fun r j hj => hj.of_perm hperm

theorem expand (h : Folded p rep closed waiting) (hfolds : p.Folds rep) (hsteady : p.Steady)
    (hp : waiting.pop? = some (n, rest)) (hn : ClosedAt.holds closed (rep n.state) n.pathCost = false)
    (hgoal : p.isGoal n.state = false) :
    Folded p rep (closed.insert (rep n.state) n.pathCost)
      ((successors p n (closed.insert (rep n.state) n.pathCost) (p.legalMoves n.state)).foldl
        OpenList.push rest) := by
  set closed' := closed.insert (rep n.state) n.pathCost with hclosed
  set children := successors p n closed' (p.legalMoves n.state) with hchildren
  have hsuits := hfolds.suits_cost hsteady
  have hperm := OpenList.toList_of_pop? hp
  have hfair := h.fair n (OpenList.mem_of_pop? hp)
  have hrest := h.sound.of_pop? hp
  have hpush := fun c => (OpenList.toList_pushAll hrest children).mem_iff (a := c)
  have hget : ∀ r k, closed'[r]? = some k ↔ r = rep n.state ∧ k = n.pathCost ∨
      r ≠ rep n.state ∧ closed[r]? = some k := by
    intro r k
    rw [hclosed, Std.HashMap.getElem?_insert]
    by_cases hr : r = rep n.state
    · simp [hr, eq_comm]
    · have hne : (rep n.state == r) = false := beq_false_of_ne (Ne.symm hr)
      simp [hr, hne]
  have hkeys : ∀ r k, closed'[r]? = some k → ∃ s, p.Reachable s ∧ rep s = r := by
    intro r k hk
    rcases (hget r k).1 hk with ⟨rfl, -⟩ | ⟨-, hk⟩
    · exact ⟨n.state, hfair.reachable, rfl⟩
    · exact h.keys r k hk
  refine ⟨hrest.pushAll children, fair_pushAll h.sound hp List.filter_sublist.subset h.fair, hkeys, ?_⟩
  refine h.cover.expand hsuits hfair.reachable hgoal ?_ ((hget _ _).2 (.inl ⟨rfl, rfl⟩))
    (fun r k hk => ((hget r k).1 hk).imp_right And.right) ?_ ?_
  · intro r j hj
    refine (hj.of_perm hperm).imp_left fun hj => hj.mono fun c hc => ?_
    exact (hpush c).2 (List.mem_append_right _ hc)
  · -- A class that was closed before was closed at a higher cost.
    intro r j hj
    by_cases hr : r = rep n.state
    · refine .inr ⟨hr, p.rank_costGauge_le _ (UInt64.le_of_lt (UInt64.not_le.1 fun hle => ?_))⟩
      rw [ClosedAt.holds_iff.2 ⟨j, hr ▸ hj, hle⟩] at hn
      cases hn
    · exact .inl ((hget r j).2 (.inr ⟨hr, hj⟩))
  · intro m hm
    by_cases hc : ClosedAt.holds closed' (p.applyMove n.state m)
        (Cost.plus n.pathCost (p.moveCost n.state m)) = true
    · obtain ⟨k, hk, hle⟩ := ClosedAt.holds_iff.1 hc
      -- What is found in the closed list as it is stands for its own class.
      obtain ⟨s, hs, hrep⟩ := hkeys _ _ hk
      have hown : rep (p.applyMove n.state m) = p.applyMove n.state m := by
        rw [← hrep, hfolds.rep_rep s hs]
      exact ⟨k, .inl (hown.symm ▸ hk), p.rank_costGauge_le _ hle⟩
    · refine ⟨_, .inr (OpenAt.of_mem (n := p.successor n m) ((hpush _).2 (List.mem_append_left _ ?_))),
        Nat.le_refl _⟩
      exact List.mem_filter.2 ⟨List.mem_map_of_mem hm, by simpa [PureProblem.successor] using hc⟩

end Folded

theorem wp_turn_folded (hfolds : p.Folds rep) (hcons : p.Consistent) (h : Folded p rep closed waiting)
    (hopen : arena.stopped = false) :
    wp (turn p.toProblem closed waiting)
      (fun result after => result.Ends (fun closed waiting after =>
        Folded p rep closed waiting ∧ after.stopped = false)
        (fun goal _ => p.IsOptimum (goal.map Node.toPath)) after)
      Overflow arena := by
  have hsuits := hfolds.suits_cost hcons.steady
  refine wp_turn_of hfolds.record hopen (fun hempty => ?_) ?_ (fun n rest hp hg => ?_) ?_
  · have hcover := h.cover
    rw [hempty] at hcover
    exact hcover.not_solvable hsuits fun s ⟨ms, c, route⟩ => ⟨c, PureProblem.comes_cost route⟩
  · exact fun n rest hp hc => h.drop hsuits hp hc
  · exact h.cover.isBest hfolds hcons h.fair (OpenList.mem_of_pop? hp) hg
      fun c hc => OpenList.estimate_le_of_pop? h.sound hp hc
  · exact fun n rest hp hc hg => h.expand hfolds hcons.steady hp hc hg

/-- A* with a consistent heuristic finds a best path, or finds out that there is none, also if it folds
states that are alike. -/
theorem solve_folded (hfolds : p.Folds rep) (hcons : p.Consistent) (hopen : arena.stopped = false) :
    wp (solve p.toProblem) (fun path _ => p.IsOptimum path) Overflow arena := by
  unfold solve
  rw [wp_bind]
  refine (wp_ask_answer _).2 ?_
  rw [wp_bind]
  refine (wp_run (fun _ _ _ h => wp_turn_folded hfolds hcons h.1 h.2) ⟨Folded.start p rep, hopen⟩).mono ?_
  intro goal after hgoal
  exact wp_conclude p goal fun _ => hgoal

end BestFirst

/-! ### Breadth-first search -/

namespace Exhaustive

variable {seen : Std.HashSet S} {waiting rest : Deque (Node S M)} {n : Node S M}

/-- The node that a move makes from `n`. No search of this kind estimates anything. -/
def sprout (p : PureProblem S M) (n : Node S M) (m : M) : Node S M :=
  n.child (p.applyMove n.state m) m (p.moveCost n.state m) 0

/-- The nodes that an expansion of `n` puts in, and the states that are recorded then. -/
structure Grown (p : PureProblem S M) (rep : S → S) (n : Node S M) (moves : List M)
    (seen seen' : Std.HashSet S) (made : List (Node S M)) : Prop where
  child : ∀ c ∈ made, ∃ m ∈ moves, c = sprout p n m
  recorded : ∀ r ∈ seen', r ∈ seen ∨ ∃ c ∈ made, rep c.state = r
  known : ∀ r ∈ seen, r ∈ seen'
  move : ∀ m ∈ moves, rep (p.applyMove n.state m) ∈ seen'

namespace Grown

variable {seen' : Std.HashSet S} {made : List (Node S M)} {m : M} {moves : List M}

theorem nil (p : PureProblem S M) (rep : S → S) (n : Node S M) (seen : Std.HashSet S) :
    Grown p rep n [] seen seen [] :=
  ⟨fun _ hc => absurd hc List.not_mem_nil, fun _ hr => .inl hr, fun _ hr => hr,
    fun _ hm => absurd hm List.not_mem_nil⟩

theorem skip (h : Grown p rep n moves (seen.insert (rep (p.applyMove n.state m))) seen' made)
    (hm : rep (p.applyMove n.state m) ∈ seen) : Grown p rep n (m :: moves) seen seen' made := by
  refine ⟨fun c hc => ?_, fun r hr => ?_, fun r hr => h.known r (Std.HashSet.mem_insert.2 (.inr hr)),
    List.forall_mem_cons.2 ⟨h.known _ Std.HashSet.mem_insert_self, h.move⟩⟩
  · obtain ⟨m', hm', hc⟩ := h.child c hc
    exact ⟨m', List.mem_cons_of_mem _ hm', hc⟩
  · refine (h.recorded r hr).imp_left fun hr => ?_
    rcases Std.HashSet.mem_insert.1 hr with heq | hr
    · exact beq_iff_eq.1 heq ▸ hm
    · exact hr

theorem cons (h : Grown p rep n moves (seen.insert (rep (p.applyMove n.state m))) seen' made) :
    Grown p rep n (m :: moves) seen seen' (sprout p n m :: made) := by
  refine ⟨List.forall_mem_cons.2 ⟨⟨m, List.mem_cons_self .., rfl⟩, fun c hc => ?_⟩, fun r hr => ?_,
    fun r hr => h.known r (Std.HashSet.mem_insert.2 (.inr hr)),
    List.forall_mem_cons.2 ⟨h.known _ Std.HashSet.mem_insert_self, h.move⟩⟩
  · obtain ⟨m', hm', hc⟩ := h.child c hc
    exact ⟨m', List.mem_cons_of_mem _ hm', hc⟩
  · rcases h.recorded r hr with hr | ⟨c, hc, hrep⟩
    · rcases Std.HashSet.mem_insert.1 hr with heq | hr
      · exact .inr ⟨_, List.mem_cons_self .., beq_iff_eq.1 heq⟩
      · exact .inl hr
    · exact .inr ⟨c, List.mem_cons_of_mem _ hc, hrep⟩

end Grown

theorem wp_explore_folded (hrecord : ∀ s, p.alreadySeen s = .record (rep s)) (n : Node S M)
    (moves : List M) (seen : Std.HashSet S) (waiting : Deque (Node S M)) (arena : Arena ω) :
    wp (explore p.toProblem n moves seen waiting)
      (fun lists after => after.stopped = arena.stopped ∧ ∃ made,
        lists.2.toList = waiting.toList ++ made ∧ Grown p rep n moves seen lists.1 made)
      Overflow arena := by
  induction moves generalizing seen waiting arena with
  | nil => exact ⟨rfl, [], (List.append_nil _).symm, .nil p rep n seen⟩
  | cons m moves ih =>
    simp only [explore, wp_bind]
    refine (wp_ask_answer _).2 (wp_countGenerated (fun count => ?_) id)
    refine (wp_inquire_of_eq p (hrecord _) seen).2 ?_
    simp only [SeenSet.insert, Bool.not_not, Std.HashSet.containsThenInsert_fst,
      Std.HashSet.containsThenInsert_snd]
    cases hknown : seen.contains (rep (p.applyMove n.state m)) with
    | true =>
      have hm := Std.HashSet.contains_iff_mem.1 hknown
      simp only [if_true, wp_bind]
      refine wp_countDuplicate (fun _ => (ih _ _ _).mono ?_) id
      rintro lists after ⟨hstopped, made, hwaiting, hmade⟩
      exact ⟨hstopped, made, hwaiting, hmade.skip hm⟩
    | false =>
      simp only [Bool.false_eq_true, if_false, wp_bind]
      refine (wp_ask_answer _).2 ((ih _ _ _).mono ?_)
      rintro lists after ⟨hstopped, made, hwaiting, hmade⟩
      refine ⟨hstopped, sprout p n m :: made, ?_, hmade.cons⟩
      rw [hwaiting, Deque.toList_pushBack, List.append_assoc]
      rfl

/-- What holds of the record and of the queue while these classes are closed, each at its depth. -/
structure Layered (p : PureProblem S M) (rep : S → S) (closed : S → Nat → Prop) (seen : Std.HashSet S)
    (waiting : List (Node S M)) : Prop where
  counted : ∀ n ∈ waiting, n.Counted p.rules
  /-- The queue is in the order of depths, and has two levels at most. -/
  sorted : waiting.Pairwise fun a b => a.depth ≤ b.depth ∧ b.depth ≤ a.depth + 1
  wave : Wavefront p rep .length Node.depth closed waiting
  /-- Each class that is recorded is closed or waits. -/
  recorded : ∀ r ∈ seen, (∃ k, closed r k) ∨ ∃ n ∈ waiting, rep n.state = r

namespace Layered

variable {seen' : Std.HashSet S} {waiting rest made : List (Node S M)} {closed : S → Nat → Prop}

theorem start (p : PureProblem S M) (rep : S → S) : Layered p rep (fun _ _ => False)
    ((∅ : Std.HashSet S).insert (rep p.initial)) [.root p.initial 0] := by
  refine ⟨fun n hn => ?_, List.pairwise_singleton _ _, .start p rep .length rfl rfl, fun r hr => ?_⟩
  · rw [List.mem_singleton.1 hn]
    exact ⟨.root _, rfl⟩
  · simp only [Std.HashSet.mem_insert, beq_iff_eq, Std.HashSet.not_mem_empty, or_false] at hr
    exact .inr ⟨_, List.mem_singleton_self _, hr⟩

/-- No node that waits is nearer than the next one. -/
theorem depth_le (h : Layered p rep closed seen (n :: rest)) {c : Node S M} (hc : c ∈ n :: rest) :
    n.depth ≤ c.depth := by
  rcases List.mem_cons.1 hc with rfl | hc
  · exact Nat.le_refl _
  · exact ((List.pairwise_cons.1 h.sorted).1 c hc).1

theorem expand (h : Layered p rep closed seen (n :: rest)) (hfolds : p.Folds rep)
    (hgoal : p.isGoal n.state = false)
    (hmade : Grown p rep n (p.legalMoves n.state) seen seen' made) :
    Layered p rep (Closing rep Node.depth n closed) seen' (rest ++ made) := by
  obtain ⟨hcounted, hsorted, hwave, hseen⟩ := h
  obtain ⟨hhead, hsorted⟩ := List.pairwise_cons.1 hsorted
  have hdepth : ∀ c ∈ made, c.depth = n.depth + 1 := by
    intro c hc
    obtain ⟨m, -, rfl⟩ := hmade.child c hc
    rfl
  have hmem : ∀ c, c ∈ rest ++ made ↔ c ∈ made ∨ c ∈ rest := fun c => by
    rw [List.mem_append, or_comm]
  -- A class that is recorded by now is closed, or it waits and is one level below at most.
  have hrecorded : ∀ r ∈ seen', (∃ k, Closing rep Node.depth n closed r k) ∨
      ∃ c ∈ rest ++ made, rep c.state = r ∧ c.depth ≤ n.depth + 1 := by
    intro r hr
    rcases hmade.recorded r hr with hr | ⟨c, hc, hrep⟩
    · rcases hseen r hr with ⟨k, hk⟩ | ⟨c, hc, hrep⟩
      · exact .inl ⟨k, .inr hk⟩
      · rcases List.mem_cons.1 hc with rfl | hc
        · exact .inl ⟨_, .inl ⟨hrep.symm, rfl⟩⟩
        · exact .inr ⟨c, (hmem c).2 (.inr hc), hrep, (hhead c hc).2⟩
    · exact .inr ⟨c, (hmem c).2 (.inl hc), hrep, Nat.le_of_eq (hdepth c hc)⟩
  refine ⟨fun c hc => ?_, ?_, hwave.expand hfolds.suits_length (.refl _) hgoal
    (fun c hc => (hhead c hc).1) hmem (fun c hc => ?_) (fun m hm => hrecorded _ (hmade.move m hm)),
    fun r hr => (hrecorded r hr).imp_right fun ⟨c, hc, hrep, _⟩ => ⟨c, hc, hrep⟩⟩
  · rcases (hmem c).1 hc with hc | hc
    · obtain ⟨m, hm, rfl⟩ := hmade.child c hc
      obtain ⟨hgenuine, hlength⟩ := hcounted n (List.mem_cons_self ..)
      refine ⟨hgenuine.child (PureProblem.step_of_mem hm) 0, ?_⟩
      rw [sprout, Node.movesFromRoot_child, List.length_append, hlength]
      rfl
    · exact hcounted c (List.mem_cons_of_mem _ hc)
  · refine List.pairwise_append.2 ⟨hsorted, ?_, fun a ha b hb => ?_⟩
    · refine List.pairwise_iff_forall_sublist.2 fun {a b} hab => ?_
      rw [hdepth a (hab.subset (by simp)), hdepth b (hab.subset (by simp))]
      exact ⟨Nat.le_refl _, Nat.le_succ _⟩
    · rw [hdepth b hb]
      have := hhead a ha
      omega
  · obtain ⟨m, hm, rfl⟩ := hmade.child c hc
    exact ⟨m, hm, rfl, rfl⟩

/-- The next node is a nearest goal if it is a goal. -/
theorem isShortest (h : Layered p rep closed seen (n :: rest)) (hfolds : p.Folds rep)
    (hgoal : p.isGoal n.state = true) : p.IsShortest n.toPath := by
  obtain ⟨hgenuine, hlength⟩ := h.counted n (List.mem_cons_self ..)
  refine ⟨⟨n.state, hgenuine, hgoal⟩, fun ms t c route ht => ?_⟩
  obtain ⟨u, k, -, ⟨o, ho, -, rfl⟩, hle⟩ :=
    h.wave.coverage.exists_open hfolds.suits_length (PureProblem.comes_length route) ht
  calc n.toPath.moves.length
    _ = n.depth := hlength
    _ ≤ o.depth := h.depth_le ho
    _ ≤ ms.length := hle

end Layered

/-- What holds of the record and of the queue between two turns. -/
structure Folded (p : PureProblem S M) (rep : S → S) (seen : Std.HashSet S) (waiting : List (Node S M)) :
    Prop where
  counted : ∀ n ∈ waiting, n.Counted p.rules
  /-- The queue is in the order of depths, and has two levels at most. -/
  sorted : waiting.Pairwise fun a b => a.depth ≤ b.depth ∧ b.depth ≤ a.depth + 1
  /-- Each class that is recorded is closed or waits. -/
  wave : ∃ closed, Wavefront p rep .length Node.depth closed waiting ∧
    ∀ r ∈ seen, (∃ k, closed r k) ∨ ∃ n ∈ waiting, rep n.state = r

namespace Folded

variable {seen' : Std.HashSet S} {waiting rest made : List (Node S M)}

theorem iff_layered : Folded p rep seen waiting ↔ ∃ closed, Layered p rep closed seen waiting :=
  ⟨fun ⟨hcounted, hsorted, closed, hwave, hseen⟩ => ⟨closed, hcounted, hsorted, hwave, hseen⟩,
    fun ⟨closed, hcounted, hsorted, hwave, hseen⟩ => ⟨hcounted, hsorted, closed, hwave, hseen⟩⟩

theorem start (p : PureProblem S M) (rep : S → S) :
    Folded p rep ((∅ : Std.HashSet S).insert (rep p.initial)) [.root p.initial 0] :=
  iff_layered.2 ⟨_, .start p rep⟩

theorem expand (h : Folded p rep seen (n :: rest)) (hfolds : p.Folds rep)
    (hgoal : p.isGoal n.state = false)
    (hmade : Grown p rep n (p.legalMoves n.state) seen seen' made) :
    Folded p rep seen' (rest ++ made) := by
  obtain ⟨closed, hlayered⟩ := iff_layered.1 h
  exact iff_layered.2 ⟨_, hlayered.expand hfolds hgoal hmade⟩

theorem isShortest (h : Folded p rep seen (n :: rest)) (hfolds : p.Folds rep)
    (hgoal : p.isGoal n.state = true) : p.IsShortest n.toPath := by
  obtain ⟨closed, hlayered⟩ := iff_layered.1 h
  exact hlayered.isShortest hfolds hgoal

end Folded

theorem wp_turn_folded (hfolds : p.Folds rep) (h : Folded p rep seen waiting.toList)
    (hopen : arena.stopped = false) :
    wp (turn .breadthFirst p.toProblem seen waiting)
      (fun result after => result.Ends (fun seen waiting after =>
        Folded p rep seen waiting.toList ∧ after.stopped = false)
        (fun goal _ => p.IsNearest (goal.map Node.toPath)) after)
      Overflow arena := by
  unfold turn
  cases ht : Discipline.breadthFirst.take? waiting with
  | none =>
    obtain ⟨-, -, closed, hwave, -⟩ := h
    rw [Deque.popFront?_eq_none ht] at hwave
    exact hwave.coverage.not_solvable hfolds.suits_length fun s ⟨ms, c, route⟩ =>
      ⟨_, PureProblem.comes_length route⟩
  | some taken =>
    obtain ⟨n, rest⟩ := taken
    rw [Deque.toList_of_popFront? ht] at h
    simp only [wp_bind, wp_isStopped, hopen, Bool.false_eq_true, if_false, Exhaustive.expand]
    refine wp_countExpanded (fun _ => ?_) id
    refine (wp_ask_answer _).2 ?_
    cases hg : p.isGoal n.state with
    | true => exact h.isShortest hfolds hg
    | false =>
      simp only [Bool.false_eq_true, if_false, wp_bind]
      refine (wp_ask_answer _).2 ((wp_explore_folded hfolds.record n _ _ _ _).mono ?_)
      rintro ⟨seen', waiting'⟩ after ⟨hstopped, made, hwaiting, hmade⟩
      refine (wp_ask_answer _).2 ⟨?_, hstopped.trans hopen⟩
      rw [hwaiting]
      exact h.expand hfolds hg hmade

/-- Breadth-first search finds a path with the fewest moves, or finds out that there is none, also if it
folds states that are alike. -/
theorem solve_folded (hfolds : p.Folds rep) (hopen : arena.stopped = false) :
    wp (solve .breadthFirst p.toProblem) (fun path _ => p.IsNearest path) Overflow arena := by
  unfold solve
  rw [wp_bind]
  refine (wp_inquire_of_eq p (hfolds.record p.initial) _).2 ?_
  rw [wp_bind]
  have hstart : Folded p rep (SeenSet.insert (∅ : Std.HashSet S) (rep p.initial)).2
      (Deque.empty.pushBack (.root p.initial 0)).toList := by
    simpa [SeenSet.insert] using Folded.start p rep
  refine (wp_run (fun _ _ _ h => wp_turn_folded hfolds h.1 h.2) ⟨hstart, hopen⟩).mono ?_
  intro goal after hgoal
  exact wp_conclude p goal fun _ => hgoal

end Exhaustive

end StateSearch
