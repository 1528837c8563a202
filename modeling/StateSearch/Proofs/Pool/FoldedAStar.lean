import StateSearch.Proofs.FoldedSearch
import StateSearch.Proofs.Pool.SingleAStar

/-!
# A single worker who folds states

A worker who claims states when their nodes are taken, and who is alone, opens no state again. If no move
lowers the heuristic by more than the move costs, this does no harm, whether or not it folds states that
are alike: a state is recorded when its node ranks least of all that wait, so whatever else leads to its
class ranks no better (`OneByOne.Folded.wave`). There are finitely many classes to record, so the search
ends, and its answer is right (`PoolSearch.single_worker_optimum`).
-/

namespace StateSearch

open StateSearch.Random

variable {ω S M ρ : Type} [DecidableEq S] [Hashable S]

namespace OneByOne

variable {p : PureProblem S M} {rep : S → S} {o : Observer ω S M} {seen : Std.HashSet S}
  {waiting rest : OpenList S M} {n : Node S M}

/-- What holds of the record and of the open list each time a node is about to be taken. -/
structure Folded (p : PureProblem S M) (rep : S → S) (seen : Std.HashSet S) (waiting : OpenList S M) :
    Prop where
  sound : waiting.Sound
  fair : ∀ n ∈ waiting.toList, n.Fair p
  /-- The states that are recorded stand for classes. -/
  keys : ∀ r ∈ seen, ∃ s, p.Reachable s ∧ rep s = r
  /-- Each class that is recorded is closed. -/
  wave : ∃ closed, Wavefront p rep p.costGauge Node.pathCost closed waiting.toList ∧
    ∀ r ∈ seen, ∃ k, closed r k

namespace Folded

theorem start (p : PureProblem S M) (rep : S → S) : Folded p rep (∅ : Std.HashSet S)
    (OpenList.empty.push (.root p.initial (p.heuristic p.initial))) := by
  have I := BestFirst.Inv.start p
  have hroot := OpenList.toList_push .empty (Node.root p.initial (p.heuristic p.initial) : Node S M)
  have hwave : Wavefront p rep p.costGauge Node.pathCost (fun _ _ => False)
      [Node.root p.initial (p.heuristic p.initial)] := .start p rep _ rfl rfl
  refine ⟨I.sound, I.fair, fun r hr => absurd hr Std.HashSet.not_mem_empty, fun _ _ => False, ?_,
    fun r hr => absurd hr Std.HashSet.not_mem_empty⟩
  rw [List.perm_singleton.1 hroot]
  exact hwave

theorem drop (h : Folded p rep seen waiting) (hsuits : p.Suits rep p.costGauge)
    (hp : waiting.pop? = some (n, rest)) (hn : rep n.state ∈ seen) :
    Folded p rep (seen.insert (rep n.state)) rest := by
  have hsame : ∀ r ∈ seen.insert (rep n.state), r ∈ seen := by
    intro r hr
    rcases Std.HashSet.mem_insert.1 hr with heq | hr
    · exact beq_iff_eq.1 heq ▸ hn
    · exact hr
  have hperm := OpenList.toList_of_pop? hp
  obtain ⟨closed, hwave, hclosed⟩ := h.wave
  obtain ⟨k, hk⟩ := hclosed _ hn
  exact ⟨h.sound.of_pop? hp, fun c hc => h.fair c (OpenList.mem_of_mem_pop? hp hc),
    fun r hr => h.keys r (hsame r hr), closed, hwave.drop hsuits hperm hk,
    fun r hr => hclosed r (hsame r hr)⟩

theorem expand (h : Folded p rep seen waiting) (hfolds : p.Folds rep) (hsteady : p.Steady)
    (hp : waiting.pop? = some (n, rest)) (hgoal : p.isGoal n.state = false) :
    Folded p rep (seen.insert (rep n.state))
      ((p.fresh (seen.insert (rep n.state)) n (p.legalMoves n.state)).foldl OpenList.push rest) := by
  set seen' := seen.insert (rep n.state) with hseen'
  set made := p.fresh seen' n (p.legalMoves n.state) with hmade
  have hperm := OpenList.toList_of_pop? hp
  have hfair := h.fair n (OpenList.mem_of_pop? hp)
  have hpush : ∀ c, c ∈ (made.foldl OpenList.push rest).toList ↔ c ∈ made ∨ c ∈ rest.toList := fun c => by
    rw [(OpenList.toList_pushAll (h.sound.of_pop? hp) made).mem_iff, List.mem_append]
  have hkeys : ∀ r ∈ seen', ∃ s, p.Reachable s ∧ rep s = r := by
    intro r hr
    rcases Std.HashSet.mem_insert.1 hr with heq | hr
    · exact ⟨n.state, hfair.reachable, beq_iff_eq.1 heq⟩
    · exact h.keys r hr
  obtain ⟨closed, hwave, hclosed⟩ := h.wave
  have hclosed' : ∀ r ∈ seen', ∃ k, Closing rep Node.pathCost n closed r k := by
    intro r hr
    rcases Std.HashSet.mem_insert.1 hr with heq | hr
    · exact ⟨_, .inl ⟨(beq_iff_eq.1 heq).symm, rfl⟩⟩
    · obtain ⟨k, hk⟩ := hclosed r hr
      exact ⟨k, .inr hk⟩
  refine ⟨(h.sound.of_pop? hp).pushAll made,
    BestFirst.fair_pushAll h.sound hp List.filter_sublist.subset h.fair, hkeys, _,
    hwave.expand (hfolds.suits_cost hsteady) hperm hgoal (fun c hc => ?_) hpush (fun c hc => ?_)
      (fun m hm => ?_), hclosed'⟩
  · have hc := OpenList.mem_of_mem_pop? hp hc
    have hle := OpenList.estimate_le_of_pop? h.sound hp hc
    rw [hfair.estimate, (h.fair c hc).estimate] at hle
    exact UInt64.le_iff_toNat_le.1 hle
  · obtain ⟨m, hm, rfl⟩ := List.mem_map.1 (List.mem_filter.1 hc).1
    exact ⟨m, hm, rfl, rfl⟩
  · cases hknown : seen'.contains (p.applyMove n.state m) with
    | true =>
      -- What is recorded as it is stands for its own class.
      have hmem := Std.HashSet.contains_iff_mem.1 hknown
      obtain ⟨s, hs, hrep⟩ := hkeys _ hmem
      have hown : rep (p.applyMove n.state m) = p.applyMove n.state m := by
        rw [← hrep, hfolds.rep_rep s hs]
      rw [hown]
      exact .inl (hclosed' _ hmem)
    | false =>
      refine .inr ⟨p.successor n m, (hpush _).2 (.inl ?_), rfl, Nat.le_refl _⟩
      refine List.mem_filter.2 ⟨List.mem_map_of_mem hm, ?_⟩
      simp only [PureProblem.successor, Node.state_child, hknown, Bool.not_false]

theorem isBest (h : Folded p rep seen waiting) (hfolds : p.Folds rep) (hcons : p.Consistent)
    (hp : waiting.pop? = some (n, rest)) (hgoal : p.isGoal n.state = true) : p.IsBest n.toPath := by
  obtain ⟨closed, hwave, -⟩ := h.wave
  exact hwave.coverage.isBest hfolds hcons h.fair (OpenList.mem_of_pop? hp) hgoal fun c hc =>
    OpenList.estimate_le_of_pop? h.sound hp hc

theorem not_solvable (h : Folded p rep seen waiting) (hfolds : p.Folds rep) (hsteady : p.Steady)
    (hp : waiting.pop? = none) : ¬ p.Solvable := by
  obtain ⟨closed, hwave, -⟩ := h.wave
  rw [OpenList.pop?_eq_none hp] at hwave
  exact hwave.coverage.not_solvable (hfolds.suits_cost hsteady) fun s ⟨ms, c, route⟩ =>
    ⟨c, PureProblem.comes_cost route⟩

end Folded

theorem filter_unseen_insert (classes : Finset S) (seen : Std.HashSet S) (r : S) :
    classes.filter (· ∉ seen.insert r) = (classes.filter (· ∉ seen)).erase r := by
  ext s
  simp only [Finset.mem_filter, Finset.mem_erase, Std.HashSet.mem_insert, beq_iff_eq, not_or,
    eq_comm (a := r)]
  exact and_left_comm

/-- The search comes to an end, and its answer is right. -/
theorem exists_optimum (o : Observer ω S M) (hfolds : p.Folds rep) (hcons : p.Consistent)
    {classes : Finset S} (hclasses : ∀ s, p.Reachable s → rep s ∈ classes) {seen : Std.HashSet S}
    {waiting : OpenList S M} (h : Folded p rep seen waiting) (arena : Arena ω) :
    ∃ goal after, OneByOne p o seen waiting arena goal after ∧ p.IsOptimum (goal.map Node.toPath) := by
  match hp : waiting.pop? with
  | none => exact ⟨none, arena, .exhausted hp, h.not_solvable hfolds hcons.steady hp⟩
  | some (n, rest) =>
    have hrun : (p.alreadySeen n.state).run seen =
        (.ok (seen.contains (rep n.state)), seen.insert (rep n.state)) := by
      rw [hfolds.record]
      exact SeenQuery.run_record _ seen
    have hclass := hclasses _ (h.fair n (OpenList.mem_of_pop? hp)).reachable
    match hknown : seen.contains (rep n.state), hgoal : p.isGoal n.state with
    | true, _ =>
      rw [hknown] at hrun
      have hfolded := h.drop (hfolds.suits_cost hcons.steady) hp (Std.HashSet.contains_iff_mem.1 hknown)
      obtain ⟨goal, after, hnext, hright⟩ :=
        exists_optimum o hfolds hcons hclasses hfolded (arena.tally 0 0 1)
      exact ⟨goal, after, .dropped hp hrun hnext, hright⟩
    | false, true =>
      rw [hknown] at hrun
      exact ⟨some n, _, .found hp hrun hgoal, h.isBest hfolds hcons hp hgoal⟩
    | false, false =>
      rw [hknown] at hrun
      have hfolded := h.expand hfolds hcons.steady hp hgoal
      obtain ⟨goal, after, hnext, hright⟩ := exists_optimum o hfolds hcons hclasses hfolded
        (arena.expanded p o (seen.insert (rep n.state)) n)
      exact ⟨goal, after, .expanded hp hrun hgoal hnext, hright⟩
-- Either there is one class less to be recorded, or one node less that waits.
termination_by ((classes.filter (· ∉ seen)).card, waiting.toList.length)
decreasing_by
  · have hseen := Std.HashSet.contains_iff_mem.1 hknown
    have hdone : rep n.state ∉ classes.filter (· ∉ seen) := by
      simp only [Finset.mem_filter, hseen, not_true, and_false, not_false_iff]
    rw [filter_unseen_insert, Finset.erase_eq_of_notMem hdone, (OpenList.toList_of_pop? hp).length_eq]
    exact Prod.Lex.right _ (Nat.lt_succ_self _)
  · have hunseen : rep n.state ∉ seen := fun hmem => by
      rw [Std.HashSet.contains_iff_mem.2 hmem] at hknown
      cases hknown
    rw [filter_unseen_insert]
    exact Prod.Lex.left _ _ (Finset.card_erase_lt_of_mem (Finset.mem_filter.2 ⟨hclass, hunseen⟩))

end OneByOne

namespace PoolSearch

variable {p : PureProblem S M} {rep : S → S} {world : ω}

/-- With a consistent heuristic and finitely many reachable states, a search with one worker that claims
states when they are taken finds a best path, or finds out that there is none, also if it folds states that
are alike. -/
theorem single_worker_optimum (hfolds : p.Folds rep) (hcons : p.Consistent)
    (hfinite : {s | p.Reachable s}.Finite) (seed : UInt64) :
    ∃ pool middle path final, prepareAStar p.toProblem (.ofSeed 1 seed)
        { world, stats := { workers := 1 } } = .ok pool middle ∧
      Lands p.toProblem .whenTaken pool middle path final ∧ p.IsOptimum path := by
  have hclasses : ∀ s, p.Reachable s → rep s ∈ hfinite.toFinset.image rep := fun s hs =>
    Finset.mem_image_of_mem rep (hfinite.mem_toFinset.2 hs)
  obtain ⟨goal, after, hsearch, hright⟩ := OneByOne.exists_optimum .deaf hfolds hcons hclasses
    (.start p rep) ({ world, stats := { workers := 1 } } : Arena ω)
  have hconclude : Act.conclude (p.observed .deaf) goal after =
      .ok (goal.map Node.toPath) _ := rfl
  obtain ⟨pool, middle, hprepare, hlands⟩ := hsearch.lands (.ofSeed 1 seed) rfl hconclude
  exact ⟨pool, middle, _, _, hprepare, hlands, hright⟩

end PoolSearch

end StateSearch
