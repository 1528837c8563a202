import Mathlib.Algebra.Order.BigOperators.Group.List
import StateSearch.Proofs.Course
import StateSearch.Proofs.FoldedSearch
import StateSearch.Proofs.Pool.Labour

/-!
# What a best-first search counts

With a heuristic that no move lowers by more than the move costs, nodes are expanded in the order of their
estimates (`Course.ascending`). A state that is expanded again has become cheaper, and its estimate would be
smaller than before, unless it is cut off (`Course.again`). So no state is expanded twice where estimates are
not cut off: on the way to a goal that costs less than the largest cost (`Course.nodup_of_goal`), and
wherever moves are so cheap, and states so few, that no estimate gets that far (`Course.nodup_of_budget`).
Then no counter reaches its limit, if there are not too many states (`Course.fits_of_nodup`).
-/

namespace StateSearch

/-- Fewer states make less effort. -/
theorem Rules.efforts_le_of_subperm {S M : Type} (rules : Rules S M) {states states' : List S}
    (h : states.Subperm states') : rules.efforts states ≤ rules.efforts states' := by
  obtain ⟨l, hperm, hsub⟩ := h
  rw [← Rules.efforts_perm hperm]
  exact (hsub.map rules.effort).sum_le_sum fun _ _ => Nat.zero_le _

theorem Rules.Confines.mem_of_reachable {S M : Type} {p : PureProblem S M} {rep : S → S} {states : List S}
    (h : p.rules.Confines rep states) (hinitial : p.initial ∈ states) {s : S} (hs : p.Reachable s) :
    s ∈ states := by
  obtain ⟨ms, c, route⟩ := hs
  induction route with
  | stay => exact hinitial
  | snoc _ step ih => exact h.closed _ ih _ _ step.legal step.apply

/-- Expansions that no two of are of the same state make no more effort than all states together. -/
theorem Rules.Confines.expansions_le {S M : Type} {rules : Rules S M} {rep : S → S} {states : List S}
    (h : rules.Confines rep states) {ns : List (Node S M)} (hmem : ∀ n ∈ ns, n.state ∈ states)
    (hnodup : (ns.map fun n => rep n.state).Nodup) :
    ns.length + (ns.map fun n => rules.choices n.state).sum ≤ rules.efforts states := by
  have hsub : (ns.map fun n => rep n.state) ⊆ states := by
    intro s hs
    obtain ⟨n, hn, rfl⟩ := List.mem_map.1 hs
    exact h.rep_mem _ (hmem n hn)
  calc ns.length + (ns.map fun n => rules.choices n.state).sum
    _ = (ns.map fun n => 1 + rules.choices n.state).sum := by
      rw [List.sum_map_add, List.map_const', List.sum_replicate_nat, Nat.mul_one]
    _ ≤ (ns.map fun n => rules.effort (rep n.state)).sum := by
      refine List.sum_le_sum fun n hn => ?_
      have := h.choices _ (hmem n hn)
      unfold Rules.effort
      omega
    _ = rules.efforts (ns.map fun n => rep n.state) := by
      rw [Rules.efforts, List.map_map]
      rfl
    _ ≤ rules.efforts states := rules.efforts_le_of_subperm (hnodup.subperm hsub)

/-- So many states can be reached that no two of are filed under the same. -/
def PureProblem.CountsOnce {S M : Type} (p : PureProblem S M) (rep : S → S) (count : Nat) : Prop :=
  ∃ states : List S, states.length = count ∧ (states.map rep).Nodup ∧ ∀ s ∈ states, p.Reachable s

theorem PureProblem.CountsOnce.of_nodes {S M : Type} {p : PureProblem S M} {rep : S → S} {ns : List (Node S M)}
    (hnodup : (ns.map fun n => rep n.state).Nodup) (hreachable : ∀ n ∈ ns, p.Reachable n.state) :
    p.CountsOnce rep ns.length :=
  ⟨ns.map Node.state, List.length_map _, by rwa [List.map_map], List.forall_mem_map.2 hreachable⟩

theorem PureProblem.CountsOnce.le {S M : Type} [DecidableEq S] {p : PureProblem S M} {rep : S → S} {count : Nat}
    (h : p.CountsOnce rep count) {all : List S} (hall : ∀ s, p.Reachable s → rep s ∈ all) :
    count ≤ all.length := by
  obtain ⟨states, rfl, hnodup, hreachable⟩ := h
  rw [← List.length_map (f := rep)]
  exact (hnodup.subperm (List.forall_mem_map.2 fun s hs => hall s (hreachable s hs))).length_le

namespace BestFirst

open Stats

variable {ω S M : Type} [DecidableEq S] [Hashable S] {p : PureProblem S M} {o : Observer ω S M}
  {rep : S → S} {closed : Std.HashMap S Cost} {waiting : OpenList S M} {arena after : Arena ω}
  {ns : List (Node S M)} {goal : Option (Node S M)} {states : List S}

namespace Course

/-! ### The nodes that are expanded -/

/-- What holds of the nodes that wait, and is handed down to successors, holds of all that are expanded. -/
theorem forall_of_waiting {I : Node S M → Prop}
    (hI : ∀ n, I n → ∀ m ∈ p.legalMoves n.state, I (p.successor n m))
    (h : Course p o closed waiting arena ns goal after) (hsound : waiting.Sound)
    (hwaiting : ∀ n ∈ waiting.toList, I n) : ∀ n ∈ ns, I n := by
  induction h with
  | exhausted => simp
  | found htaken => simpa using hwaiting _ (OpenList.mem_of_pop? htaken)
  | dropped htaken _ _ ih =>
    exact ih (hsound.of_pop? htaken) fun n hn => hwaiting n (OpenList.mem_of_mem_pop? htaken hn)
  | expanded htaken _ _ _ ih =>
    have hfirst := hwaiting _ (OpenList.mem_of_pop? htaken)
    refine List.forall_mem_cons.2 ⟨hfirst, ih ((hsound.of_pop? htaken).pushAll _) fun n hn => ?_⟩
    rcases mem_pushAll hsound htaken List.filter_sublist.subset hn with ⟨m, hm, rfl⟩ | hn
    · exact hI _ hfirst m hm
    · exact hwaiting n hn

theorem fair (h : Course p o closed waiting arena ns goal after) (hsound : waiting.Sound)
    (hfair : ∀ n ∈ waiting.toList, n.Fair p) : ∀ n ∈ ns, n.Fair p :=
  h.forall_of_waiting (fun _ hn _ hm => hn.successor hm) hsound hfair

/-- Nodes are expanded in the order of their estimates. -/
theorem ascending (hsteady : p.Steady) (h : Course p o closed waiting arena ns goal after)
    (hsound : waiting.Sound) (hfair : ∀ n ∈ waiting.toList, n.Fair p) :
    ns.Pairwise fun m n => m.estimate ≤ n.estimate := by
  induction h with
  | exhausted => exact .nil
  | found => exact List.pairwise_singleton _ _
  | dropped htaken _ _ ih =>
    exact ih (hsound.of_pop? htaken) fun n hn => hfair n (OpenList.mem_of_mem_pop? htaken hn)
  | @expanded closed view waiting rest arena after n ns goal htaken hnew hno_goal hnext ih =>
    have hrest := hsound.of_pop? htaken
    have hmade : successors p n view.best (p.legalMoves n.state) ⊆
        (p.legalMoves n.state).map (p.successor n) := List.filter_sublist.subset
    have hfair' := fair_pushAll hsound htaken hmade hfair
    have hlater := estimate_le_pushAll hsound htaken hmade hsteady hfair
    have hle : ∀ c ∈ ns, c.Fair p ∧ n.estimate ≤ c.estimate := by
      refine hnext.forall_of_waiting (I := fun c => c.Fair p ∧ n.estimate ≤ c.estimate) ?_
        (hrest.pushAll _) fun c hc => ⟨hfair' c hc, hlater c hc⟩
      rintro c ⟨hc, hle⟩ m hm
      exact ⟨hc.successor hm, UInt64.le_trans hle (hsteady.estimate_le_successor hc hm)⟩
    exact List.pairwise_cons.2 ⟨fun c hc => (hle c hc).2, ih (hrest.pushAll _) hfair'⟩

/-- A state is expanded again only where estimates are cut off. -/
theorem again (hfolds : p.Folds rep) (hsteady : p.Steady)
    (h : Course p o closed waiting arena ns goal after) (hsound : waiting.Sound)
    (hfair : ∀ n ∈ waiting.toList, n.Fair p) :
    ns.Pairwise fun m n => rep n.state = rep m.state → n.estimate = Cost.largest := by
  have hall := h.fair hsound hfair
  have hpairs := (h.ascending hsteady hsound hfair).and (h.cheaper hfolds.record)
  refine hpairs.imp_of_mem fun {m n} hm hn ⟨hle, hcheaper⟩ hrep => ?_
  have hrest := hfolds.heuristic _ _ (hall n hn).reachable (hall m hm).reachable hrep
  exact ((hall m hm).eq_largest (hall n hn) hrest (hcheaper hrep) hle).2

/-- The last node that is expanded is the goal. -/
theorem getLast?_eq (h : Course p o closed waiting arena ns goal after) {n : Node S M}
    (hgoal : goal = some n) : ns.getLast? = some n ∧ p.isGoal n.state = true := by
  induction h with
  | exhausted => cases hgoal
  | found _ _ hn =>
    cases hgoal
    exact ⟨rfl, hn⟩
  | dropped _ _ _ ih => exact ih hgoal
  | expanded _ _ _ _ ih =>
    obtain ⟨hlast, hn⟩ := ih hgoal
    refine ⟨?_, hn⟩
    rw [List.getLast?_cons, hlast]
    rfl

/-- Until a goal is found that costs less than the largest cost, no state is expanded twice. -/
theorem nodup_of_goal (hfolds : p.Folds rep) (hcons : p.Consistent)
    (h : Course p o closed waiting arena ns goal after) (hsound : waiting.Sound)
    (hfair : ∀ n ∈ waiting.toList, n.Fair p) {n : Node S M} (hgoal : goal = some n)
    (hcost : n.pathCost < Cost.largest) : (ns.map fun n => rep n.state).Nodup := by
  obtain ⟨hlast, hn⟩ := h.getLast?_eq hgoal
  obtain ⟨before, rfl⟩ := List.getLast?_eq_some_iff.1 hlast
  have hfinal : n.Fair p := h.fair hsound hfair n (by simp)
  have hestimate : n.estimate = n.pathCost := by
    rw [hfinal.estimate, hcons.goal _ hfinal.reachable hn, Cost.plus_zero]
  have hle : ∀ m ∈ before ++ [n], m.estimate ≤ n.estimate := by
    intro m hm
    rcases List.mem_append.1 hm with hm | hm
    · exact (List.pairwise_append.1 (h.ascending hcons.steady hsound hfair)).2.2 m hm n (by simp)
    · rw [List.mem_singleton.1 hm]
      exact UInt64.le_refl _
  refine List.pairwise_map.2 (((h.again hfolds hcons.steady hsound hfair).imp_of_mem ?_))
  intro m m' hm hm' hagain hrep
  have hlow := UInt64.lt_of_le_of_lt (hle m' hm') (hestimate ▸ hcost)
  rw [hagain hrep.symm] at hlow
  exact UInt64.lt_irrefl _ hlow

/-- After so many expansions a path has not cost more than as many moves can cost. -/
theorem pathCost_le {most base : Nat} (hmost : ∀ s m, (p.moveCost s m).toNat ≤ most)
    (h : Course p o closed waiting arena ns goal after) (hsound : waiting.Sound)
    (hwaiting : ∀ n ∈ waiting.toList, n.pathCost.toNat ≤ base) (i : Nat) (n : Node S M)
    (hn : ns[i]? = some n) : n.pathCost.toNat ≤ base + i * most := by
  induction h generalizing base i with
  | exhausted => cases hn
  | found htaken =>
    cases i with
    | zero =>
      cases hn
      simpa using hwaiting _ (OpenList.mem_of_pop? htaken)
    | succ i => cases hn
  | dropped htaken _ _ ih =>
    exact ih (hsound.of_pop? htaken) (fun c hc => hwaiting c (OpenList.mem_of_mem_pop? htaken hc)) i hn
  | @expanded closed view waiting rest arena after n' ns goal htaken _ _ _ ih =>
    have hfirst := hwaiting _ (OpenList.mem_of_pop? htaken)
    cases i with
    | zero =>
      cases hn
      omega
    | succ i =>
      have hnext : ∀ c ∈ ((successors p n' view.best (p.legalMoves n'.state)).foldl OpenList.push rest).toList,
          c.pathCost.toNat ≤ base + most := by
        intro c hc
        rcases mem_pushAll hsound htaken List.filter_sublist.subset hc with ⟨m, -, rfl⟩ | hc
        · have hm := hmost n'.state m
          simp only [PureProblem.successor, Node.pathCost_child, Cost.toNat_plus]
          omega
        · have hc := hwaiting c hc
          omega
      have hle := ih ((hsound.of_pop? htaken).pushAll _) hnext i hn
      rw [Nat.succ_mul]
      omega

/-- If moves are so cheap, and states so few, that no estimate is cut off, no state is expanded twice. -/
theorem nodup_of_budget (hfolds : p.Folds rep) (hsteady : p.Steady) {most last : Nat}
    (hmost : ∀ s m, (p.moveCost s m).toNat ≤ most) (hlast : ∀ s, (p.heuristic s).toNat ≤ last)
    (h : Course p o closed waiting arena ns goal after) (hsound : waiting.Sound)
    (hfair : ∀ n ∈ waiting.toList, n.Fair p) (hzero : ∀ n ∈ waiting.toList, n.pathCost = 0)
    (hstates : ∀ n ∈ ns, rep n.state ∈ states)
    (hbudget : states.length * most + last < Cost.largest.toNat) :
    (ns.map fun n => rep n.state).Nodup := by
  have hagain := h.again hfolds hsteady hsound hfair
  -- As long as no state was expanded twice, there were no more expansions than states.
  have hprefix : ∀ k ≤ ns.length, ((ns.take k).map fun n => rep n.state).Nodup := by
    intro k
    induction k with
    | zero => simp
    | succ k ih =>
      intro hk
      have hnodup := ih (Nat.le_of_succ_le hk)
      have hlength : k ≤ states.length := by
        have hsub : ((ns.take k).map fun n => rep n.state) ⊆ states := by
          intro s hs
          obtain ⟨n, hn, rfl⟩ := List.mem_map.1 hs
          exact hstates n (List.mem_of_mem_take hn)
        simpa [Nat.min_eq_left (Nat.le_of_succ_le hk)] using (hnodup.subperm hsub).length_le
      have hn : ns[k]? = some ns[k] := List.getElem?_eq_getElem hk
      have hlow : ns[k].estimate ≠ Cost.largest := by
        have hcost : ns[k].pathCost.toNat ≤ 0 + k * most :=
          h.pathCost_le hmost hsound (fun n hn => by rw [hzero n hn]; rfl) k _ hn
        have hrest := hlast ns[k].state
        have hmul := Nat.mul_le_mul_right most hlength
        intro heq
        have := congrArg UInt64.toNat heq
        rw [(h.fair hsound hfair _ (List.getElem_mem hk)).estimate, Cost.toNat_plus] at this
        omega
      rw [List.take_succ_eq_append_getElem hk, List.map_append, List.nodup_append]
      refine ⟨hnodup, List.nodup_singleton _, fun s hs t ht heq => hlow ?_⟩
      obtain ⟨m, hm, rfl⟩ := List.mem_map.1 hs
      have hpairs := hagain.sublist (List.take_sublist (k + 1) ns)
      rw [List.take_succ_eq_append_getElem hk] at hpairs
      refine (List.pairwise_append.1 hpairs).2.2 m hm _ (List.mem_singleton_self _) ?_
      rw [heq]
      exact (List.mem_singleton.1 ht).symm
  simpa using hprefix ns.length (Nat.le_refl _)

/-! ### The counters -/

/-- What is counted on the way. Each node that is dropped was waiting or has been generated. -/
theorem counted (h : Course p o closed waiting arena ns goal after) (hsound : waiting.Sound) :
    after.stats.generated ≤ arena.stats.generated + (ns.map fun n => p.rules.choices n.state).sum ∧
      after.stats.duplicates ≤ arena.stats.duplicates + waiting.toList.length +
        (ns.map fun n => p.rules.choices n.state).sum := by
  induction h with
  | exhausted => exact ⟨Nat.le_refl _, Nat.le_add_right _ _⟩
  | found => exact ⟨Nat.le_add_right _ _, Nat.le_trans (Nat.le_add_right _ _) (Nat.le_add_right _ _)⟩
  | @dropped closed view waiting rest arena after n ns goal htaken _ _ ih =>
    have hlength := (OpenList.toList_of_pop? htaken).length_eq
    obtain ⟨hgenerated, hduplicates⟩ := ih (hsound.of_pop? htaken)
    refine ⟨hgenerated, Nat.le_trans hduplicates ?_⟩
    show arena.stats.duplicates + 1 + _ + _ ≤ _
    rw [hlength, List.length_cons]
    omega
  | @expanded closed view waiting rest arena after n ns goal htaken _ _ _ ih =>
    have hrest := hsound.of_pop? htaken
    have hlength := (OpenList.toList_of_pop? htaken).length_eq
    have hpushed := (OpenList.toList_pushAll hrest (successors p n view.best (p.legalMoves n.state))).length_eq
    have hmade := length_successors_le p n view.best (p.legalMoves n.state)
    obtain ⟨hgenerated, hduplicates⟩ := ih (hrest.pushAll _)
    have hchoices : p.rules.choices n.state = (p.legalMoves n.state).length := rfl
    rw [List.length_append] at hpushed
    rw [List.map_cons, List.sum_cons, hchoices, hlength, List.length_cons]
    refine ⟨Nat.le_trans hgenerated ?_, Nat.le_trans hduplicates ?_⟩
    · show arena.stats.generated + _ + _ ≤ _
      omega
    · show arena.stats.duplicates + (_ - _) + _ + _ ≤ _
      omega

/-- If no state is expanded twice, no counter reaches its limit, unless there are very many states. -/
theorem fits_of_nodup (h : Course p o closed waiting arena ns goal after) (hsound : waiting.Sound)
    (hstates : p.rules.Confines rep states) (hmem : ∀ n ∈ ns, n.state ∈ states)
    (hnodup : (ns.map fun n => rep n.state).Nodup) (hstats : arena.stats.expanded = 0 ∧
      arena.stats.generated = 0 ∧ arena.stats.duplicates = 0)
    (hroom : waiting.toList.length + p.rules.efforts states < counterLimit) : after.stats.Fits := by
  have hle := hstates.expansions_le hmem hnodup
  obtain ⟨hgenerated, hduplicates⟩ := h.counted hsound
  obtain ⟨he, hg, hd⟩ := hstats
  refine ⟨?_, ?_, ?_⟩
  · rw [h.expanded_eq]
    omega
  · omega
  · omega

/-! ### The answer -/

/-- The goal that is found is a best one, and if none is found there is none. -/
theorem isOptimum (hfolds : p.Folds rep) (hcons : p.Consistent) (hfolded : Folded p rep closed waiting)
    (h : Course p o closed waiting arena ns goal after) : p.IsOptimum (goal.map Node.toPath) := by
  have hsuits := hfolds.suits_cost hcons.steady
  induction h with
  | exhausted hempty =>
    have hcover := hfolded.cover
    rw [OpenList.pop?_eq_none hempty] at hcover
    exact hcover.not_solvable hsuits fun s ⟨ms, c, route⟩ => ⟨c, PureProblem.comes_cost route⟩
  | found htaken _ hgoal =>
    exact hfolded.cover.isBest hfolds hcons hfolded.fair (OpenList.mem_of_pop? htaken) hgoal fun c hc =>
      OpenList.estimate_le_of_pop? hfolded.sound htaken hc
  | dropped htaken hknown _ ih =>
    rw [hfolds.record] at hknown
    obtain ⟨hholds, hview⟩ := eq_of_known hknown
    exact ih (hview ▸ hfolded.drop hsuits htaken hholds)
  | expanded htaken hnew hno_goal _ ih =>
    rw [hfolds.record] at hnew
    obtain ⟨hholds, hview⟩ := eq_of_new hnew
    exact ih (hview ▸ hfolded.expand hfolds hcons.steady htaken hholds hno_goal)

/-- If some solution costs less than the largest cost, no state is expanded twice before the right answer. -/
theorem nodup_of_cheap (hfolds : p.Folds rep) (hcons : p.Consistent)
    (h : Course p o ∅ (seedling p) arena ns goal after) (hright : p.IsOptimum (goal.map Node.toPath))
    {moves : List M} {cost : Cost} (hsolves : p.rules.Solves ⟨moves, cost⟩) (hcost : cost ≠ Cost.largest) :
    (ns.map fun n => rep n.state).Nodup := by
  obtain ⟨last, route, hlast⟩ := hsolves
  cases goal with
  | none => exact absurd ⟨last, ⟨_, _, route⟩, Except.ok.inj hlast⟩ hright
  | some n =>
    have I := Inv.start p
    have hle : n.pathCost ≤ cost := hright.least _ _ _ route (Except.ok.inj hlast)
    have hlt : n.pathCost < Cost.largest := by
      have hlargest := Cost.toNat_le_largest cost
      have hne : cost.toNat ≠ Cost.largest.toNat := fun heq => hcost (UInt64.toNat_inj.1 heq)
      rw [UInt64.le_iff_toNat_le] at hle
      rw [UInt64.lt_iff_toNat_lt]
      omega
    exact h.nodup_of_goal hfolds hcons I.sound I.fair rfl hlt

end Course

omit [DecidableEq S] [Hashable S] in
theorem toList_seedling (p : PureProblem S M) :
    (seedling p).toList = [.root p.initial (p.heuristic p.initial)] :=
  List.perm_singleton.1 (OpenList.toList_push .empty _)

/-- A* with a consistent heuristic comes to the right answer, if it expands no state twice and there are not
too many states. It counts each of them once. -/
theorem exists_solve_eq (hfolds : p.Folds rep) (hcons : p.Consistent) (hstates : p.rules.Confines rep states)
    (hinitial : p.initial ∈ states) (hroom : 1 + p.rules.efforts states < counterLimit)
    (hopen : arena.stopped = false) (hstats : arena.stats.expanded = 0 ∧ arena.stats.generated = 0 ∧
      arena.stats.duplicates = 0)
    (hnodup : ∀ ns goal after, Course p .deaf ∅ (seedling p) arena ns goal after →
      p.IsOptimum (goal.map Node.toPath) → (ns.map fun n => rep n.state).Nodup) :
    ∃ path final, solve p.toProblem arena = .ok path final ∧ final.faults = arena.faults ∧
      p.IsOptimum path ∧ p.CountsOnce rep final.stats.expanded := by
  have hmem : ∀ s, p.Reachable s → s ∈ states := fun s hs => hstates.mem_of_reachable hinitial hs
  have hfinite : (rep '' {s | p.Reachable s}).Finite :=
    ((List.finite_toSet states).subset fun s hs => hmem s hs).image rep
  have I := Inv.start p
  obtain ⟨ns, goal, after, hcourse⟩ := exists_course (.deaf : Observer ω S M) hfolds.record
    (fun s hs => hfinite.mem_toFinset.2 ⟨s, hs, rfl⟩) ∅ (seedling p) I.sound I.fair arena
  have hoptimum := hcourse.isOptimum hfolds hcons (.start p rep)
  have hexpanded := hcourse.fair I.sound I.fair
  have hfits := hcourse.fits_of_nodup I.sound hstates (fun n hn => hmem _ (hexpanded n hn).reachable)
    (hnodup ns goal after hcourse hoptimum) hstats (by rw [toList_seedling]; exact hroom)
  obtain ⟨final, hconclude, -⟩ := Act.exists_conclude_eq (.deaf : Observer ω S M) goal after
  have hfaults : final.faults = after.faults := (Act.Keeps.conclude_faults _ _).of_eq_ok hconclude
  have hcount : final.stats.expanded = ns.length := by
    rw [(Act.Keeps.conclude_expanded _ _).of_eq_ok hconclude, hcourse.expanded_eq, hstats.1, Nat.zero_add]
  refine ⟨_, final, ?_, hfaults.trans hcourse.faults_eq, hoptimum, ?_⟩
  · rw [← PureProblem.observed_deaf, hcourse.solve_eq hopen hfits]
    exact hconclude
  · rw [hcount]
    exact .of_nodes (hnodup ns goal after hcourse hoptimum) fun n hn => (hexpanded n hn).reachable

end BestFirst

end StateSearch
