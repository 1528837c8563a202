import StateSearch.Proofs.CutShort
import StateSearch.Proofs.Decision

/-!
# Searches in which nothing fails

If a problem answers as one of functions does, with few states, then no search of it fails, whoever else is in its
world and whenever somebody asks for a stop: it comes to a result, nobody reports a fault, and every expansion that
it counts is of another state (`Ends.unharmed`, `Solver.trySolve_unharmed`). In a pool this is so after every step
(`Pool.unharmed_follow`).
-/

namespace StateSearch

open Act StateSearch.Random LawfulFrontier

variable {ω ω' S M F ρ : Type} {view : ω → ω'} {q : PureProblem S M}

theorem PureProblem.CountsOnce.mono {rep : S → S} {count count' : Nat} (h : q.CountsOnce rep count)
    (hle : count' ≤ count) : q.CountsOnce rep count' := by
  obtain ⟨states, rfl, hnodup, hreachable⟩ := h
  refine ⟨states.take count', List.length_take_of_le hle, ?_, fun s hs => hreachable s (List.mem_of_mem_take hs)⟩
  exact hnodup.sublist ((List.take_sublist _ _).map rep)

/-- The search came to a result, without a fault, and has counted no state twice. -/
def Upshot.Unharmed (q : PureProblem S M) (upshot : Upshot ω M) : Prop :=
  ∃ path after, upshot = .ok (some path) after ∧ after.faults = [] ∧ q.CountsOnce id after.stats.expanded

theorem Act.CutShort.unharmed {act : Act ω (Option (Path M))} {arena : Arena ω} {after' : Arena ω'}
    (h : act.CutShort arena after') (hfaults : after'.faults = []) (hcount : q.CountsOnce id after'.stats.expanded) :
    Upshot.Unharmed q ((some <$> act) arena) := by
  obtain ⟨path, after, hact, hexpanded, hsame⟩ := h
  refine ⟨path, after, ?_, hsame.trans hfaults, hcount.mono hexpanded⟩
  show EStateM.map some act arena = _
  unfold EStateM.map
  rw [hact]

variable [DecidableEq S] [Hashable S] {p : Problem ω S M} {p' : Problem ω' S M} {states : List S}

/-! ### Searches without workers -/

section

variable (hp : p'.Modest q states) (h : p.Like view false p')
  (hfinished : ∀ path s tries world, (p.onFinished path s tries world).result = .ok ()) {arena : Arena ω}
  (harena : (arena.through view false).IsFresh)
include hp h hfinished harena

theorem Exhaustive.unharmed (d : Discipline) : Upshot.Unharmed q ((some <$> solve d p) arena) := by
  obtain ⟨path, final, hsolve, hfaults, -, hcount⟩ := hp.foldable.exists_exhaustive_eq harena d
  rw [← solve_eq_of_agrees hp.agrees] at hsolve
  exact (solve_of_like h hfinished hsolve).unharmed hfaults hcount

theorem BestFirst.unharmed : Upshot.Unharmed q ((some <$> solve p) arena) := by
  obtain ⟨path, final, hsolve, hfaults, -, hcount⟩ :=
    hp.foldable.exists_bestFirst_eq harena fun ns goal after hcourse _ => hp.once hcourse
  rw [← solve_eq_of_agrees hp.agrees] at hsolve
  exact (solve_of_like h hfinished hsolve).unharmed hfaults hcount

end

/-! ### Pools -/

namespace Pool

variable [Frontier F (Node S M)] {pool : Pool ω S M F ρ} {claiming : Claiming}

/-- Nothing has failed so far, and no state was counted twice. -/
structure Unharmed (q : PureProblem S M) (pool : Pool ω S M F ρ) : Prop where
  blameless : pool.Blameless
  counted : q.CountsOnce id pool.shared.expanded

variable [LawfulFrontier F (Node S M)]

theorem IsFresh.through {root : Node S M} (h : pool.IsFresh root) (view : ω → ω') :
    (pool.through view).IsFresh root :=
  ⟨h.sound, h.nodes, h.inFlight, h.outstanding, h.layer, h.closed, h.slot, h.faults, h.idle, h.waiting⟩

theorem IsFresh.blameless {root : Node S M} (h : pool.IsFresh root) : pool.Blameless := by
  refine ⟨h.faults, fun w hw n fault => ?_⟩
  rw [h.idle w hw]
  nofun

variable [Coin ρ]

theorem unharmed_follow (hp : p'.Agrees q) (hrecord : q.alreadySeen = .record) (h : p.Like view false p')
    (hwatched : (pool.through view).Watched q claiming []) (hblameless : pool.Blameless) (actors : List Actor) :
    (pool.follow p claiming actors).Unharmed q := by
  obtain ⟨actors', hfollow⟩ := exists_follow_through h pool actors
  rw [follow_eq_of_agrees hp hwatched.carries] at hfollow
  have hend := hwatched.follow hrecord actors'
  have hquiet : (pool.through view).Blameless := ⟨hblameless.faults, hblameless.blameless⟩
  obtain ⟨hfaults, hphases⟩ := hquiet.follow hrecord hwatched actors'
  have hcounted : q.CountsOnce id ((pool.through view).follow q.toProblem claiming actors').shared.expanded := by
    rw [hend.charted.expanded]
    exact .of_nodes (List.nodup_append.1 hend.charted.balanced.nodup).1 hend.reachable
  rw [← hfollow] at hfaults hphases hcounted
  exact ⟨⟨hfaults, hphases⟩, hcounted⟩

end Pool

namespace PoolSearch

variable [Coin ρ] {plan : Plan ρ} {claiming : Claiming}

/-- The pool can be set up, and is watched from the beginning. -/
structure Launches [Frontier F (Node S M)] [LawfulFrontier F (Node S M)] (view : ω → ω') (q : PureProblem S M)
    (claiming : Claiming) (prepare : Act ω (Pool ω S M F ρ)) (arena : Arena ω) : Prop where
  prepared : ∃ pool middle, prepare arena = .ok pool middle
  watched : ∀ pool middle, prepare arena = .ok pool middle → (pool.through view).Watched q claiming []
  blameless : ∀ pool middle, prepare arena = .ok pool middle → pool.Blameless

omit [Coin ρ] in
theorem Launches.of_eq [Frontier F (Node S M)] [LawfulFrontier F (Node S M)]
    {prepare : Act ω (Pool ω S M F ρ)} {arena middle : Arena ω} {pool : Pool ω S M F ρ} {remaining : Cost}
    (hprepare : prepare arena = .ok pool middle) (hfresh : pool.IsFresh (.root q.initial remaining))
    (hexpanded : pool.shared.expanded = 0)
    (hseen : ∀ s, s ∈ pool.shared.seen ↔ s ∈ claiming.states [(.root q.initial remaining : Node S M)]) :
    Launches view q claiming prepare arena := by
  refine ⟨⟨pool, middle, hprepare⟩, fun _ _ h => ?_, fun _ _ h => ?_⟩
  · cases hprepare.symm.trans h
    exact .of_isFresh (hfresh.through view) hexpanded hseen
  · cases hprepare.symm.trans h
    exact hfresh.blameless

theorem launches_concurrent (hp : p'.Modest q states) (h : p.Like view false p') (placement : Placement)
    (plan : Plan ρ) (arena : Arena ω) :
    Launches view q .whenGenerated (prepareConcurrent p placement plan) arena := by
  have hinitial : p.initial = q.initial := h.initial.symm.trans hp.agrees.initial
  have hanswer : inquire p' q.initial (∅ : Std.HashSet S) (arena.through view false) =
      .ok (false, (∅ : Std.HashSet S).insert q.initial) (arena.through view false) := by
    rw [inquire_eq_of_agrees hp.agrees ⟨_, _, .stay⟩]
    exact inquire_eq (o := .deaf) (by rw [hp.record, SeenQuery.run_record, Std.HashSet.contains_empty])
  have hinquire := Like.inquire (h.alreadySeen q.initial) (∅ : Std.HashSet S) arena
  rw [hanswer] at hinquire
  cases hasked : inquire p q.initial (∅ : Std.HashSet S) arena with
  | error fault asked =>
    rw [hasked] at hinquire
    cases hinquire
  | ok answer asked =>
    rw [hasked] at hinquire
    obtain ⟨rfl, -⟩ := EStateM.Result.ok.inj hinquire
    have hprepare : prepareConcurrent p placement plan arena =
        seeded plan { placement } (.root q.initial 0) ((∅ : Std.HashSet S).insert q.initial) asked := by
      unfold prepareConcurrent
      rw [hinitial]
      exact bind_eq hasked
    refine .of_eq hprepare (Pool.isFresh_start trivial rfl _ _ _ plan.first _) rfl fun s => ?_
    show s ∈ (∅ : Std.HashSet S).insert q.initial ↔ _
    rw [Std.HashSet.mem_insert, beq_iff_eq]
    simp [Claiming.states, Node.root, eq_comm]

theorem launches_aStar (hp : p'.Modest q states) (h : p.Like view false p') (plan : Plan ρ) (arena : Arena ω) :
    Launches view q .whenTaken (prepareAStar p plan) arena := by
  have hinitial : p.initial = q.initial := h.initial.symm.trans hp.agrees.initial
  have hanswer : ask (p'.heuristic q.initial) (arena.through view false) =
      .ok (q.heuristic q.initial) (arena.through view false) := by
    rw [hp.agrees.heuristic _ ⟨_, _, .stay⟩]
    exact ask_answer _
  have hask := Like.ask (h.heuristic q.initial) arena
  rw [hanswer] at hask
  cases hasked : ask (p.heuristic q.initial) arena with
  | error fault asked =>
    rw [hasked] at hask
    cases hask
  | ok remaining asked =>
    rw [hasked] at hask
    obtain ⟨rfl, -⟩ := EStateM.Result.ok.inj hask
    have hprepare : prepareAStar p plan arena =
        seeded plan .empty (.root q.initial (q.heuristic q.initial)) (∅ : Std.HashSet S) asked := by
      unfold prepareAStar
      rw [hinitial]
      exact bind_eq hasked
    refine .of_eq hprepare (Pool.isFresh_start OpenList.Sound.empty rfl _ _ _ plan.first _) rfl fun s => ?_
    exact iff_of_false Std.HashSet.not_mem_empty List.not_mem_nil

theorem Ends.unharmed [Frontier F (Node S M)] [LawfulFrontier F (Node S M)]
    {prepare : Act ω (Pool ω S M F ρ)} {arena : Arena ω} {outcome : Upshot ω M} (hp : p'.Modest q states)
    (h : p.Like view false p')
    (hfinished : ∀ path s tries world, (p.onFinished path s tries world).result = .ok ())
    (hlaunches : Launches view q claiming prepare arena) (hends : Ends p claiming prepare arena outcome) :
    outcome.Unharmed q := by
  cases hends with
  | unprepared hprepare =>
    obtain ⟨pool, middle, hprepared⟩ := hlaunches.prepared
    cases hprepared.symm.trans hprepare
  | @finished pool middle goal hprepare actors _ =>
    have hend := Pool.unharmed_follow hp.agrees hp.record h (hlaunches.watched _ _ hprepare)
      (hlaunches.blameless _ _ hprepare) actors
    have hfinish : wp (finish p (pool.follow p claiming actors) goal) _ _ middle := wp_finish_arena p _ goal
    unfold wp at hfinish
    cases hr : finish p (pool.follow p claiming actors) goal middle with
    | error fault after =>
      rw [hr] at hfinish
      obtain ⟨_, _, hfailed⟩ := hfinish
      rw [hfinished] at hfailed
      cases hfailed
    | ok path after =>
      rw [hr] at hfinish
      obtain ⟨-, hfaults, hexpanded⟩ := hfinish
      refine ⟨path, after, ?_, ?_, ?_⟩
      · show EStateM.map some _ middle = _
        unfold EStateM.map
        rw [hr]
      · rw [hfaults, hend.blameless.faults]
        rfl
      · rw [hexpanded]
        exact hend.counted

end PoolSearch

/-! ### All searches -/

variable (hp : p'.Modest q states) (h : p.Like view false p')
  (hfinished : ∀ path s tries world, (p.onFinished path s tries world).result = .ok ())
include hp h hfinished

/-- However a search ends, nothing has failed. -/
theorem Ends.unharmed {arena : Arena ω} (harena : (arena.through view false).IsFresh) {strategy : Strategy}
    {outcome : Upshot ω M} (hends : Ends p arena strategy outcome) : outcome.Unharmed q := by
  cases hends with
  | depthFirst => exact Exhaustive.unharmed hp h hfinished harena _
  | breadthFirst => exact Exhaustive.unharmed hp h hfinished harena _
  | aStar => exact BestFirst.unharmed hp h hfinished harena
  | concurrent hends => exact hends.unharmed hp h hfinished (PoolSearch.launches_concurrent hp h _ _ _)
  | concurrentAStar hends => exact hends.unharmed hp h hfinished (PoolSearch.launches_aStar hp h _ _)

/-- A solver answers, or gives up when its workers take too long. -/
theorem Solver.trySolve_unharmed (solver : Solver) (world : ω) (limit : Option Nat) :
    ((solver.trySolve p world limit).2.2 = .unfinished ∨
      (solver.trySolve p world limit).1.faults = [] ∧
        ∃ path, (solver.trySolve p world limit).2.2 = .answered path) ∧
    q.CountsOnce id (solver.trySolve p world limit).1.stats.expanded := by
  unfold trySolve
  rcases solver.ends_or_unfinished p limit (solver.arena world) with hends | ⟨after, hsearch, hstats⟩
  · obtain ⟨path, after, hsearch, hfaults, hcount⟩ := hends.unharmed hp h hfinished ⟨rfl, ⟨rfl, rfl, rfl⟩, rfl⟩
    rw [hsearch]
    refine ⟨.inr ⟨hfaults, path, ?_⟩, hcount⟩
    simp only [close, hfaults]
    cases path <;> rfl
  · rw [hsearch]
    refine ⟨.inl rfl, [], ?_, List.nodup_nil, List.forall_mem_nil _⟩
    show 0 = after.stats.expanded
    rw [hstats]
    rfl

end StateSearch
