import StateSearch.Proofs.BestFirst
import StateSearch.Proofs.Endings
import StateSearch.Proofs.Exhaustive
import Mathlib.Tactic.Simps.Basic

/-!
# Problems that are alike in another world

Two problems in different worlds are alike if one of them is what is seen of the other when only a part of its
world is looked at: they answer all calls in the same way (`Problem.Like`). Then a search of the one is what is
seen of the search of the other (`Act.Like`), with or without workers (`Exhaustive.solve_like`,
`BestFirst.solve_like`, `Pool.follow_through`, `Ends.exists_of_like`, `Solver.trySolve_through`).

What is seen may do without the stop flag. Then the work on a single node still is the same in both
(`Exhaustive.expand_like`, `BestFirst.claim_like`), but not when the search ends.
-/

namespace StateSearch

open StateSearch.Random

variable {ω ω' S M F ρ σ τ α β : Type} {view : ω → ω'} {flagged : Bool}

/-- What is seen of an arena: a part of the world, and the flag if it is looked at. -/
def Arena.through (view : ω → ω') (flagged : Bool) (arena : Arena ω) : Arena ω' where
  world := view arena.world
  stopped := flagged && arena.stopped
  stats := arena.stats
  faults := arena.faults

/-- The second call is what is seen of the first. -/
def Call.Like (view : ω → ω') (flagged : Bool) (call : Call ω α) (call' : Call ω' α) : Prop :=
  ∀ world, call' (view world) =
    ⟨view (call world).world, flagged && (call world).raisesStop, (call world).result⟩

/-- The second problem is what is seen of the first. -/
structure Problem.Like (view : ω → ω') (flagged : Bool) (p : Problem ω S M) (p' : Problem ω' S M) : Prop where
  initial : p'.initial = p.initial
  isGoal : ∀ s, (p.isGoal s).Like view flagged (p'.isGoal s)
  legalMoves : ∀ s, (p.legalMoves s).Like view flagged (p'.legalMoves s)
  applyMove : ∀ s m, (p.applyMove s m).Like view flagged (p'.applyMove s m)
  moveCost : ∀ s m, (p.moveCost s m).Like view flagged (p'.moveCost s m)
  alreadySeen : ∀ s, (p.alreadySeen s).Like view flagged (p'.alreadySeen s)
  heuristic : ∀ s, (p.heuristic s).Like view flagged (p'.heuristic s)
  onProgress : ∀ s tries, (p.onProgress s tries).Like view flagged (p'.onProgress s tries)
  onFinished : ∀ path s tries, (p.onFinished path s tries).Like view flagged (p'.onFinished path s tries)
  pace : p'.pace = p.pace

namespace Act

/-- What is seen of what an act comes to. -/
def through (view : ω → ω') (flagged : Bool) :
    EStateM.Result Fault (Arena ω) α → EStateM.Result Fault (Arena ω') α
  | .ok value arena => .ok value (arena.through view flagged)
  | .error fault arena => .error fault (arena.through view flagged)

section

variable {result : EStateM.Result Fault (Arena ω) α} {after' : Arena ω'}

theorem through_eq_ok {value : α} (h : through view flagged result = .ok value after') :
    ∃ after, result = .ok value after ∧ after' = after.through view flagged := by
  cases result with
  | ok value after =>
    cases h
    exact ⟨after, rfl, rfl⟩
  | error fault after => cases h

theorem through_eq_error {fault : Fault} (h : through view flagged result = .error fault after') :
    ∃ after, result = .error fault after ∧ after' = after.through view flagged := by
  cases result with
  | ok value after => cases h
  | error fault after =>
    cases h
    exact ⟨after, rfl, rfl⟩

end

/-- The second act is what is seen of the first. -/
def Like (view : ω → ω') (flagged : Bool) (act : Act ω α) (act' : Act ω' α) : Prop :=
  ∀ arena, through view flagged (act arena) = act' (arena.through view flagged)

namespace Like

theorem pure (value : α) : Like view flagged (Pure.pure value) (Pure.pure value) := fun _ => rfl

theorem throw (fault : Fault) :
    Like view flagged (MonadExcept.throw fault : Act ω α) (MonadExcept.throw fault) := fun _ => rfl

theorem bind {act : Act ω α} {act' : Act ω' α} {next : α → Act ω β} {next' : α → Act ω' β}
    (h : Like view flagged act act') (hn : ∀ value, Like view flagged (next value) (next' value)) :
    Like view flagged (act >>= next) (act' >>= next') := by
  intro arena
  have ha := h arena
  show through view flagged (EStateM.bind act next arena) =
    EStateM.bind act' next' (arena.through view flagged)
  unfold EStateM.bind
  rw [← ha]
  cases act arena with
  | ok value after => exact hn value after
  | error fault after => rfl

theorem ask {call : Call ω α} {call' : Call ω' α} (h : call.Like view flagged call') :
    Like view flagged (Act.ask call) (Act.ask call') := by
  intro arena
  simp only [Act.ask, Arena.through, h arena.world]
  cases (call arena.world).result <;> simp [through, Arena.through, Bool.and_or_distrib_left]

theorem inquire [SeenSet σ S] {p : Problem ω S M} {p' : Problem ω' S M} {s : S}
    (h : (p.alreadySeen s).Like view flagged (p'.alreadySeen s)) (seen : σ) :
    Like view flagged (Act.inquire p s seen) (Act.inquire p' s seen) := by
  refine bind (ask h) fun query => ?_
  split
  · exact pure _
  · exact throw _

theorem isStopped : Like view true (Act.isStopped : Act ω Bool) Act.isStopped := fun _ => rfl

theorem countExpanded : Like view flagged (Act.countExpanded : Act ω Nat) Act.countExpanded := by
  intro arena
  simp only [Act.countExpanded, Arena.through]
  cases Stats.increment arena.stats.expanded <;> rfl

theorem countGenerated : Like view flagged (Act.countGenerated : Act ω Unit) Act.countGenerated := by
  intro arena
  simp only [Act.countGenerated, Arena.through]
  cases Stats.increment arena.stats.generated <;> rfl

theorem countDuplicate : Like view flagged (Act.countDuplicate : Act ω Unit) Act.countDuplicate := by
  intro arena
  simp only [Act.countDuplicate, Arena.through]
  cases Stats.increment arena.stats.duplicates <;> rfl

theorem map (f : α → β) {act : Act ω α} {act' : Act ω' α} (h : Like view flagged act act') :
    Like view flagged (f <$> act) (f <$> act') := by
  rw [map_eq_pure_bind, map_eq_pure_bind]
  exact h.bind fun value => .pure _

end Like

end Act

open Act

variable {p : Problem ω S M} {p' : Problem ω' S M}

theorem Act.conclude_like (h : p.Like view flagged p') (goal : Option (Node S M)) :
    Like view flagged (conclude p goal) (conclude p' goal) := by
  intro arena
  have hask := h.onFinished (goal.map Node.toPath) (goal.elim p.initial Node.state) arena.stats.expanded
  have hlike : Like view flagged _ _ :=
    (Like.ask hask).bind fun _ => Like.pure (goal.map Node.toPath)
  refine (hlike { arena with stats := { arena.stats with cost := (goal.map Node.toPath).map Path.cost } }).trans ?_
  show _ = conclude p' goal _
  unfold conclude
  rw [h.initial]
  rfl

/-! ### Searches that take turns -/

/-- The second search is what is seen of the first. -/
structure TurnTaking.Like (view : ω → ω') (flagged : Bool) (search : TurnTaking p σ τ)
    (search' : TurnTaking p' σ τ) : Prop where
  start : Act.Like view flagged search.start search'.start
  take? : search'.take? = search.take?
  hand : ∀ n lists, Act.Like view flagged (search.hand n lists) (search'.hand n lists)
  exhausted : search'.exhausted = search.exhausted
  stopped : search'.stopped = search.stopped
  next : search'.next = search.next

namespace TurnTaking.Like

variable {search : TurnTaking p σ τ} {search' : TurnTaking p' σ τ} (h : search.Like view true search')
include h

theorem turn (lists : σ) : Act.Like view true (search.turn lists) (search'.turn lists) := by
  rw [search.turn_eq, search'.turn_eq, takeTurn, takeTurn, h.take?, h.exhausted, h.stopped]
  cases search.take? lists with
  | none => exact .pure _
  | some taken =>
    refine .bind .isStopped fun stopped => ?_
    cases stopped
    · exact h.hand _ _
    · exact .pure _

theorem run (lists : σ) : Act.Like view true (search.run lists) (search'.run lists) := by
  intro arena
  induction hr : search.room arena using Nat.strongRecOn generalizing lists arena with
  | _ _ ih =>
    have hturn := h.turn lists arena
    cases ht : search.turn lists arena with
    | error fault after =>
      rw [ht] at hturn
      rw [run_of_turn_error ht, run_of_turn_error hturn.symm]
      rfl
    | ok result after =>
      rw [ht] at hturn
      rw [run_of_turn ht, run_of_turn hturn.symm, h.next]
      cases hnext : search.next result with
      | inl goal => rfl
      | inr rest => exact ih _ (hr ▸ search.room_of_turn ht hnext) rest after rfl

theorem solve (hp : p.Like view true p') : Act.Like view true search.solve search'.solve := by
  rw [search.solve_eq, search'.solve_eq]
  exact .bind h.start fun lists => .bind (h.run lists) fun goal => conclude_like hp goal

end TurnTaking.Like

variable [DecidableEq S] [Hashable S]

/-! ### Exhaustive search -/

namespace Exhaustive

theorem explore_like (h : p.Like view flagged p') (n : Node S M) (moves : List M) (seen : Std.HashSet S)
    (waiting : Deque (Node S M)) :
    Like view flagged (explore p n moves seen waiting) (explore p' n moves seen waiting) := by
  induction moves generalizing seen waiting with
  | nil => exact .pure _
  | cons m rest ih =>
    refine .bind (.ask (h.applyMove _ _)) fun t => .bind .countGenerated fun _ => ?_
    refine .bind (.inquire (h.alreadySeen _) _) fun (known, seen) => ?_
    cases known
    · exact .bind (.ask (h.moveCost _ _)) fun c => ih _ _
    · exact .bind .countDuplicate fun _ => ih _ _

theorem expand_like (h : p.Like view flagged p') (n : Node S M) (seen : Std.HashSet S)
    (waiting : Deque (Node S M)) :
    Like view flagged (expand p n seen waiting) (expand p' n seen waiting) := by
  refine .bind .countExpanded fun tries => .bind (.ask (h.isGoal _)) fun reached => ?_
  cases reached
  · refine .bind (.ask (h.legalMoves _)) fun moves => .bind (explore_like h _ _ _ _) fun lists => ?_
    exact .bind (.ask (h.onProgress _ _)) fun _ => .pure _
  · exact .pure _

theorem turnTaking_like (h : p.Like view flagged p') (d : Discipline) :
    (turnTaking d p).Like view flagged (turnTaking d p') where
  start := by
    show Like view flagged (inquire p p.initial _ >>= _) (inquire p' p'.initial _ >>= _)
    rw [h.initial]
    exact .bind (.inquire (h.alreadySeen _) _) fun _ => .pure _
  take? := rfl
  hand n lists := expand_like h n lists.1 lists.2
  exhausted := rfl
  stopped := rfl
  next := rfl

theorem solve_like (h : p.Like view true p') (d : Discipline) : Like view true (solve d p) (solve d p') :=
  (turnTaking_like h d).solve h

end Exhaustive

/-! ### Best-first search -/

namespace BestFirst

theorem explore_like (h : p.Like view flagged p') (n : Node S M) (closed : Std.HashMap S Cost) (moves : List M)
    (waiting : OpenList S M) :
    Like view flagged (explore p n closed moves waiting) (explore p' n closed moves waiting) := by
  induction moves generalizing waiting with
  | nil => exact .pure _
  | cons m rest ih =>
    refine .bind (.ask (h.applyMove _ _)) fun t => .bind .countGenerated fun _ => ?_
    refine .bind (.ask (h.moveCost _ _)) fun c => ?_
    split
    · exact .bind .countDuplicate fun _ => ih _
    · exact .bind (.ask (h.heuristic _)) fun _ => ih _

theorem claim_like (h : p.Like view flagged p') (n : Node S M) (closed : Std.HashMap S Cost)
    (waiting : OpenList S M) :
    Like view flagged (claim p n closed waiting) (claim p' n closed waiting) := by
  refine .bind (.inquire (h.alreadySeen _) _) fun (known, closed) => ?_
  cases known
  · refine .bind .countExpanded fun tries => .bind (.ask (h.isGoal _)) fun reached => ?_
    cases reached
    · refine .bind (.ask (h.legalMoves _)) fun moves => .bind (explore_like h _ _ _ _) fun waiting => ?_
      exact .bind (.ask (h.onProgress _ _)) fun _ => .pure _
    · exact .pure _
  · exact .bind .countDuplicate fun _ => .pure _

theorem turnTaking_like (h : p.Like view flagged p') : (turnTaking p).Like view flagged (turnTaking p') where
  start := by
    show Like view flagged (ask (p.heuristic p.initial) >>= _) (ask (p'.heuristic p'.initial) >>= _)
    rw [h.initial]
    exact .bind (.ask (h.heuristic _)) fun _ => .pure _
  take? := rfl
  hand n lists := claim_like h n lists.1 lists.2
  exhausted := rfl
  stopped := rfl
  next := rfl

theorem solve_like (h : p.Like view true p') : Like view true (solve p) (solve p') :=
  (turnTaking_like h).solve h

end BestFirst

/-! ### Pools -/

/-- What is seen of what the workers share. -/
@[simps]
def Shared.through (view : ω → ω') (shared : Shared ω S M F) : Shared ω' S M F where
  world := view shared.world
  stopped := shared.stopped
  queue := shared.queue
  seen := shared.seen
  slot := shared.slot
  faults := shared.faults
  expanded := shared.expanded
  generated := shared.generated
  duplicates := shared.duplicates

/-- What is seen of a pool. -/
def Pool.through (view : ω → ω') (pool : Pool ω S M F ρ) : Pool ω' S M F ρ where
  shared := pool.shared.through view
  workers := pool.workers
  waiting := pool.waiting

/-- The stop flag is raised, or left alone. -/
def Shared.raise (raised : Bool) (shared : Shared ω S M F) : Shared ω S M F :=
  { shared with stopped := shared.stopped || raised }

@[simp] theorem Shared.raise_false (shared : Shared ω S M F) : shared.raise false = shared := by
  simp only [raise, Bool.or_false]

namespace Stage

variable {claiming : Claiming} {n : Node S M} {shared : Shared ω S M F}

/-- The second step is what is seen of the first, which may also raise the flag if that is not looked at. -/
def Like (view : ω → ω') (flagged : Bool) (result : Progress S M × Shared ω S M F)
    (result' : Progress S M × Shared ω' S M F) : Prop :=
  result'.1 = result.1 ∧ ∃ raised, (flagged = true → raised = false) ∧
    result.2.through view = result'.2.raise raised

theorem Like.of_eq {result : Progress S M × Shared ω S M F} {result' : Progress S M × Shared ω' S M F}
    (hprogress : result'.1 = result.1) (hshared : result'.2 = result.2.through view) :
    Like view flagged result result' :=
  ⟨hprogress, false, fun _ => rfl, by rw [hshared, Shared.raise_false]⟩

theorem calling_like {call : Call ω α} {call' : Call ω' α} (h : call.Like view flagged call')
    (onward : α → Progress S M) :
    Like view flagged (calling call shared onward) (calling call' (shared.through view) onward) := by
  have hasked : (shared.ask call).2.through view =
      ((shared.through view).ask call').2.raise (!flagged && (call shared.world).raisesStop) := by
    simp only [Shared.ask, Shared.through, Shared.raise, h shared.world]
    cases flagged <;> cases (call shared.world).raisesStop <;> simp
  have hresult : ((shared.through view).ask call').1 = (shared.ask call).1 :=
    congrArg Reply.result (h shared.world)
  unfold calling
  generalize shared.ask call = asked at hasked hresult
  generalize (shared.through view).ask call' = asked' at hasked hresult
  obtain ⟨result, after⟩ := asked
  obtain ⟨result', after'⟩ := asked'
  obtain rfl : result' = result := hresult
  cases result' <;> exact ⟨rfl, _, fun hf => by rw [hf]; rfl, hasked⟩

theorem converse_like (query : SeenQuery S) (continued : SeenQuery S → Progress S M)
    (known absent : Progress S M) :
    Like view flagged (converse query shared continued known absent)
      (converse query (shared.through view) continued known absent) := by
  cases query with
  | answer known => cases known <;> exact .of_eq rfl rfl
  | _ => exact .of_eq rfl rfl

theorem step_like (h : p.Like view flagged p') (stage : Stage S M) :
    Like view flagged (stage.step p claiming n shared) (stage.step p' claiming n (shared.through view)) := by
  cases stage with
  | claim => exact calling_like (h.alreadySeen _) _
  | test => exact calling_like (h.isGoal _) _
  | list => exact calling_like (h.legalMoves _) _
  | apply => exact calling_like (h.applyMove _ _) _
  | screen => exact calling_like (h.alreadySeen _) _
  | price => exact calling_like (h.moveCost _ _) _
  | estimate => exact calling_like (h.heuristic _) _
  | report => exact calling_like (h.onProgress _ _) _
  | claimBy | screenBy => exact converse_like _ _ _ _
  | drop | count | lookAtFlag | lookAtStop | generate | discard => exact .of_eq rfl rfl

end Stage

namespace Pool

/-- The stop flag is raised, or left alone. -/
def raise (raised : Bool) (pool : Pool ω S M F ρ) : Pool ω S M F ρ :=
  { pool with shared := pool.shared.raise raised }

@[simp] theorem raise_false (pool : Pool ω S M F ρ) : pool.raise false = pool := by
  simp only [raise, Shared.raise_false]

variable [Frontier F (Node S M)] [Coin ρ] {claiming : Claiming}

/-- The second step of a worker is what is seen of the first, but for the flag. -/
theorem stepWorker_like (h : p.Like view flagged p') (claiming : Claiming) (index : Nat) (w : Worker S M ρ)
    (shared : Shared ω S M F) : ∃ raised, (flagged = true → raised = false) ∧
      (stepWorker p claiming index w shared).map (fun next => (next.1, next.2.through view)) =
        (stepWorker p' claiming index w (shared.through view)).map fun next => (next.1, next.2.raise raised) := by
  obtain ⟨phase, coin⟩ := w
  cases phase with
  | working n stage =>
    have hlike : Stage.Like view flagged (stage.step p claiming n shared) _ := Stage.step_like h stage
    obtain ⟨hprogress, raised, hflagged, hshared⟩ := hlike
    refine ⟨raised, hflagged, ?_⟩
    simp only [stepWorker, Option.map_some, hprogress, hshared]
  | idle =>
    refine ⟨false, fun _ => rfl, ?_⟩
    simp only [stepWorker, Shared.through_queue, Shared.through_stopped, Shared.raise_false]
    cases shared.queue.take shared.stopped <;> rfl
  | complete n children =>
    refine ⟨false, fun _ => rfl, ?_⟩
    simp only [stepWorker, Shared.through_queue, Shared.raise_false]
    cases shared.queue.complete children coin <;> rfl
  | _ =>
    refine ⟨false, fun _ => rfl, ?_⟩
    simp only [Shared.raise_false]
    rfl

/-- The second step of an actor is what is seen of the first, but for the flag. -/
theorem step_like (h : p.Like view flagged p') (claiming : Claiming) (pool : Pool ω S M F ρ) (actor : Actor) :
    ∃ raised, (flagged = true → raised = false) ∧
      (pool.step p claiming actor).map (·.through view) =
        ((pool.through view).step p' claiming actor).map (·.raise raised) := by
  obtain ⟨shared, workers, waiting⟩ := pool
  cases actor with
  | worker index =>
    cases hw : workers[index]? with
    | none => exact ⟨false, fun _ => rfl, by simp only [step, through, hw]; rfl⟩
    | some w =>
      obtain ⟨raised, hflagged, hstep⟩ := stepWorker_like h claiming index w shared
      refine ⟨raised, hflagged, ?_⟩
      have hset := congrArg (Option.map fun next : Worker S M ρ × Shared ω' S M F =>
        (⟨next.2, workers.set index next.1, waiting⟩ : Pool ω' S M F ρ)) hstep
      rw [Option.map_map, Option.map_map] at hset
      simp only [step, through, hw, Option.bind_eq_bind, Option.bind_some]
      cases hown : stepWorker p claiming index w shared <;>
        cases hseen : stepWorker p' claiming index w (shared.through view) <;>
        rw [hown, hseen] at hset <;> exact hset
  | waiter =>
    refine ⟨false, fun _ => rfl, ?_⟩
    have hwaiting : stepWaiting waiting (shared.through view) =
        (stepWaiting waiting shared).map fun next => (next.1, next.2.through view) := by
      cases waiting with
      | poll =>
        simp only [stepWaiting, Shared.through_slot]
        cases shared.slot.resolution? <;> rfl
      | _ => rfl
    simp only [through, step, hwaiting, raise, Shared.raise_false]
    cases stepWaiting waiting shared <;> rfl
  | outsider => exact ⟨false, fun _ => rfl, by simp only [step, through, raise, Shared.raise_false]; rfl⟩

theorem step_through (h : p.Like view true p') (pool : Pool ω S M F ρ) (actor : Actor) :
    (pool.through view).step p' claiming actor = (pool.step p claiming actor).map (·.through view) := by
  obtain ⟨raised, hflagged, hstep⟩ := step_like h claiming pool actor
  rw [hstep, hflagged rfl]
  simp only [raise_false, Option.map_id']

/-- If the flag is not looked at, then somebody outside may raise it when a call does. -/
theorem exists_follow_through (h : p.Like view false p') (pool : Pool ω S M F ρ) (actors : List Actor) :
    ∃ actors', (pool.follow p claiming actors).through view =
      (pool.through view).follow p' claiming actors' := by
  induction actors generalizing pool with
  | nil => exact ⟨[], rfl⟩
  | cons actor actors ih =>
    obtain ⟨raised, -, hstep⟩ := step_like h claiming pool actor
    obtain ⟨actors', hrest⟩ := ih ((pool.step p claiming actor).getD pool)
    have hmove : ∃ moved, ((pool.step p claiming actor).getD pool).through view =
        (pool.through view).follow p' claiming moved := by
      cases hown : pool.step p claiming actor with
      | none => exact ⟨[], rfl⟩
      | some next =>
        cases hseen : (pool.through view).step p' claiming actor with
        | none => rw [hown, hseen] at hstep; cases hstep
        | some next' =>
          rw [hown, hseen] at hstep
          have hnext : next.through view = next'.raise raised := Option.some.inj hstep
          cases raised with
          | false =>
            refine ⟨[actor], ?_⟩
            simp only [follow, List.foldl_cons, List.foldl_nil, hseen, Option.getD_some]
            exact hnext.trans next'.raise_false
          | true =>
            have hraised : next'.step p' claiming .outsider = some (next'.raise true) := by
              simp only [step, raise, Shared.raise, Bool.or_true]
            refine ⟨[actor, .outsider], ?_⟩
            simp only [follow, List.foldl_cons, List.foldl_nil, hseen, Option.getD_some, hraised]
            exact hnext
    obtain ⟨moved, hmoved⟩ := hmove
    refine ⟨moved ++ actors', ?_⟩
    rw [follow_append, ← hmoved]
    exact hrest

theorem follow_through (h : p.Like view true p') (pool : Pool ω S M F ρ) (actors : List Actor) :
    (pool.through view).follow p' claiming actors = (pool.follow p claiming actors).through view := by
  induction actors generalizing pool with
  | nil => rfl
  | cons actor actors ih =>
    show (((pool.through view).step p' claiming actor).getD (pool.through view)).follow p' claiming actors =
      (((pool.step p claiming actor).getD pool).follow p claiming actors).through view
    rw [step_through h, ← ih]
    cases pool.step p claiming actor <;> rfl

omit [Coin ρ] in
theorem nextOf_through (view : ω → ω') (shared : Shared ω S M F) (now index : Nat)
    (workers : List (Worker S M ρ)) (due : List Nat) :
    nextOf (shared.through view) now index workers due = nextOf shared now index workers due := by
  induction workers generalizing index due with
  | nil => rfl
  | cons w workers ih =>
    cases due with
    | nil => rfl
    | cons first due =>
      simp only [nextOf, ih]
      rfl

theorem drive_through (h : p.Like view true p') (limit : Option Nat) (steps : Nat) (table : Timetable)
    (pool : Pool ω S M F ρ) : (pool.through view).drive p' claiming limit steps table =
      (pool.drive p claiming limit steps table).map (·.through view) := by
  induction steps generalizing pool table with
  | zero => rfl
  | succ steps ih =>
    have hnext : (pool.through view).next? table = pool.next? table := by
      unfold next?
      rw [show (pool.through view).shared = pool.shared.through view from rfl, nextOf_through]
      rfl
    rw [drive, drive, hnext]
    cases pool.next? table with
    | none => rfl
    | some picked =>
      obtain ⟨actor, time⟩ := picked
      simp only [step_through h]
      split
      · rfl
      · cases pool.step p claiming actor with
        | none => rfl
        | some next =>
          rw [h.pace] at *
          exact ih _ next

end Pool

namespace PoolSearch

variable [Coin ρ]

omit [Coin ρ] in
theorem finish_like (h : p.Like view true p') (pool : Pool ω S M F ρ) (goal : Option (Node S M)) :
    Like view true (finish p pool goal) (finish p' (pool.through view) goal) :=
  .bind (fun _ => rfl) fun _ => conclude_like h goal

theorem run_like [Frontier F (Node S M)] (h : p.Like view true p') (claiming : Claiming) (limit : Option Nat)
    (pool : Pool ω S M F ρ) :
    Like view true (run p claiming limit pool) (run p' claiming limit (pool.through view)) := by
  unfold run
  rw [show (pool.through view).workers = pool.workers from rfl, Pool.drive_through h]
  cases pool.drive p claiming limit stepLimit _ with
  | none => exact .pure _
  | some final =>
    simp only [Option.map_some]
    rw [show (final.through view).outcome? = final.outcome? from rfl]
    cases final.outcome? with
    | none => exact .pure _
    | some goal => exact .map _ (finish_like h final goal)

/-- What is seen of setting up a pool is the setting up of what is seen of it. -/
theorem prepareConcurrent_like (h : p.Like view true p') (placement : Placement) (plan : Plan ρ) :
    Like view true (Pool.through view <$> prepareConcurrent p placement plan)
      (prepareConcurrent p' placement plan) := by
  unfold prepareConcurrent
  rw [h.initial, map_bind]
  exact .bind (.inquire (h.alreadySeen _) _) fun _ _ => rfl

theorem prepareAStar_like (h : p.Like view true p') (plan : Plan ρ) :
    Like view true (Pool.through view <$> prepareAStar p plan) (prepareAStar p' plan) := by
  unfold prepareAStar
  rw [h.initial, map_bind]
  exact .bind (.ask (h.heuristic _)) fun _ _ => rfl

variable [Frontier F (Node S M)] {claiming : Claiming} {prepare : Act ω (Pool ω S M F ρ)}
  {prepare' : Act ω' (Pool ω' S M F ρ)}

theorem bind_run_like (h : p.Like view true p') (limit : Option Nat)
    (hprepare : Like view true (Pool.through view <$> prepare) prepare') :
    Like view true (prepare >>= run p claiming limit) (prepare' >>= run p' claiming limit) := by
  intro arena
  have hset := hprepare arena
  show through view true (EStateM.bind prepare _ arena) = EStateM.bind prepare' _ _
  change through view true (EStateM.map _ prepare arena) = _ at hset
  unfold EStateM.bind
  unfold EStateM.map at hset
  rw [← hset]
  cases prepare arena with
  | ok pool middle => exact run_like h claiming limit pool middle
  | error fault after => rfl

/-- Every end of a search that is seen is what is seen of an end. -/
theorem Ends.exists_of_like (h : p.Like view true p')
    (hprepare : Like view true (Pool.through view <$> prepare) prepare') {arena : Arena ω}
    {outcome' : Upshot ω' M} (hends : Ends p' claiming prepare' (arena.through view true) outcome') :
    ∃ outcome, Ends p claiming prepare arena outcome ∧ outcome' = through view true outcome := by
  have hset := hprepare arena
  change through view true (EStateM.map _ prepare arena) = _ at hset
  unfold EStateM.map at hset
  cases hends with
  | unprepared hprep =>
    rw [hprep] at hset
    cases hown : prepare arena with
    | ok =>
      rw [hown] at hset
      cases hset
    | error fault after =>
      rw [hown] at hset
      cases hset
      exact ⟨_, .unprepared hown, rfl⟩
  | @finished pool' middle' goal hprep actors hend =>
    rw [hprep] at hset
    cases hown : prepare arena with
    | error =>
      rw [hown] at hset
      cases hset
    | ok pool middle =>
      rw [hown] at hset
      cases hset
      rw [Pool.follow_through h] at hend ⊢
      exact ⟨_, .finished hown actors hend, (Like.map some (finish_like h _ goal) middle).symm⟩

end PoolSearch

/-- Every end of a search that is seen is what is seen of an end. -/
theorem Ends.exists_of_like (h : p.Like view true p') {arena : Arena ω} {strategy : Strategy}
    {outcome' : Upshot ω' M} (hends : Ends p' (arena.through view true) strategy outcome') :
    ∃ outcome, Ends p arena strategy outcome ∧ outcome' = through view true outcome := by
  cases hends with
  | depthFirst => exact ⟨_, .depthFirst, (Like.map some (Exhaustive.solve_like h _) arena).symm⟩
  | breadthFirst => exact ⟨_, .breadthFirst, (Like.map some (Exhaustive.solve_like h _) arena).symm⟩
  | aStar => exact ⟨_, .aStar, (Like.map some (BestFirst.solve_like h) arena).symm⟩
  | concurrent hends =>
    obtain ⟨outcome, hends, hseen⟩ := hends.exists_of_like h (PoolSearch.prepareConcurrent_like h _ _)
    exact ⟨outcome, .concurrent hends, hseen⟩
  | concurrentAStar hends =>
    obtain ⟨outcome, hends, hseen⟩ := hends.exists_of_like h (PoolSearch.prepareAStar_like h _)
    exact ⟨outcome, .concurrentAStar hends, hseen⟩

namespace Solver

theorem search_like (h : p.Like view true p') (solver : Solver) (limit : Option Nat) :
    Like view true (solver.search p limit) (solver.search p' limit) := by
  unfold search
  cases solver.strategy with
  | depthFirst => exact .map some (Exhaustive.solve_like h _)
  | breadthFirst => exact .map some (Exhaustive.solve_like h _)
  | aStar => exact .map some (BestFirst.solve_like h)
  | concurrent => exact PoolSearch.bind_run_like h limit (PoolSearch.prepareConcurrent_like h _ _)
  | concurrentAStar => exact PoolSearch.bind_run_like h limit (PoolSearch.prepareAStar_like h _)

theorem close_through (view : ω → ω') (solver : Solver) (outcome : Upshot ω M) :
    solver.close (through view true outcome) =
      ((solver.close outcome).1, view (solver.close outcome).2.1, (solver.close outcome).2.2) := by
  cases outcome <;> rfl

/-- A solver does the same to a problem and to what is seen of it. -/
theorem trySolve_through (h : p.Like view true p') (solver : Solver) (world : ω) (limit : Option Nat) :
    solver.trySolve p' (view world) limit = ((solver.trySolve p world limit).1,
      view (solver.trySolve p world limit).2.1, (solver.trySolve p world limit).2.2) := by
  unfold trySolve
  rw [← close_through, search_like h solver limit (solver.arena world)]
  rfl

end Solver

end StateSearch
