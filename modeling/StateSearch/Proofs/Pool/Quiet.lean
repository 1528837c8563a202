import StateSearch.Proofs.Pool.Runs
import StateSearch.Proofs.Pool.Tasks

/-!
# Problems that ask for no stop

If no call of a problem raises the stop flag (`Problem.NeverStops`), then nobody in a pool does, neither the
workers (`Pool.stopped_follow`) nor those who set it up and read off its result. Only somebody outside can.
-/

namespace StateSearch

open StateSearch.Random Act

variable {ω S M F ρ α : Type}

/-- No call asks for a stop. -/
structure Problem.NeverStops (p : Problem ω S M) : Prop where
  isGoal : ∀ s world, (p.isGoal s world).raisesStop = false
  legalMoves : ∀ s world, (p.legalMoves s world).raisesStop = false
  applyMove : ∀ s m world, (p.applyMove s m world).raisesStop = false
  moveCost : ∀ s m world, (p.moveCost s m world).raisesStop = false
  alreadySeen : ∀ s world, (p.alreadySeen s world).raisesStop = false
  heuristic : ∀ s world, (p.heuristic s world).raisesStop = false
  onProgress : ∀ s tries world, (p.onProgress s tries world).raisesStop = false
  onFinished : ∀ path s tries world, (p.onFinished path s tries world).raisesStop = false

theorem PureProblem.neverStops_toProblem (q : PureProblem S M) : (q.toProblem : Problem ω S M).NeverStops := by
  constructor <;> intros <;> rfl

namespace Act

theorem stopped_ask (call : Call ω α) (arena : Arena ω) :
    (arenaAfter (ask call arena)).stopped = (arena.stopped || (call arena.world).raisesStop) := by
  unfold ask
  dsimp only
  split <;> rfl

theorem Keeps.ask_stopped {call : Call ω α} (h : ∀ world, (call world).raisesStop = false) :
    Keeps Arena.stopped (ask call) := by
  intro arena
  rw [stopped_ask, h, Bool.or_false]

theorem Keeps.inquire_stopped {σ : Type} [SeenSet σ S] {p : Problem ω S M} (h : p.NeverStops) (s : S)
    (seen : σ) : Keeps Arena.stopped (inquire p s seen) := by
  refine .bind (.ask_stopped (h.alreadySeen s)) fun query => ?_
  split
  · exact .pure _
  · exact .throw _

end Act

variable [DecidableEq S] [Hashable S] {p : Problem ω S M} {claiming : Claiming}

theorem Stage.stopped_calling {call : Call ω α} {shared : Shared ω S M F} (onward : α → Progress S M)
    (h : (call shared.world).raisesStop = false) :
    (calling call shared onward).2.stopped = shared.stopped := by
  have hasked : (shared.ask call).2.stopped = shared.stopped :=
    (congrArg (shared.stopped || ·) h).trans (Bool.or_false _)
  exact calling_ind (fun result => result.2.stopped = shared.stopped) (fun _ _ => hasked) fun _ _ => hasked

theorem Stage.stopped_step (h : p.NeverStops) (claiming : Claiming) (n : Node S M) (shared : Shared ω S M F)
    (stage : Stage S M) : (stage.step p claiming n shared).2.stopped = shared.stopped := by
  cases stage with
  | claim => exact stopped_calling _ (h.alreadySeen _ _)
  | test => exact stopped_calling _ (h.isGoal _ _)
  | list => exact stopped_calling _ (h.legalMoves _ _)
  | apply => exact stopped_calling _ (h.applyMove _ _ _)
  | screen => exact stopped_calling _ (h.alreadySeen _ _)
  | price => exact stopped_calling _ (h.moveCost _ _ _)
  | estimate => exact stopped_calling _ (h.heuristic _ _)
  | report => exact stopped_calling _ (h.onProgress _ _ _)
  | claimBy query | screenBy _ _ _ query =>
    cases query with
    | answer known => cases known <;> rfl
    | _ => rfl
  | drop | count | lookAtFlag | lookAtStop | generate | discard => rfl

namespace Pool

variable [Frontier F (Node S M)] [Coin ρ] {pool next : Pool ω S M F ρ} {actor : Actor}

theorem stopped_eq_of_step (h : p.NeverStops) (hactor : actor ≠ .outsider)
    (hs : pool.step p claiming actor = some next) : next.shared.stopped = pool.shared.stopped := by
  rcases step_cases hs with ⟨before, w, after, w', shared', -, -, hacts, rfl⟩ |
    ⟨waiting', shared', -, hwaits, rfl⟩ | ⟨houtsider, -⟩
  · generalize w.phase = phase at hacts
    cases hacts with
    | @task n stage progress shared'' ht =>
      have hstopped := Stage.stopped_step h claiming n pool.shared stage
      rwa [ht] at hstopped
    | _ => rfl
  · generalize pool.waiting = waiting at hwaits
    cases hwaits <;> rfl
  · exact absurd houtsider hactor

theorem stopped_follow (h : p.NeverStops) {actors : List Actor} (hactors : .outsider ∉ actors)
    (pool : Pool ω S M F ρ) : (pool.follow p claiming actors).shared.stopped = pool.shared.stopped := by
  refine follow_induction_quiet (I := fun next => next.shared.stopped = pool.shared.stopped) ?_ rfl hactors
  intro between next actor hactor hbetween hs
  exact (stopped_eq_of_step h hactor hs).trans hbetween

end Pool

namespace PoolSearch

variable [Coin ρ] {plan : Plan ρ} {placement : Placement} {arena : Arena ω}

theorem unstopped_prepareConcurrent (hp : p.NeverStops) (hopen : arena.stopped = false) :
    wp (prepareConcurrent p placement plan) (fun pool _ => pool.shared.stopped = false)
      (fun _ after => after.stopped = false) arena := by
  unfold prepareConcurrent
  rw [wp_bind]
  exact (Keeps.inquire_stopped hp _ _).wp (fun _ _ h => h.trans hopen) fun _ _ h => h.trans hopen

theorem unstopped_prepareAStar (hp : p.NeverStops) (hopen : arena.stopped = false) :
    wp (prepareAStar p plan) (fun pool _ => pool.shared.stopped = false)
      (fun _ after => after.stopped = false) arena := by
  unfold prepareAStar
  rw [wp_bind]
  exact (Keeps.ask_stopped (hp.heuristic _)).wp (fun _ _ h => h.trans hopen) fun _ _ h => h.trans hopen

omit [Coin ρ] in
/-- The last report may still ask for a stop. -/
theorem stopped_finish (p : Problem ω S M) (pool : Pool ω S M F ρ) (goal : Option (Node S M))
    (middle : Arena ω) :
    (arenaAfter ((some <$> finish p pool goal) middle)).stopped = (pool.shared.stopped ||
      (p.onFinished (goal.map Node.toPath) (goal.elim p.initial Node.state) pool.shared.expanded
        pool.shared.world).raisesStop) := by
  have hpure {β : Type} (value : β) : Keeps Arena.stopped (pure value : Act ω β) := .pure value
  rw [map_eq_pure_bind, Keeps.view_bind fun path => hpure (some path)]
  show (arenaAfter ((ask _ >>= fun _ => pure _) _)).stopped = _
  rw [Keeps.view_bind fun _ => hpure _, stopped_ask]

end PoolSearch

end StateSearch
