import StateSearch.Proofs.Pool.Expansions
import StateSearch.Proofs.Pool.Failures
import StateSearch.Proofs.Pool.Labour

/-!
# A failing task harms no other

Workers who claim states when they take them lose little when a task fails: the state that the task has
claimed, and nodes that it made. Another node for the same state may be made later, by whoever comes across
it. So a route to a goal is not blocked by tasks that fail elsewhere: if no call fails that a task on a state
of the route makes, an unstopped search answers with a path (`PoolSearch.finish_finds`), whatever else fails.

The invariant, `Isolated`, is about the states on which tasks are safe. Such a state, once it is seen, is
being worked on, or is no goal and its safe successors are seen or on their way.
-/

namespace StateSearch

open StateSearch.Random LawfulFrontier

variable {ω S M F ρ : Type} {rules : Rules S M} {p : Problem ω S M} {n : Node S M} {s t : S}

/-- Some call fails that a task on `s` may make, if it claims the state when it takes its node. Only a state
that is no goal is expanded. -/
inductive Problem.Stumbles (p : Problem ω S M) (rules : Rules S M) (s : S) : Prop
  | alreadySeen {world : ω} {fault : Fault} (h : (p.alreadySeen s world).result = .error fault)
  | isGoal {world : ω} {fault : Fault} (h : (p.isGoal s world).result = .error fault)
  | legalMoves {world : ω} {fault : Fault} (hgoal : rules.isGoal s = .ok false)
      (h : (p.legalMoves s world).result = .error fault)
  | applyMove {m : M} {world : ω} {fault : Fault} (hgoal : rules.isGoal s = .ok false)
      (legal : rules.IsLegal s m) (h : (p.applyMove s m world).result = .error fault)
  | moveCost {m : M} {world : ω} {fault : Fault} (hgoal : rules.isGoal s = .ok false)
      (legal : rules.IsLegal s m) (h : (p.moveCost s m world).result = .error fault)
  | heuristic {m : M} {t : S} {world : ω} {fault : Fault} (hgoal : rules.isGoal s = .ok false)
      (legal : rules.IsLegal s m) (apply : rules.applyMove s m = .ok t)
      (h : (p.heuristic t world).result = .error fault)
  | onProgress {tries : Nat} {world : ω} {fault : Fault} (hgoal : rules.isGoal s = .ok false)
      (h : (p.onProgress s tries world).result = .error fault)

variable [DecidableEq S] [Hashable S] {safe : S → Prop} {seen seen' : Std.HashSet S}
  {opened opened' : Node S M → Prop} {stage : Stage S M}

/-- A task fails only if one of its calls does. -/
theorem Stage.Fits.stumbles {shared : Shared ω S M F} {fault : Fault}
    (h : stage.Fits rules .whenTaken shared.seen n) (hcarries : stage.Carries p rules .whenTaken n)
    (hf : (stage.step p .whenTaken n shared).1 = .failed fault) : p.Stumbles rules n.state := by
  revert hf
  let P : Progress S M × Shared ω S M F → Prop := fun result =>
    result.1 = .failed fault → p.Stumbles rules n.state
  cases stage with
  | claim =>
    refine calling_ind P (fun _ _ hf => ?_) fun _ hr _ => .alreadySeen hr
    cases hf
  | claimBy query =>
    obtain ⟨-, rfl | ⟨known, rfl, -⟩⟩ := h
    · intro hf
      cases hf
    · intro hf
      cases known <;> cases hf
  | drop | count | generate | discard =>
    intro hf
    cases hf
  | test tries =>
    refine calling_ind P (fun reached _ hf => ?_) fun _ hr _ => .isGoal hr
    cases reached <;> cases hf
  | list tries =>
    refine calling_ind P (fun _ _ hf => ?_) fun _ hr _ => .legalMoves h.2 hr
    cases hf
  | lookAtFlag | lookAtStop =>
    simp only [Stage.step]
    intro hf
    split at hf <;> cases hf
  | apply sweep m =>
    refine calling_ind P (fun _ _ hf => ?_) fun _ hr _ => .applyMove h.isGoal hcarries.2 hr
    cases hf
  | screen => cases h.1
  | screenBy sweep m t query =>
    obtain ⟨-, rfl | ⟨known, rfl, -⟩⟩ := h
    · intro hf
      cases hf
    · intro hf
      cases known <;> cases hf
  | price sweep m t =>
    refine calling_ind P (fun _ _ hf => ?_) fun _ hr _ => .moveCost h.1.isGoal hcarries.2.1 hr
    cases hf
  | estimate sweep m t c =>
    refine calling_ind P (fun _ _ hf => ?_) fun _ hr _ =>
      .heuristic h.2.isGoal hcarries.2.2.legal hcarries.2.2.apply hr
    cases hf
  | report sweep =>
    refine calling_ind P (fun _ _ hf => ?_) fun _ hr _ => .onProgress h.isGoal hr
    cases hf

/-- Only its own state is recorded by a task, and the task goes on with it then. -/
theorem Stage.Fits.claims_of_fresh {shared : Shared ω S M F} (hplain : p.Plain)
    (h : stage.Fits rules .whenTaken shared.seen n) (hformed : stage.Formed .whenTaken n)
    (hs : s ∈ (stage.step p .whenTaken n shared).2.seen) (hfresh : s ∉ shared.seen) :
    s = n.state ∧ n ∈ (Pool.afterTask n (stage.step p .whenTaken n shared).1).claimed := by
  have hledger := hformed.ledger hplain shared
  generalize (stage.step p .whenTaken n shared).1 = progress at hledger ⊢
  generalize (stage.step p .whenTaken n shared).2.seen = seen at hs hledger
  cases hledger with
  | kept hsame => exact absurd ((hsame s).1 hs) hfresh
  | failed hsame => exact absurd ((hsame s).1 hs) hfresh
  | @recorded _ s' hfresh' hseen hperm =>
    obtain rfl : s = s' := ((hseen s).1 hs).resolve_right hfresh
    rcases List.mem_append.1 (hperm.mem_iff.2 (List.mem_cons_self ..)) with hmem | hmem
    · -- The state of a task that counts its expansion is seen.
      cases stage with
      | count =>
        rw [List.mem_singleton.1 hmem] at hfresh
        exact absurd (h.mem_seen rfl) hfresh
      | _ => cases hmem
    · cases progress with
      | onward stage' =>
        simp only [Pool.afterTask, Phase.awaiting, Stage.awaiting, Stage.toExpand] at hmem
        split at hmem
        · exact ⟨List.mem_singleton.1 hmem, Phase.mem_claimed_working.2 ⟨rfl, rfl⟩⟩
        · exact ⟨List.mem_singleton.1 hmem, Phase.mem_claimed_working.2 ⟨rfl, rfl⟩⟩
        · cases hmem
      | _ => cases hmem

/-! ### What becomes of the states on which tasks are safe -/

/-- If the state is safe, then it is seen or a node for it is open. -/
def Expected (safe : S → Prop) (seen : Std.HashSet S) (opened : Node S M → Prop) (t : S) : Prop :=
  safe t → t ∈ seen ∨ ∃ c, opened c ∧ c.state = t

theorem Expected.mono (h : Expected safe seen opened t) (hseen : ∀ s ∈ seen, s ∈ seen')
    (hopened : ∀ c, opened c → safe c.state → opened' c ∨ c.state ∈ seen') :
    Expected safe seen' opened' t := by
  intro ht
  rcases h ht with hs | ⟨c, hc, rfl⟩
  · exact .inl (hseen t hs)
  · rcases hopened c hc ht with hc | hs
    · exact .inr ⟨c, hc, rfl⟩
    · exact .inl hs

/-- The state is no goal, and what a move reaches from it is expected. -/
structure Passed (rules : Rules S M) (safe : S → Prop) (seen : Std.HashSet S)
    (opened : Node S M → Prop) (s : S) : Prop where
  isGoal : rules.isGoal s = .ok false
  moves : ∃ moves, rules.legalMoves s = .ok moves ∧
    ∀ m ∈ moves, ∃ t, rules.applyMove s m = .ok t ∧ Expected safe seen opened t

theorem Passed.mono (h : Passed rules safe seen opened s) (hseen : ∀ s ∈ seen, s ∈ seen')
    (hopened : ∀ c, opened c → safe c.state → opened' c ∨ c.state ∈ seen') :
    Passed rules safe seen' opened' s := by
  obtain ⟨hgoal, moves, hmoves, hall⟩ := h
  refine ⟨hgoal, moves, hmoves, fun m hm => ?_⟩
  obtain ⟨t, ht, hexpected⟩ := hall m hm
  exact ⟨t, ht, hexpected.mono hseen hopened⟩

theorem Passed.of_covers {children : List (Node S M)} (h : Covers rules .whenTaken seen n children [])
    (hopened : ∀ c ∈ children, opened c) : Passed rules safe seen opened n.state := by
  obtain ⟨-, hgoal, moves, hmoves, hall⟩ := h
  refine ⟨hgoal, moves, hmoves, fun m hm => ?_⟩
  obtain ⟨t, ht, hs | ⟨-, c, hc, -, -, hstate, -⟩⟩ := (hall m hm).resolve_left List.not_mem_nil
  · exact ⟨t, ht, fun _ => .inl hs⟩
  · exact ⟨t, ht, fun _ => .inr ⟨c, hopened c hc, hstate⟩⟩

namespace Pool

variable [Frontier F (Node S M)] [LawfulFrontier F (Node S M)] {pool next : Pool ω S M F ρ}
  {actor : Actor} {shared shared' : Shared ω S M F} {before after : List (Worker S M ρ)}
  {w w' : Worker S M ρ} {waiting : Waiting S M}

/-- A safe state that is seen is being worked on or has been passed, and no way to a safe state is lost. This
is so while no goal has been found and nobody asked for a stop. -/
structure Isolated (rules : Rules S M) (safe : S → Prop) (pool : Pool ω S M F ρ) : Prop where
  fits : ∀ w ∈ pool.workers, w.phase.Fits rules .whenTaken pool.shared.seen
  initial : Expected safe pool.shared.seen pool.Coming rules.initial
  kept : ∀ s ∈ pool.shared.seen, safe s → (∃ w ∈ pool.workers, ∃ n ∈ w.phase.claimed, n.state = s) ∨
    Passed rules safe pool.shared.seen pool.Coming s

namespace Isolated

theorem replace (h : Isolated rules safe ⟨shared, before ++ w :: after, waiting⟩)
    (hfits : w'.phase.Fits rules .whenTaken shared'.seen) (hseen : ∀ s ∈ shared.seen, s ∈ shared'.seen)
    (hopened : ∀ c, c ∈ nodes shared.queue.frontier ∨ c ∈ w.phase.opened → safe c.state →
      (c ∈ nodes shared'.queue.frontier ∨ c ∈ w'.phase.opened) ∨ c.state ∈ shared'.seen)
    (hnew : ∀ s ∈ shared'.seen, s ∉ shared.seen → ∃ n ∈ w'.phase.claimed, n.state = s)
    (hclaimed : ∀ n ∈ w.phase.claimed, safe n.state → n ∈ w'.phase.claimed ∨
      Passed rules safe shared'.seen (Coming ⟨shared', before ++ w' :: after, waiting⟩) n.state) :
    Isolated rules safe ⟨shared', before ++ w' :: after, waiting⟩ := by
  have hmove : ∀ c, Coming ⟨shared, before ++ w :: after, waiting⟩ c → safe c.state →
      Coming ⟨shared', before ++ w' :: after, waiting⟩ c ∨ c.state ∈ shared'.seen := by
    intro c hc hsafe
    rw [coming_middle] at hc ⊢
    rcases hc with hc | hc
    · exact (hopened c hc hsafe).imp_left .inl
    · exact .inl (.inr hc)
  refine ⟨forall_mem_replace h.fits (fun _ h => h.mono hseen) hfits, h.initial.mono hseen hmove,
    fun s hs hsafe => ?_⟩
  rw [exists_mem_middle]
  by_cases hold : s ∈ shared.seen
  · rcases h.kept s hold hsafe with hn | hpassed
    · rw [exists_mem_middle] at hn
      rcases hn with ⟨n, hn, rfl⟩ | hn
      · exact (hclaimed n hn hsafe).imp_left fun hn => .inl ⟨n, hn, rfl⟩
      · exact .inl (.inr hn)
    · exact .inr (hpassed.mono hseen hmove)
  · exact .inl (.inl (hnew s hs hold))

/-- A worker who records nothing, and loses none of the nodes that it has. -/
theorem pass (h : Isolated rules safe ⟨shared, before ++ w :: after, waiting⟩)
    (hfits : w'.phase.Fits rules .whenTaken shared.seen) (hseen : shared'.seen = shared.seen)
    (hopened : ∀ c, c ∈ nodes shared.queue.frontier ∨ c ∈ w.phase.opened →
      c ∈ nodes shared'.queue.frontier ∨ c ∈ w'.phase.opened)
    (hclaimed : ∀ n ∈ w.phase.claimed, n ∈ w'.phase.claimed) :
    Isolated rules safe ⟨shared', before ++ w' :: after, waiting⟩ := by
  refine h.replace (hseen ▸ hfits) (by rw [hseen]; exact fun _ hs => hs)
    (fun c hc _ => .inl (hopened c hc)) ?_ fun n hn _ => .inl (hclaimed n hn)
  rw [hseen]
  exact fun s hs hnot => absurd hs hnot

/-- A task that fails is lost, and so is its state; but then it is not a safe one. -/
theorem task [Coin ρ] (h : Isolated rules safe ⟨shared, before ++ w :: after, waiting⟩)
    (hp : p.Respects rules) (hplain : p.Plain) (hsafe : ∀ s, safe s → ¬ p.Stumbles rules s)
    (hformed : stage.Formed .whenTaken n) (hcarries : stage.Carries p rules .whenTaken n)
    (hflag : shared.slot.flag = false) (hstop : shared.stopped = false) {progress : Progress S M}
    (hw : w.phase = .working n stage) (hw' : w'.phase = afterTask n progress)
    (ht : stage.step p .whenTaken n shared = (progress, shared')) :
    Isolated rules safe ⟨shared', before ++ w' :: after, waiting⟩ := by
  have hframe := Stage.frame_of_step_eq ht
  have hqueue := hframe.queue
  have hfits := h.fits w (by simp)
  rw [hw] at hfits
  have hfits' := Stage.Fits.step hp hplain hcarries hfits hflag hstop
  have hclaims := hformed.claims (p := p) shared
  have hfresh := fun s => Stage.Fits.claims_of_fresh (s := s) hplain hfits hformed
  have hfailed : ∀ fault, (stage.step p .whenTaken n shared).1 = .failed fault →
      p.Stumbles rules n.state := fun _ => Stage.Fits.stumbles hfits hcarries
  rw [ht] at hfits' hclaims hfresh hfailed
  simp only at hfits' hclaims hfresh hfailed
  rw [← hw'] at hfits' hfresh
  have hlost : ∀ fault, progress = .failed fault → ¬ safe n.state :=
    fun fault hf hn => hsafe _ hn (hfailed fault hf)
  refine h.replace hfits' hframe.seen ?_ ?_ ?_
  · rw [hqueue, hw]
    rintro c (hc | hc) hsafe
    · exact .inl (.inl hc)
    · obtain ⟨hc, rfl⟩ := Phase.mem_opened_working.1 hc
      rw [hw'] at hfits' ⊢
      cases progress with
      | onward stage' =>
        cases hc' : stage'.hasClaimed with
        | false => exact .inl (.inr (Phase.mem_opened_working.2 ⟨hc', rfl⟩))
        | true => exact .inr (Stage.Fits.mem_seen hfits' hc')
      | goal => exact .inr hfits'
      | children nodes => exact .inr (Covers.own hfits')
      | skipped =>
        obtain rfl : stage = .drop := hclaims
        exact .inr (hframe.seen _ hfits.2)
      | failed fault => exact absurd hsafe (hlost fault rfl)
  · intro s hs hnot
    obtain ⟨rfl, hn⟩ := hfresh s hs hnot
    exact ⟨n, hn, rfl⟩
  · rw [hw]
    intro n' hn' hsafe
    obtain ⟨hc, rfl⟩ := Phase.mem_claimed_working.1 hn'
    rw [hw'] at hfits'
    cases progress with
    | onward stage' =>
      rw [hw']
      exact .inl (Phase.mem_claimed_working.2 ⟨hclaims hc, rfl⟩)
    | goal =>
      rw [hw']
      exact .inl (List.mem_singleton_self _)
    | children nodes =>
      refine .inr (.of_covers hfits' fun c hc => ?_)
      exact coming_middle.2 (.inl (.inr (hw' ▸ hc)))
    | skipped =>
      obtain rfl : stage = .drop := hclaims
      cases hc
    | failed fault => exact absurd hsafe (hlost fault rfl)

theorem taken (h : Isolated rules safe ⟨shared, before ++ w :: after, waiting⟩)
    (hsound : Sound shared.queue.frontier) {queue : WorkQueue F} (hw : w.phase = .idle)
    (hw' : w'.phase = .working n .claim)
    (ht : shared.queue.take shared.stopped = .taken n queue) :
    Isolated rules safe ⟨{ shared with queue }, before ++ w' :: after, waiting⟩ := by
  obtain ⟨-, -, frontier, hpop, rfl, -⟩ := WorkQueue.take_eq_taken ht
  have hmem := fun c => (nodes_pop hsound hpop).mem_iff (a := c)
  refine h.pass ?_ rfl ?_ (by rw [hw]; exact List.forall_mem_nil _)
  · rw [hw']
    exact rfl
  · rw [hw, hw']
    rintro c (hc | hc)
    · rcases List.mem_cons.1 ((hmem c).1 hc) with rfl | hc
      · exact .inr (List.mem_singleton_self _)
      · exact .inl hc
    · cases hc

theorem completed [Coin ρ] (h : Isolated rules safe ⟨shared, before ++ w :: after, waiting⟩)
    (hsound : Sound shared.queue.frontier) {children : List (Node S M)} {exhausted : Bool}
    {queue : WorkQueue F} {coin coin' : ρ} (hw : w.phase = .complete n children)
    (hw' : w'.phase = if exhausted then .exhaust else .idle)
    (hc : shared.queue.complete children coin = .ok (exhausted, queue, coin')) :
    Isolated rules safe ⟨{ shared with queue }, before ++ w' :: after, waiting⟩ := by
  obtain ⟨-, hnodes, -⟩ := WorkQueue.complete_eq_ok hsound hc
  refine h.pass ?_ rfl ?_ (by rw [hw]; exact List.forall_mem_nil _)
  · rw [hw']
    cases exhausted <;> trivial
  · rw [hw]
    exact fun c hc => .inl (hnodes.mem_iff.2 (List.mem_append.2 hc.symm))

variable [Coin ρ]

theorem step (hp : p.Respects rules) (hplain : p.Plain) (hsafe : ∀ s, safe s → ¬ p.Stumbles rules s)
    (ho : pool.Orderly) {I : Node S M → Prop} (hcarries : pool.Carries p rules I .whenTaken)
    (hformed : ∀ w ∈ pool.workers, w.phase.Formed .whenTaken) (h : Isolated rules safe pool)
    (hs : pool.step p .whenTaken actor = some next) (hflag : next.shared.slot.flag = false)
    (hstop : next.shared.stopped = false) : Isolated rules safe next := by
  have honext := ho.step hs
  rcases step_cases hs with ⟨before, w, after, w', shared', rfl, hw, hacts, rfl⟩ |
    ⟨waiting', shared', rfl, hwaits, rfl⟩ | ⟨rfl, rfl⟩
  · obtain ⟨shared, workers, waiting⟩ := pool
    obtain rfl : workers = _ := hw
    replace hacts : Acts p .whenTaken before.length shared w.coin w.phase w' shared' := hacts
    replace hflag : shared'.slot.flag = false := hflag
    replace hstop : shared'.stopped = false := hstop
    have hfits := h.fits w (by simp)
    have hcarried := hcarries.workers w (by simp)
    have hshape := hformed w (by simp)
    generalize hph : w.phase = phase at hacts hfits hcarried hshape
    cases hacts with
    | task ht =>
      have hframe := Stage.frame_of_step_eq ht
      exact h.task hp hplain hsafe hshape hcarried.2 (hframe.slot ▸ hflag) (hframe.unstopped hstop) hph
        rfl ht
    | taken ht => exact h.taken ho.sound hph rfl ht
    | completed hc => exact h.completed ho.sound hph rfl hc
    | tooLate hf | forgone hf => exact absurd (hflag.symm.trans hf) nofun
    | won => cases hflag
    | beaten hb => exact absurd (ho.content_of_flag hflag (by simp) (congrArg Phase.node? hph)) hb
    | closed =>
      have hpending := ho.content_of_flag hflag (by simp) (congrArg Phase.node? hph)
      exact absurd hpending (ho.closing w (by simp) _ hph)
    | refused | blamed | exhausted =>
      refine h.pass trivial rfl ?_ (by rw [hph]; exact List.forall_mem_nil _)
      rw [hph]
      exact fun c hc => hc
    | announced =>
      refine h.pass hfits rfl ?_ ?_
      · rw [hph]
        exact fun c hc => hc
      · rw [hph]
        exact fun n hn => hn
    | kept =>
      refine h.pass trivial rfl ?_ (by rw [hph]; exact List.forall_mem_nil _)
      rw [hph]
      exact fun c hc => hc
    | judged =>
      refine h.pass trivial rfl ?_ (by rw [hph]; exact List.forall_mem_nil _)
      rw [hph, hstop]
      exact fun c hc => hc
    | broke =>
      exact absurd rfl (honext.unbroken _ (List.mem_append_right _ (List.mem_cons_self ..)) _ _)
  · obtain ⟨shared, workers, waiting⟩ := pool
    obtain ⟨hfits, hinitial, hkept⟩ := h
    cases hwaits <;> exact ⟨hfits, hinitial, hkept⟩
  · cases hstop

omit [Coin ρ] in
theorem of_isFresh {root : Node S M} (h : pool.IsFresh root) (hroot : root.state = rules.initial)
    (hseen : pool.shared.seen = ∅) : Isolated rules safe pool := by
  refine ⟨fun w hw => ?_, fun _ => .inr ⟨root, .inl ?_, hroot⟩, fun s hs => ?_⟩
  · rw [h.idle w hw]
    trivial
  · rw [h.nodes]
    exact List.mem_singleton_self _
  · rw [hseen] at hs
    exact absurd hs Std.HashSet.not_mem_empty

omit [Coin ρ] in
/-- When nothing is left to do, every route through safe states has been followed. -/
theorem of_drained (h : Isolated rules safe pool) (hnodes : nodes pool.shared.queue.frontier = [])
    (hheld : held pool.workers = []) (hs : rules.Within safe s) :
    Passed rules safe pool.shared.seen pool.Coming s := by
  have hkept : ∀ s, safe s → Expected safe pool.shared.seen pool.Coming s →
      Passed rules safe pool.shared.seen pool.Coming s := by
    intro s hsafe hs
    obtain hs | ⟨c, hc, -⟩ := hs hsafe
    · refine (h.kept s hs hsafe).resolve_left ?_
      rintro ⟨w, hw, n, hn, -⟩
      exact absurd (mem_held.2 ⟨w, hw, Phase.node?_of_mem_claimed hn⟩) (hheld ▸ List.not_mem_nil)
    · exact absurd hc (not_coming hnodes hheld)
  induction hs with
  | initial hsafe => exact hkept _ hsafe h.initial
  | step _ step hsafe ih =>
    obtain ⟨⟨moves, hlegal, hm⟩, happly, -⟩ := step
    obtain ⟨-, moves', hmoves, hall⟩ := ih
    cases hlegal.symm.trans hmoves
    obtain ⟨t, ht, hexpected⟩ := hall _ hm
    cases happly.symm.trans ht
    exact hkept _ hsafe hexpected

end Isolated

variable [Coin ρ]

omit [LawfulFrontier F (Node S M)] in
theorem forall_formed_of_step {claiming : Claiming} (hplain : p.Plain)
    (h : ∀ w ∈ pool.workers, w.phase.Formed claiming)
    (hs : pool.step p claiming actor = some next) : ∀ w ∈ next.workers, w.phase.Formed claiming := by
  obtain ⟨shared, workers, waiting⟩ := pool
  rcases step_cases hs with ⟨before, w, after, w', shared', rfl, hw, hacts, rfl⟩ |
    ⟨waiting', shared', rfl, hwaits, rfl⟩ | ⟨rfl, rfl⟩
  · obtain rfl : workers = _ := hw
    refine forall_mem_replace h (fun _ h => h) ?_
    have hformed := h w (by simp)
    generalize w.phase = phase at hacts hformed
    cases hacts with
    | taken => cases claiming <;> trivial
    | @task n stage progress shared'' ht =>
      have := Stage.Formed.step hplain hformed shared
      rwa [ht] at this
    | @completed n children exhausted queue coin' hc => cases exhausted <;> trivial
    | _ => trivial
  · exact h
  · exact h

/-- What is known of the pool at every time of a run. -/
structure Sheltered (p : Problem ω S M) (rules : Rules S M) (safe : S → Prop)
    (pool : Pool ω S M F ρ) : Prop where
  orderly : pool.Orderly
  carries : pool.Carries p rules (Node.Genuine rules) .whenTaken
  formed : ∀ w ∈ pool.workers, w.phase.Formed .whenTaken
  isolated : pool.shared.slot.flag = false → pool.shared.stopped = false → pool.Isolated rules safe

namespace Sheltered

theorem follow {root : Node S M} (hp : p.Respects rules) (hplain : p.Plain)
    (hsafe : ∀ s, safe s → ¬ p.Stumbles rules s) (h : pool.IsFresh root)
    (hroot : root.Genuine rules) (hinitial : root.state = rules.initial)
    (hseen : pool.shared.seen = ∅) (actors : List Actor) :
    Sheltered p rules safe (pool.follow p .whenTaken actors) := by
  refine follow_induction ?_ ⟨h.orderly, h.carries hroot, fun w hw => ?_, fun _ _ =>
    .of_isFresh h hinitial hseen⟩ actors
  · rintro pool next actor ⟨ho, hc, hf, hi⟩ hs
    refine ⟨ho.step hs, hc.step hp (inherited_genuine p rules _) hs, forall_formed_of_step hplain hf hs,
      fun hflag hstop => ?_⟩
    have hi := hi (flag_of_step hs hflag) (unstopped_of_step hs hstop)
    exact hi.step hp hplain hsafe ho hc hf hs hflag hstop
  · rw [h.idle w hw]
    trivial

omit [Coin ρ] in
/-- A pool that says that there is no goal has followed every route through safe states. -/
theorem isSome_outcome (h : Sheltered p rules safe pool) (hstop : pool.shared.stopped = false)
    {goal : Option (Node S M)} (hend : pool.outcome? = some goal) (hs : rules.Within safe s)
    (hgoal : rules.isGoal s = .ok true) : ∃ n, goal = some n ∧ n.Solves rules := by
  cases goal with
  | some n =>
    obtain ⟨hgenuine, hsolved⟩ := h.carries.of_outcome? hend
    exact ⟨n, rfl, hgenuine, hsolved⟩
  | none =>
    have hcontent := h.orderly.content_of_outcome? hstop hend
    have hflag : pool.shared.slot.flag = false := by
      rw [← Bool.not_eq_true, h.orderly.flag, hcontent]
      rintro ⟨n, ⟨⟩⟩
    obtain ⟨hnodes, hheld⟩ := h.orderly.drained (.inl hcontent)
    have hpassed := (h.isolated hflag hstop).of_drained hnodes hheld hs
    cases hgoal.symm.trans hpassed.isGoal

end Sheltered

end Pool

/-! ### What the search answers -/

namespace PoolSearch

open Act

variable [Coin ρ] {plan : Plan ρ} {arena : Arena ω}

/-- Setting up the pool fails only if the initial state cannot be estimated. -/
theorem wp_prepareAStar : wp (prepareAStar p plan)
    (fun pool _ => pool.workers.length = plan.coins.length ∧
      ∃ remaining, pool.IsFresh (.root p.initial remaining) ∧ pool.shared.seen = ∅)
    (fun fault _ => ∃ world, (p.heuristic p.initial world).result = .error fault) arena := by
  have herror : wp (prepareAStar p plan) (fun _ _ => True)
      (fun fault _ => ∃ world, (p.heuristic p.initial world).result = .error fault) arena := by
    unfold prepareAStar
    rw [wp_bind]
    exact wp_ask _ (fun _ _ _ _ => trivial) fun _ _ _ h => ⟨_, h⟩
  refine herror.with_eq.mono fun pool middle h => ?_
  obtain ⟨remaining, -, -, hfresh⟩ := isFresh_of_prepareAStar h.1
  exact ⟨length_of_prepareAStar h.1, remaining, hfresh⟩

/-- If some route leads to a goal and no call fails that a task on a state of the route may make, then in
whatever order the steps are taken, a search that nobody stopped answers with a path to a goal, however many
other tasks fail. If the states are finitely many and everybody has a turn again and again, it does come to
its end. Only two calls are made outside of tasks: the estimate of the initial state, before the workers
begin, and the report that the search is finished. -/
theorem finish_finds (hp : p.Respects rules) (hplain : p.Plain)
    (hs : rules.Within (fun s => ¬ p.Stumbles rules s) s) (hgoal : rules.isGoal s = .ok true)
    {states : List S} (hinitial : rules.initial ∈ states)
    (hclosed : ∀ s ∈ states, ∀ m t, rules.IsLegal s m → rules.applyMove s m = .ok t → t ∈ states)
    (hcoins : plan.coins ≠ []) (arena : Arena ω) :
    wp (prepareAStar p plan)
      (fun pool middle =>
        (∀ actors goal, (pool.follow p .whenTaken actors).outcome? = some goal →
          (pool.follow p .whenTaken actors).shared.stopped = false →
          wp (finish p (pool.follow p .whenTaken actors) goal)
            (fun path after => ∃ found, rules.Solves found ∧ path = some found ∧
              Solver.endingOf after.faults (some path) = .answered (some found))
            (fun fault _ => ∃ count world, (p.onFinished (goal.map Node.toPath)
              (goal.elim p.initial Node.state) count world).result = .error fault) middle) ∧
        ∀ schedule, Pool.Fair plan.coins.length schedule →
          ∃ k goal, (pool.played p .whenTaken schedule k).outcome? = some goal)
      (fun fault _ => ∃ world, (p.heuristic p.initial world).result = .error fault) arena := by
  refine wp_prepareAStar.mono ?_
  rintro pool middle ⟨hlength, remaining, hfresh, hseen⟩
  rw [hp.initial] at hfresh
  refine ⟨fun actors goal hend hstop => ?_, fun schedule hfair => ?_⟩
  · have hsheltered : Pool.Sheltered p rules (fun s => ¬ p.Stumbles rules s)
        (pool.follow p .whenTaken actors) :=
      .follow hp hplain (fun _ h => h) hfresh (.root remaining) rfl hseen actors
    obtain ⟨n, rfl, hn⟩ := hsheltered.isSome_outcome hstop hend hs hgoal
    refine (wp_finish p _ _).mono ?_
    rintro _ after rfl
    exact ⟨n.toPath, hn.toPath, rfl, rfl⟩
  · refine hfresh.exists_outcome_whenTaken hp hplain.records (Rules.confines_id hclosed) hinitial
      (fun hnil => hcoins ?_) ?_
    · rw [← List.length_eq_zero_iff, ← hlength, hnil]
      rfl
    · rwa [hlength]

end PoolSearch

namespace Junction

/-- The task on the bypass fails. The way by the middle leads to the finish, and no call fails on it, so the
finish is found. -/
theorem finish_finds_washout :
    (washout.Within (fun s => ¬ (washout.toProblem : Problem Unit _ _).Stumbles washout s) finish ∧
      washout.isGoal finish = .ok true) ∧
    (unordered.follow washout.toProblem .whenTaken turns).shared.faults.map WorkerFault.depth = [1] ∧
    (∃ goal after found, (unordered.follow washout.toProblem .whenTaken turns).outcome? = some goal ∧
      PoolSearch.finish washout.toProblem (unordered.follow washout.toProblem .whenTaken turns) goal
        { world := () } = .ok (some found) after ∧
      washout.Solves found ∧ Solver.endingOf after.faults (some (some found)) = .answered (some found)) ∧
    ∃ k goal, (unordered.played washout.toProblem .whenTaken circle k).outcome? = some goal := by
  have hsafe : ∀ s, s ≠ bypass → ¬ (washout.toProblem : Problem Unit _ _).Stumbles washout s := by
    rintro s hs (h | h | ⟨-, h⟩ | ⟨-, -, h⟩ | ⟨-, -, h⟩ | ⟨-, -, -, h⟩ | ⟨-, h⟩)
    case moveCost =>
      rw [washout.follows_toProblem.moveCost] at h
      simp [washout, hs] at h
    all_goals cases h
  have hwithin : washout.Within (fun s => ¬ (washout.toProblem : Problem Unit _ _).Stumbles washout s)
      finish :=
    ((Rules.Within.initial (hsafe start (by decide))).step washout_step_start
      (hsafe middle (by decide))).step washout_step_middle (hsafe finish (by decide))
  have hprepare : PoolSearch.prepareAStar washout.toProblem ⟨(), [(), ()]⟩ { world := () } =
      .ok unordered { world := () } := rfl
  have hcoins : (⟨(), [(), ()]⟩ : PoolSearch.Plan Unit).coins ≠ [] := by decide
  have hclosed : ∀ s ∈ [start, bypass, middle, finish], ∀ m t, washout.IsLegal s m →
      washout.applyMove s m = .ok t → t ∈ [start, bypass, middle, finish] := by
    intro s _ m t _ _
    cases t <;> decide
  obtain ⟨hfinds, hends⟩ := (PoolSearch.finish_finds washout.follows_toProblem.respects
    washout.plain_toProblem hwithin rfl (by decide) hclosed hcoins { world := () }).of_eq_ok hprepare
  have hrun : (unordered.follow washout.toProblem .whenTaken turns).shared.faults.map
        WorkerFault.depth = [1] ∧
      (unordered.follow washout.toProblem .whenTaken turns).outcome?.isSome = true ∧
      (unordered.follow washout.toProblem .whenTaken turns).shared.stopped = false := by
    rw [OpenList.frontier_eq_listed]
    decide +kernel
  obtain ⟨goal, hgoal⟩ := Option.isSome_iff_exists.1 hrun.2.1
  obtain ⟨after, hfinish⟩ : ∃ after, PoolSearch.finish washout.toProblem
      (unordered.follow washout.toProblem .whenTaken turns) goal { world := () } =
        .ok (goal.map Node.toPath) after := ⟨_, rfl⟩
  obtain ⟨found, hsolves, hpath, hending⟩ := (hfinds turns goal hgoal hrun.2.2).of_eq_ok hfinish
  rw [hpath] at hfinish hending
  exact ⟨⟨hwithin, rfl⟩, hrun.1, ⟨goal, after, found, hgoal, hfinish, hsolves, hending⟩,
    hends circle fair_circle⟩

/-- The detour, if it cannot be told how far it is from the start to the finish. -/
def unsighted : Problem Unit Junction Junction :=
  { detour.toProblem with heuristic := fun s => if s = start then .fail .wordless else .answer 0 }

/-- No task fails, but the search is abandoned before there are any. -/
theorem unsighted_abandoned :
    unsighted.Follows detour.rules ∧ unsighted.Plain ∧
    (∀ s, ¬ unsighted.Stumbles detour.rules s) ∧
    (detour.rules.Within (fun s => ¬ unsighted.Stumbles detour.rules s) finish ∧
      detour.rules.isGoal finish = .ok true) ∧
    ∀ settings, ((Solver.new .concurrentAStar settings).trySolve unsighted ()).2.2 =
      .abandoned .wordless := by
  have hsafe : ∀ s, ¬ unsighted.Stumbles detour.rules s := by
    rintro s (h | h | ⟨-, h⟩ | ⟨-, -, h⟩ | ⟨-, -, h⟩ | ⟨-, ⟨moves, hmoves, hm⟩, ht, h⟩ | ⟨-, h⟩)
    case heuristic m t world fault =>
      -- No move leads back to the start.
      cases hmoves
      cases ht
      have hne : detour.applyMove s m ≠ start := by
        rintro rfl
        cases s <;> revert hm <;> decide
      simp only [unsighted, if_neg hne] at h
      cases h
    all_goals cases h
  refine ⟨⟨rfl, fun _ _ => rfl, fun _ _ => rfl, fun _ _ _ => rfl, fun _ _ _ => rfl⟩, ?_, hsafe, ⟨?_, rfl⟩,
    fun settings => rfl⟩
  · intro s world query h
    cases h
    rfl
  · exact ((Rules.Within.initial (hsafe _)).step (PureProblem.step_of_mem (p := detour) (s := start)
      (m := middle) (by decide)) (hsafe _)).step (PureProblem.step_of_mem (p := detour) (s := middle)
        (m := finish) (by decide)) (hsafe _)

end Junction

end StateSearch
