import StateSearch.Proofs.Pool.Expansions

/-!
# A queue that only uses its tail searches level by level

Nodes in flight are all of one depth, and the nodes that wait are of that depth or the next one, in this
order (`Pool.Graded`). So nodes are taken in the order of their depths, whatever the order of the steps.

Hence workers who claim states when they generate them cannot claim a state too deep, if no call fails and
as long as no goal is found and nobody asks for a stop. A route to a state that is new leaves the states
that are dealt with by way of a node that waits or is in flight, and that node is at least as deep as the
one whose task found the state (`Pool.Watched.beyond_of_fresh`). Every node that gets into the queue is as
deep as its state is far away from the initial state (`Pool.Measured`), and the first goal that is found
is a nearest one.
-/

namespace StateSearch

open StateSearch.Random LawfulFrontier

variable {ω S M F ρ : Type} {n : Node S M}

namespace PureProblem

variable (q : PureProblem S M)

/-- No route of fewer moves leads to the state. -/
def Beyond (k : Nat) (s : S) : Prop :=
  ∀ ms c, q.rules.Route q.initial ms s c → k ≤ ms.length

/-- The shortest routes to the state have so many moves. -/
structure IsDistance (s : S) (k : Nat) : Prop where
  route : ∃ ms c, q.rules.Route q.initial ms s c ∧ ms.length = k
  beyond : q.Beyond k s

/-- The path leads to a goal at the cost it claims, and no route to a goal has fewer moves. -/
structure IsShortest (path : Path M) : Prop where
  route : ∃ goal, q.rules.Route q.initial path.moves goal path.cost ∧ q.isGoal goal = true
  fewest : ∀ ms goal c, q.rules.Route q.initial ms goal c → q.isGoal goal = true →
    path.moves.length ≤ ms.length

end PureProblem

/-- The moves of the node are a route to its state, and its depth is the number of these moves. -/
structure Node.Counted (rules : Rules S M) (n : Node S M) : Prop where
  genuine : n.Genuine rules
  length : n.movesFromRoot.length = n.depth

theorem inherited_counted (p : Problem ω S M) (rules : Rules S M) (claiming : Claiming) :
    Inherited p rules claiming (Node.Counted rules) := by
  rintro n c hc ⟨hgenuine, hlength⟩
  refine ⟨inherited_genuine p rules claiming n c hc hgenuine, ?_⟩
  obtain ⟨m, t, step, h, -, -, rfl⟩ := hc
  rw [Node.movesFromRoot_child, List.length_append, hlength]
  rfl

/-! ### The order of the queue -/

/-- Each node that a worker is about to hand in is one level deeper than the one in its hands. -/
def Phase.Descends : Phase S M → Prop
  | judgeFlag n children | judgeStop n children | complete n children =>
    ∀ c ∈ children, c.depth = n.depth + 1
  | idle | working .. | announce _ | publish _ | close _ | blame .. | exhaust | ended | broken .. => True

theorem IsChild.depth {p : Problem ω S M} {rules : Rules S M} {claiming : Claiming} {c : Node S M}
    (h : IsChild p rules claiming n c) : c.depth = n.depth + 1 := by
  obtain ⟨m, t, step, remaining, -, -, rfl⟩ := h
  rfl

theorem Stage.takings_event (n : Node S M) (stage : Stage S M) (progress : Progress S M) (index : Nat) :
    History.takings ((stage.event? n progress).map fun event => (index, event)).toList = [] := by
  unfold event?
  split
  · rfl
  · rfl
  all_goals split <;> rfl

namespace Pool

variable [DecidableEq S] [Hashable S] {p : Problem ω S M} {claiming : Claiming}
  {pool next : Pool ω S M (BiasedDeque S M) ρ} {actor : Actor} {past news : History S M}
  {shared shared' : Shared ω S M (BiasedDeque S M)} {before after : List (Worker S M ρ)}
  {w w' : Worker S M ρ} {waiting : Waiting S M}

/-- The nodes are in the order of their depths, those that were taken before those in flight, and these
before those that wait. There are never more than two levels of them. -/
structure Graded (past : History S M) (pool : Pool ω S M (BiasedDeque S M) ρ) : Prop where
  placement : pool.shared.queue.frontier.placement = .tail
  queue : (nodes pool.shared.queue.frontier).Pairwise fun a b => a.depth ≤ b.depth ∧ b.depth ≤ a.depth + 1
  held : ∀ n ∈ held pool.workers, ∀ c ∈ nodes pool.shared.queue.frontier,
    n.depth ≤ c.depth ∧ c.depth ≤ n.depth + 1
  children : ∀ w ∈ pool.workers, w.phase.Descends
  takings : past.takings.Pairwise fun a b => a.depth ≤ b.depth
  later : ∀ n ∈ past.takings, ∀ c,
    c ∈ nodes pool.shared.queue.frontier ∨ c ∈ Pool.held pool.workers → n.depth ≤ c.depth

theorem Graded.depth_eq (h : Graded past pool) (ho : pool.Orderly) {n' : Node S M}
    (hn : n ∈ Pool.held pool.workers) (hn' : n' ∈ Pool.held pool.workers) : n.depth = n'.depth := by
  have hlayer : BiasedDeque.layerOf pool.shared.queue.frontier n =
      BiasedDeque.layerOf pool.shared.queue.frontier n' := (ho.layer n hn).trans (ho.layer n' hn').symm
  unfold BiasedDeque.layerOf at hlayer
  rw [h.placement] at hlayer
  exact Option.some.inj hlayer

namespace Graded

theorem of_isFresh {root : Node S M} (h : pool.IsFresh root)
    (hplacement : pool.shared.queue.frontier.placement = .tail) : Graded [] pool := by
  have hheld : Pool.held pool.workers = [] := by
    refine List.filterMap_eq_nil_iff.2 fun w hw => ?_
    rw [h.idle w hw]
    rfl
  refine ⟨hplacement, ?_, ?_, fun w hw => ?_, .nil, fun n hn => absurd hn List.not_mem_nil⟩
  · rw [h.nodes]
    exact List.pairwise_singleton _ _
  · rw [hheld]
    exact fun n hn => absurd hn List.not_mem_nil
  · rw [h.idle w hw]
    trivial

/-- A worker who keeps its node, or has none. -/
theorem pass (h : Graded past ⟨shared, before ++ w :: after, waiting⟩)
    (hnode : w'.phase.node? = w.phase.node?) (hqueue : shared'.queue.frontier = shared.queue.frontier)
    (hchildren : w'.phase.Descends) (hnews : news.takings = []) :
    Graded (past ++ news) ⟨shared', before ++ w' :: after, waiting⟩ := by
  have hheld : Pool.held (before ++ w' :: after) = Pool.held (before ++ w :: after) := by
    unfold Pool.held
    simp only [List.filterMap_append, List.filterMap_cons, hnode]
  obtain ⟨hplacement, hsorted, hband, hdeeper, htakings, hlater⟩ := h
  refine ⟨hqueue ▸ hplacement, hqueue ▸ hsorted, ?_, forall_mem_replace hdeeper (fun _ h => h) hchildren,
    ?_, ?_⟩
  · rw [hheld, hqueue]
    exact hband
  · rwa [History.takings_append, hnews, List.append_nil]
  · rw [History.takings_append, hnews, List.append_nil, hheld, hqueue]
    exact hlater

theorem taken (h : Graded past ⟨shared, before ++ w :: after, waiting⟩)
    (honext : Orderly ⟨shared', before ++ w' :: after, waiting⟩) {stage : Stage S M}
    {queue : WorkQueue (BiasedDeque S M)} (hw : w.phase = .idle) (hw' : w'.phase = .working n stage)
    (ht : shared.queue.take shared.stopped = .taken n queue) (hqueue : shared'.queue = queue)
    (hnews : news.takings = [n]) : Graded (past ++ news) ⟨shared', before ++ w' :: after, waiting⟩ := by
  obtain ⟨-, -, frontier, hpop, rfl, -⟩ := WorkQueue.take_eq_taken ht
  obtain ⟨hnodes, hplacement⟩ := BiasedDeque.pop?_eq_some hpop
  have hfrontier : shared'.queue.frontier = frontier := by rw [hqueue]
  have hheld : ∀ c, c ∈ Pool.held (before ++ w' :: after) ↔
      c = n ∨ c ∈ Pool.held (before ++ w :: after) := by
    intro c
    rw [(held_replace before after w').mem_iff, (held_replace before after w).mem_iff, hw, hw']
    exact List.mem_cons
  have hsorted := h.queue
  rw [hnodes, List.pairwise_cons] at hsorted
  have hin : n ∈ nodes shared.queue.frontier := by
    rw [hnodes]
    exact List.mem_cons_self
  have hrest : ∀ c ∈ nodes frontier, c ∈ nodes shared.queue.frontier := by
    intro c hc
    rw [hnodes]
    exact List.mem_cons_of_mem _ hc
  have hplacement' : shared'.queue.frontier.placement = .tail := by
    rw [hfrontier, hplacement]
    exact h.placement
  -- The gate makes sure that the node has the depth of those that are in flight already.
  have hequal : ∀ c ∈ Pool.held (before ++ w :: after), n.depth ≤ c.depth := by
    intro c hc
    have hlayer := (honext.layer n ((hheld n).2 (.inl rfl))).trans
      (honext.layer c ((hheld c).2 (.inr hc))).symm
    replace hlayer : BiasedDeque.layerOf shared'.queue.frontier n =
      BiasedDeque.layerOf shared'.queue.frontier c := hlayer
    unfold BiasedDeque.layerOf at hlayer
    rw [hplacement'] at hlayer
    exact Nat.le_of_eq (Option.some.inj hlayer)
  refine ⟨hplacement', ?_, ?_, ?_, ?_, ?_⟩
  · rw [hfrontier]
    exact hsorted.2
  · rw [hfrontier]
    intro n' hn' c hc
    rcases (hheld n').1 hn' with rfl | hn'
    · exact hsorted.1 c hc
    · exact h.held n' hn' c (hrest c hc)
  · refine forall_mem_replace h.children (fun _ h => h) ?_
    rw [hw']
    trivial
  · rw [History.takings_append, hnews, List.pairwise_append]
    refine ⟨h.takings, List.pairwise_singleton _ _, fun a ha b hb => ?_⟩
    rw [List.mem_singleton.1 hb]
    exact h.later a ha n (.inl hin)
  · rw [History.takings_append, hnews, hfrontier]
    intro a ha c hc
    rw [hheld] at hc
    rcases List.mem_append.1 ha with htaken | htaken
    · rcases hc with hc | rfl | hc
      · exact h.later a htaken c (.inl (hrest c hc))
      · exact h.later a htaken c (.inl hin)
      · exact h.later a htaken c (.inr hc)
    · rw [List.mem_singleton.1 htaken]
      rcases hc with hc | rfl | hc
      · exact (hsorted.1 c hc).1
      · exact Nat.le_refl _
      · exact hequal c hc

theorem completed [Coin ρ] (h : Graded past ⟨shared, before ++ w :: after, waiting⟩)
    (ho : Orderly ⟨shared, before ++ w :: after, waiting⟩) {children : List (Node S M)} {exhausted : Bool}
    {queue : WorkQueue (BiasedDeque S M)} {coin coin' : ρ} (hw : w.phase = .complete n children)
    (hw' : w'.phase = if exhausted then .exhaust else .idle)
    (hc : shared.queue.complete children coin = .ok (exhausted, queue, coin'))
    (hnews : news.takings = []) :
    Graded (past ++ news) ⟨{ shared with queue }, before ++ w' :: after, waiting⟩ := by
  obtain ⟨hnodes, hplacement⟩ := BiasedDeque.pushAll_tail h.placement children coin
  rw [← WorkQueue.frontier_of_complete hc] at hnodes hplacement
  have hheld : (Pool.held (before ++ w :: after)).Perm (n :: Pool.held (before ++ w' :: after)) := by
    refine (held_replace before after w).trans ?_
    rw [hw]
    refine List.Perm.cons n ((held_replace before after w').trans ?_).symm
    rw [hw']
    cases exhausted <;> exact .refl _
  have hn : n ∈ Pool.held (before ++ w :: after) := hheld.mem_iff.2 (List.mem_cons_self ..)
  have hothers : ∀ n' ∈ Pool.held (before ++ w' :: after), n' ∈ Pool.held (before ++ w :: after) :=
    fun n' hn' => hheld.mem_iff.2 (List.mem_cons_of_mem _ hn')
  have hdepth : ∀ c ∈ children, c.depth = n.depth + 1 := by
    have := h.children w (by simp)
    rwa [hw] at this
  refine ⟨hplacement, ?_, ?_, ?_, ?_, ?_⟩
  · show (nodes queue.frontier).Pairwise _
    rw [hnodes, List.pairwise_append]
    refine ⟨h.queue, List.pairwise_of_forall_mem_list fun a ha b hb => ?_, fun a ha b hb => ?_⟩
    · rw [hdepth a ha, hdepth b hb]
      omega
    · have := h.held n hn a ha
      rw [hdepth b hb]
      omega
  · show ∀ n' ∈ _, ∀ c ∈ nodes queue.frontier, _
    rw [hnodes]
    intro n' hn' c hc
    rcases List.mem_append.1 hc with hc | hc
    · exact h.held n' (hothers n' hn') c hc
    · rw [h.depth_eq ho (hothers n' hn') hn, hdepth c hc]
      omega
  · refine forall_mem_replace h.children (fun _ h => h) ?_
    rw [hw']
    cases exhausted <;> trivial
  · rw [History.takings_append, hnews, List.append_nil]
    exact h.takings
  · show ∀ a ∈ _, ∀ c, c ∈ nodes queue.frontier ∨ _ → _
    rw [History.takings_append, hnews, List.append_nil, hnodes]
    intro a ha c hc
    have hle := h.later a ha n (.inr hn)
    rcases hc with hc | hc
    · rcases List.mem_append.1 hc with hc | hc
      · exact h.later a ha c (.inl hc)
      · rw [hdepth c hc]
        omega
    · exact h.later a ha c (.inr (hothers c hc))

theorem step [Coin ρ] {rules : Rules S M} {I : Node S M → Prop} (hp : p.Respects rules)
    (ho : pool.Orderly) (hcarries : pool.Carries p rules I claiming) (h : Graded past pool)
    (hs : pool.step p claiming actor = some next) :
    Graded (past ++ pool.events p claiming actor) next := by
  have honext := ho.step hs
  rcases step_cases hs with ⟨before, w, after, w', shared', rfl, hw, hacts, rfl⟩ |
    ⟨waiting', shared', rfl, hwaits, rfl⟩ | ⟨rfl, rfl⟩
  · obtain ⟨shared, workers, waiting⟩ := pool
    obtain rfl : workers = _ := hw
    replace hacts : Acts p claiming before.length shared w.coin w.phase w' shared' := hacts
    have hdescends := h.children w (by simp)
    rw [events_middle]
    generalize hph : w.phase = phase at hacts hdescends
    cases hacts with
    | refused hr =>
      simp only [eventOf, hph, hr]
      exact h.pass (by rw [hph]; rfl) rfl trivial rfl
    | taken ht =>
      simp only [eventOf, hph, ht]
      exact h.taken honext hph rfl ht rfl rfl
    | @task n stage progress shared'' ht =>
      simp only [eventOf, hph, ht]
      have hcarried := hcarries.workers w (by simp)
      rw [hph] at hcarried
      have hprogress := hcarried.2.step hp shared
      have hframe := Stage.frame_of_step_eq ht
      rw [ht] at hprogress
      refine h.pass ?_ (by rw [hframe.queue]) ?_ (Stage.takings_event ..)
      · rw [hph]
        cases progress <;> rfl
      · cases progress with
        | children nodes => exact fun c hc => (hprogress c hc).depth
        | skipped => exact fun c hc => absurd hc List.not_mem_nil
        | onward | goal | failed => trivial
    | tooLate hf =>
      simp only [eventOf, hph, hf, if_true]
      exact h.pass (by rw [hph]; rfl) rfl (fun c hc => absurd hc List.not_mem_nil) rfl
    | announced hf =>
      simp only [eventOf, hph, hf, Bool.false_eq_true, if_false]
      exact h.pass (by rw [hph]; rfl) rfl trivial rfl
    | won | blamed | exhausted =>
      simp only [eventOf, hph]
      refine h.pass (by rw [hph]; rfl) rfl ?_ rfl
      first
        | exact trivial
        | exact fun c hc => absurd hc List.not_mem_nil
    | beaten | closed | forgone =>
      simp only [eventOf, hph]
      exact h.pass (by rw [hph]; rfl) rfl (fun c hc => absurd hc List.not_mem_nil) rfl
    | kept =>
      simp only [eventOf, hph]
      exact h.pass (by rw [hph]; rfl) rfl hdescends rfl
    | judged =>
      simp only [eventOf, hph]
      refine h.pass (by rw [hph]; rfl) rfl ?_ rfl
      intro c hc
      split at hc
      · cases hc
      · exact hdescends c hc
    | completed hc =>
      simp only [eventOf, hph, hc]
      exact h.completed ho hph rfl hc rfl
    | broke =>
      exact absurd rfl (honext.unbroken _ (List.mem_append_right _ (List.mem_cons_self ..)) _ _)
  · obtain ⟨shared, workers, waiting⟩ := pool
    rw [show events p claiming _ .waiter = [] from rfl, List.append_nil]
    obtain ⟨hplacement, hsorted, hband, hchildren, htakings, hlater⟩ := h
    cases hwaits <;> exact ⟨hplacement, hsorted, hband, hchildren, htakings, hlater⟩
  · rw [show events p claiming _ .outsider = [] from rfl, List.append_nil]
    exact ⟨h.placement, h.queue, h.held, h.children, h.takings, h.later⟩

end Graded

end Pool

/-! ### The distances of the states -/

variable [DecidableEq S] [Hashable S] {q : PureProblem S M}

/-- A node that is found by a task is in its list already, or its state was recorded just now. -/
theorem Stage.Formed.mem_pending {p : Problem ω S M} {stage : Stage S M}
    (h : stage.Formed .whenGenerated n) (hplain : p.Plain) (shared : Shared ω S M F) {s : S}
    (hs : s ∈ (Pool.afterTask n (stage.step p .whenGenerated n shared).1).awaiting .whenGenerated) :
    s ∈ stage.pending ++ stage.made.map Node.state ∨ s ∉ shared.seen := by
  have hcounted : stage.toExpand n = (stage.counted n).map Node.state := by
    cases stage with
    | claimBy query => exact absurd h.1 nofun
    | _ => rfl
  have hledger := h.ledger hplain shared
  generalize stage.step p .whenGenerated n shared = result at hledger hs
  obtain ⟨progress, shared'⟩ := result
  cases hledger with
  | kept _ ha =>
    rw [Stage.awaiting, hcounted, List.perm_append_left_iff] at ha
    exact .inl (ha.mem_iff.1 hs)
  | @recorded _ t hfresh _ ha =>
    rw [Stage.awaiting, hcounted] at ha
    have hfound := (List.perm_append_left_iff _).1 (ha.trans List.perm_middle.symm)
    rcases List.mem_cons.1 (hfound.mem_iff.1 hs) with rfl | hs
    · exact .inr hfresh
    · exact .inl hs
  | failed => cases hs

/-- The node in the hands of a worker is as deep as its state is far away, and what it has found is
farther away. What is found after a goal was found is dropped. -/
def Phase.Near (q : PureProblem S M) (flag : Bool) : Phase S M → Prop
  | working n stage => q.Beyond n.depth n.state ∧
    (flag = false → ∀ s ∈ stage.pending ++ stage.made.map Node.state, q.Beyond (n.depth + 1) s)
  | judgeFlag n children => q.Beyond n.depth n.state ∧
    (flag = false → ∀ c ∈ children, q.Beyond (n.depth + 1) c.state)
  | judgeStop n children | complete n children => q.Beyond n.depth n.state ∧
    ∀ c ∈ children, q.Beyond (n.depth + 1) c.state
  | announce n | publish n | close n | blame n _ => q.Beyond n.depth n.state
  | idle | exhaust | ended | broken .. => True

omit [DecidableEq S] [Hashable S] in
theorem Phase.Near.mono {flag flag' : Bool} {phase : Phase S M} (h : phase.Near q flag)
    (hflag : flag' = false → flag = false) : phase.Near q flag' := by
  cases phase with
  | working n stage => exact h.imp_right fun h hf => h (hflag hf)
  | judgeFlag n children => exact h.imp_right fun h hf => h (hflag hf)
  | _ => exact h

omit [DecidableEq S] [Hashable S] in
theorem Phase.Near.beyond {flag : Bool} {phase : Phase S M} (h : phase.Near q flag)
    (hn : phase.node? = some n) : q.Beyond n.depth n.state := by
  cases phase <;> cases hn <;> first | exact h.1 | exact h

omit [DecidableEq S] [Hashable S] in
/-- No route to a state that waits for its expansion is shorter than the node is deep. -/
theorem Phase.Near.le_of_mem_awaiting {phase : Phase S M} (h : phase.Near q false) {s : S} {ms : List M}
    {c : Cost} (hs : s ∈ phase.awaiting .whenGenerated) (route : q.rules.Route q.initial ms s c) :
    ∃ n, phase.node? = some n ∧ n.depth ≤ ms.length := by
  cases phase
  case working n stage =>
    refine ⟨n, rfl, ?_⟩
    rcases List.mem_append.1 hs with hs | hs
    · have hstate : s = n.state := by
        cases stage with
        | count => exact List.mem_singleton.1 hs
        | claimBy query =>
          unfold Stage.toExpand at hs
          split at hs
          · exact List.mem_singleton.1 hs
          · exact List.mem_singleton.1 hs
          · cases hs
        | _ => cases hs
      subst hstate
      exact h.1 ms c route
    · exact Nat.le_of_succ_le (h.2 rfl s hs ms c route)
  case judgeFlag n children =>
    obtain ⟨c', hc', rfl⟩ := List.mem_map.1 hs
    exact ⟨n, rfl, Nat.le_of_succ_le (h.2 rfl c' hc' ms c route)⟩
  case judgeStop n children | complete n children =>
    obtain ⟨c', hc', rfl⟩ := List.mem_map.1 hs
    exact ⟨n, rfl, Nat.le_of_succ_le (h.2 c' hc' ms c route)⟩
  all_goals cases hs

namespace Pool

variable {pool next : Pool ω S M (BiasedDeque S M) ρ} {actor : Actor} {past news : History S M}
  {shared shared' : Shared ω S M (BiasedDeque S M)} {before after : List (Worker S M ρ)}
  {w w' : Worker S M ρ} {waiting : Waiting S M} {s : S}

/-- Every node is as deep as its state is far away, and a goal in the slot is a nearest one. -/
structure Measured (q : PureProblem S M) (past : History S M)
    (pool : Pool ω S M (BiasedDeque S M) ρ) : Prop where
  queue : ∀ n ∈ nodes pool.shared.queue.frontier, q.Beyond n.depth n.state
  workers : ∀ w ∈ pool.workers, w.phase.Near q pool.shared.slot.flag
  slot : ∀ n, pool.shared.slot.content = .assigned n → ∀ ms goal c,
    q.rules.Route q.initial ms goal c → q.isGoal goal = true → n.depth ≤ ms.length
  handedIn : ∀ n ∈ past.handedIn, q.IsDistance n.state n.depth

theorem Charted.seen_of_coming {F : Type} [Frontier F (Node S M)] [LawfulFrontier F (Node S M)]
    {pool : Pool ω S M F ρ} (h : Charted .whenGenerated past pool) (hn : pool.Coming n) :
    n.state ∈ pool.shared.seen := by
  refine h.balanced.recorded _ (List.mem_append_right _ ?_)
  rcases hn with hn | ⟨w, hw, hn⟩
  · exact List.mem_append_left _ (List.mem_map_of_mem hn)
  · refine List.mem_append_right _ (List.mem_flatMap.2 ⟨w, hw, ?_⟩)
    have hformed := h.formed w hw
    cases hph : w.phase <;> rw [hph] at hn hformed
    case working n' stage =>
      obtain ⟨hc, -⟩ := Phase.mem_opened_working.1 hn
      cases stage with
      | claim | drop => cases hformed
      | claimBy => cases hformed.1
      | _ => cases hc
    case judgeFlag | judgeStop | complete => exact List.mem_map_of_mem hn
    all_goals cases hn

namespace Watched

variable (h : Watched q .whenGenerated past pool) (hm : Measured q past pool)
  (hflag : pool.shared.slot.flag = false) (hstop : pool.shared.stopped = false)
include h hm hflag hstop

/-- A state that is seen is done with, or one of the nodes that wait or are in flight is no deeper than
any route to it is long. -/
theorem shallow_or_done (hs : s ∈ pool.shared.seen) {ms : List M} {c : Cost}
    (route : q.rules.Route q.initial ms s c) :
    (∃ n, (n ∈ nodes pool.shared.queue.frontier ∨ n ∈ held pool.workers) ∧ n.depth ≤ ms.length) ∨
      q.isGoal s = false ∧ ∀ m ∈ q.legalMoves s, q.applyMove s m ∈ pool.shared.seen := by
  have hsurveyed := h.surveyed hflag hstop
  rcases hsurveyed.recorded s hs with hs | hs
  · obtain ⟨n, hn, rfl⟩ := List.mem_map.1 hs
    rcases hsurveyed.followed n hn with ⟨w, hw, hn⟩ | hdone
    · have hnode := Phase.node?_of_mem_claimed hn
      exact .inl ⟨n, .inr (mem_held.2 ⟨w, hw, hnode⟩), (hm.workers w hw).beyond hnode ms c route⟩
    · refine .inr ⟨hdone.isGoal, fun m hm => ?_⟩
      rcases hdone.move m hm with hs | ⟨c, hc, hstate, -⟩
      · exact hs
      · exact hstate ▸ h.charted.seen_of_coming hc
  · left
    rcases List.mem_append.1 hs with hs | hs
    · obtain ⟨n, hn, rfl⟩ := List.mem_map.1 hs
      exact ⟨n, .inl hn, hm.queue n hn ms c route⟩
    · obtain ⟨w, hw, hs⟩ := List.mem_flatMap.1 hs
      have hnear := hm.workers w hw
      rw [hflag] at hnear
      obtain ⟨n, hn, hle⟩ := hnear.le_of_mem_awaiting hs route
      exact ⟨n, .inr (mem_held.2 ⟨w, hw, hn⟩), hle⟩

/-- Every route ends in a state that is done with, or one of the nodes that wait or are in flight is no
deeper than the route is long. -/
theorem exists_shallow {ms : List M} {c : Cost} (route : q.rules.Route q.initial ms s c) :
    (∃ n, (n ∈ nodes pool.shared.queue.frontier ∨ n ∈ held pool.workers) ∧ n.depth ≤ ms.length) ∨
      q.isGoal s = false ∧ ∀ m ∈ q.legalMoves s, q.applyMove s m ∈ pool.shared.seen := by
  induction route with
  | stay =>
    have hinitial : q.initial ∈ pool.shared.seen := by
      rcases (h.surveyed hflag hstop).initial with hs | ⟨n, hn, hstate⟩
      · exact hs
      · exact hstate ▸ h.charted.seen_of_coming hn
    exact h.shallow_or_done hm hflag hstop hinitial .stay
  | snoc route step ih =>
    rcases ih with ⟨n, hn, hle⟩ | ⟨-, hmoves⟩
    · refine .inl ⟨n, hn, ?_⟩
      rw [List.length_append]
      omega
    · obtain ⟨hmove, rfl, rfl⟩ := PureProblem.step_rules_iff.1 step
      exact h.shallow_or_done hm hflag hstop (hmoves _ hmove)
        (route.snoc (PureProblem.step_of_mem hmove))

variable (ho : pool.Orderly) (hg : Graded past pool) (hn : n ∈ held pool.workers)
include ho hg hn

omit h hm hflag hstop in
/-- No node that waits or is in flight is less deep than one in flight. -/
theorem depth_le {n' : Node S M}
    (hn' : n' ∈ nodes pool.shared.queue.frontier ∨ n' ∈ held pool.workers) : n.depth ≤ n'.depth := by
  rcases hn' with hn' | hn'
  · exact (hg.held n hn n' hn').1
  · exact Nat.le_of_eq (hg.depth_eq ho hn hn')

/-- A state that is new is farther away than the states whose nodes are in flight. -/
theorem beyond_of_fresh (hs : s ∉ pool.shared.seen) : q.Beyond (n.depth + 1) s := by
  intro ms c route
  cases route with
  | stay =>
    rcases (h.surveyed hflag hstop).initial with hs' | ⟨n', hn', hstate⟩
    · exact absurd hs' hs
    · exact absurd (hstate ▸ h.charted.seen_of_coming hn') hs
  | @snoc ms t _ m c d route step =>
    obtain ⟨hmove, rfl, rfl⟩ := PureProblem.step_rules_iff.1 step
    rcases h.exists_shallow hm hflag hstop route with ⟨n', hn', hle⟩ | ⟨-, hmoves⟩
    · have hdepth := depth_le ho hg hn hn'
      rw [List.length_append, List.length_singleton]
      omega
    · exact absurd (hmoves m hmove) hs

theorem depth_le_of_isGoal {ms : List M} {goal : S} {c : Cost}
    (route : q.rules.Route q.initial ms goal c) (hgoal : q.isGoal goal = true) :
    n.depth ≤ ms.length := by
  rcases h.exists_shallow hm hflag hstop route with ⟨n', hn', hle⟩ | ⟨hnot, -⟩
  · exact Nat.le_trans (depth_le ho hg hn hn') hle
  · exact absurd (hgoal.symm.trans hnot) nofun

end Watched

namespace Measured

theorem of_isFresh {remaining : Cost} (h : pool.IsFresh (.root q.initial remaining)) :
    Measured q [] pool := by
  refine ⟨fun n hn => ?_, fun w hw => ?_, fun n hn => ?_, fun n hn => absurd hn List.not_mem_nil⟩
  · rw [h.nodes] at hn
    rw [List.mem_singleton.1 hn]
    exact fun _ _ _ => Nat.zero_le _
  · rw [h.idle w hw]
    trivial
  · rw [h.slot] at hn
    cases hn

/-- A worker who tells the slot about no goal. -/
theorem replace (h : Measured q past ⟨shared, before ++ w :: after, waiting⟩)
    (hqueue : ∀ c ∈ nodes shared'.queue.frontier,
      c ∈ nodes shared.queue.frontier ∨ q.Beyond c.depth c.state)
    (hflag : shared'.slot.flag = shared.slot.flag)
    (hslot : ∀ n, shared'.slot.content = .assigned n → shared.slot.content = .assigned n)
    (hnear : w'.phase.Near q shared.slot.flag)
    (hnews : ∀ c ∈ news.handedIn, q.IsDistance c.state c.depth) :
    Measured q (past ++ news) ⟨shared', before ++ w' :: after, waiting⟩ := by
  refine ⟨fun c hc => ?_, ?_, fun n hn => h.slot n (hslot n hn), fun c hc => ?_⟩
  · exact (hqueue c hc).elim (h.queue c) id
  · rw [hflag]
    exact forall_mem_replace h.workers (fun _ h => h) hnear
  · rw [History.handedIn_append] at hc
    exact (List.mem_append.1 hc).elim (h.handedIn c) (hnews c)

/-- Nothing gets into the queue, and nothing happens to the slot. -/
theorem pass (h : Measured q past ⟨shared, before ++ w :: after, waiting⟩)
    (hqueue : ∀ c ∈ nodes shared'.queue.frontier, c ∈ nodes shared.queue.frontier)
    (hslot : shared'.slot = shared.slot) (hnear : w'.phase.Near q shared.slot.flag)
    (hnews : news.handedIn = []) : Measured q (past ++ news) ⟨shared', before ++ w' :: after, waiting⟩ := by
  refine h.replace (fun c hc => .inl (hqueue c hc)) (by rw [hslot]) (fun n hn => ?_) hnear fun c hc => ?_
  · rwa [← hslot]
  · rw [hnews] at hc
    exact absurd hc List.not_mem_nil

section

variable (h : Measured q past ⟨shared, before ++ w :: after, waiting⟩)
include h

theorem task (hrecord : q.alreadySeen = .record)
    (hw : Watched q .whenGenerated past ⟨shared, before ++ w :: after, waiting⟩)
    (hg : Graded past ⟨shared, before ++ w :: after, waiting⟩) (hstop : shared.stopped = false)
    {stage : Stage S M} {progress : Progress S M} (hph : w.phase = .working n stage)
    (hph' : w'.phase = afterTask n progress)
    (ht : stage.step q.toProblem .whenGenerated n shared = (progress, shared')) :
    Measured q (past ++ ((stage.event? n progress).map fun event => (before.length, event)).toList)
      ⟨shared', before ++ w' :: after, waiting⟩ := by
  have hframe := Stage.frame_of_step_eq ht
  have hnear := h.workers w (by simp)
  have hformed := hw.charted.formed w (by simp)
  have hheld : n ∈ held (before ++ w :: after) := mem_held.2 ⟨w, by simp, by rw [hph]; rfl⟩
  rw [hph] at hnear hformed
  -- What the task has recorded just now is new to everybody.
  have hfound : shared.slot.flag = false → ∀ s ∈ (afterTask n progress).awaiting .whenGenerated,
      q.Beyond (n.depth + 1) s := by
    intro hflag s hs
    have hpending := Stage.Formed.mem_pending (F := BiasedDeque S M) hformed
      (PureProblem.plain_toProblem (ω := ω) hrecord) shared (s := s)
    rw [ht] at hpending
    rcases hpending hs with hs | hs
    · exact hnear.2 hflag s hs
    · exact hw.beyond_of_fresh h hflag hstop hw.orderly hg hheld hs
  refine h.pass (by rw [hframe.queue]; exact fun _ hc => hc) hframe.slot ?_ ?_
  · rw [hph']
    cases progress with
    | onward stage' => exact ⟨hnear.1, fun hf s hs => hfound hf s (List.mem_append_right _ hs)⟩
    | children nodes => exact ⟨hnear.1, fun hf c hc => hfound hf _ (List.mem_map_of_mem hc)⟩
    | skipped => exact ⟨hnear.1, fun c hc => absurd hc List.not_mem_nil⟩
    | goal | failed => exact hnear.1
  · cases progress <;> cases stage <;> simp [Stage.event?, History.handedIn]

theorem won (hw : Watched q .whenGenerated past ⟨shared, before ++ w :: after, waiting⟩)
    (hg : Graded past ⟨shared, before ++ w :: after, waiting⟩) (hstop : shared.stopped = false)
    (hpending : shared.slot.content = .pending) (hph : w.phase = .publish n) (hph' : w'.phase = .close n)
    (hnews : news.handedIn = []) : Measured q (past ++ news)
      ⟨{ shared with slot := ⟨.assigned n, true⟩ }, before ++ w' :: after, waiting⟩ := by
  have hflag : shared.slot.flag = false := by
    rw [← Bool.not_eq_true]
    intro hflag
    obtain ⟨n', hn'⟩ := hw.orderly.flag.1 hflag
    cases hpending.symm.trans hn'
  have hheld : n ∈ held (before ++ w :: after) := mem_held.2 ⟨w, by simp, by rw [hph]; rfl⟩
  have hnear := h.workers w (by simp)
  rw [hph] at hnear
  refine ⟨h.queue, ?_, fun n' hn' ms goal c route hgoal => ?_, fun c hc => ?_⟩
  · refine forall_mem_replace h.workers (fun _ h => h.mono fun hf => by cases hf) ?_
    rw [hph']
    exact hnear
  · cases hn'
    exact hw.depth_le_of_isGoal h hflag hstop hw.orderly hg hheld route hgoal
  · rw [History.handedIn_append, hnews, List.append_nil] at hc
    exact h.handedIn c hc

theorem completed [Coin ρ] (hsound : Sound shared.queue.frontier)
    (hcounted : Carries (q.toProblem : Problem ω S M) q.rules (Node.Counted q.rules) .whenGenerated
      ⟨shared, before ++ w :: after, waiting⟩)
    (hg : Graded past ⟨shared, before ++ w :: after, waiting⟩) {children : List (Node S M)}
    {exhausted : Bool} {queue : WorkQueue (BiasedDeque S M)} {coin coin' : ρ}
    (hph : w.phase = .complete n children) (hph' : w'.phase = if exhausted then .exhaust else .idle)
    (hc : shared.queue.complete children coin = .ok (exhausted, queue, coin'))
    (hnews : news.handedIn = children) :
    Measured q (past ++ news) ⟨{ shared with queue }, before ++ w' :: after, waiting⟩ := by
  obtain ⟨-, hnodes, -⟩ := WorkQueue.complete_eq_ok hsound hc
  have hnear := h.workers w (by simp)
  have hdescends := hg.children w (by simp)
  have hcarried := hcounted.workers w (by simp)
  rw [hph] at hnear hdescends hcarried
  have hbeyond : ∀ c ∈ children, q.Beyond c.depth c.state := by
    intro c hc
    rw [hdescends c hc]
    exact hnear.2 c hc
  refine h.replace (fun c hc => ?_) rfl (fun _ hn => hn) ?_ fun c hc => ?_
  · rcases List.mem_append.1 (hnodes.mem_iff.1 hc) with hc | hc
    · exact .inr (hbeyond c hc)
    · exact .inl hc
  · rw [hph']
    cases exhausted <;> trivial
  · rw [hnews] at hc
    exact ⟨⟨_, _, (hcarried c hc).genuine, (hcarried c hc).length⟩, hbeyond c hc⟩

end

theorem step [Coin ρ] (hrecord : q.alreadySeen = .record) (hw : Watched q .whenGenerated past pool)
    (hcounted : pool.Carries (q.toProblem : Problem ω S M) q.rules (Node.Counted q.rules) .whenGenerated)
    (hg : Graded past pool) (h : Measured q past pool)
    (hs : pool.step q.toProblem .whenGenerated actor = some next) (hstop : next.shared.stopped = false) :
    Measured q (past ++ pool.events q.toProblem .whenGenerated actor) next := by
  have honext := hw.orderly.step hs
  have hstop' := unstopped_of_step hs hstop
  rcases step_cases hs with ⟨before, w, after, w', shared', rfl, hmiddle, hacts, rfl⟩ |
    ⟨waiting', shared', rfl, hwaits, rfl⟩ | ⟨rfl, rfl⟩
  · obtain ⟨shared, workers, waiting⟩ := pool
    obtain rfl : workers = _ := hmiddle
    replace hacts : Acts q.toProblem .whenGenerated before.length shared w.coin w.phase w' shared' := hacts
    replace hstop : shared'.stopped = false := hstop
    have hnear := h.workers w (by simp)
    rw [events_middle]
    generalize hph : w.phase = phase at hacts hnear
    cases hacts with
    | refused hr =>
      simp only [eventOf, hph, hr]
      exact h.pass (fun _ hc => hc) rfl trivial rfl
    | @taken n queue ht =>
      obtain ⟨-, -, frontier, hpop, rfl, -⟩ := WorkQueue.take_eq_taken ht
      obtain ⟨hnodes, -⟩ := BiasedDeque.pop?_eq_some hpop
      have hmem : ∀ c, c = n ∨ c ∈ nodes frontier → c ∈ nodes shared.queue.frontier := by
        intro c hc
        rw [hnodes]
        exact List.mem_cons.2 hc
      simp only [eventOf, hph, ht]
      refine h.pass (fun c hc => hmem c (.inr hc)) rfl ?_ rfl
      exact ⟨h.queue n (hmem n (.inl rfl)), fun _ s hs => absurd hs List.not_mem_nil⟩
    | task ht =>
      simp only [eventOf, hph, ht]
      exact h.task hrecord hw hg hstop' hph rfl ht
    | tooLate hf =>
      simp only [eventOf, hph, hf, if_true]
      exact h.pass (fun _ hc => hc) rfl ⟨hnear, fun c hc => absurd hc List.not_mem_nil⟩ rfl
    | announced hf =>
      simp only [eventOf, hph, hf, Bool.false_eq_true, if_false]
      exact h.pass (fun _ hc => hc) rfl hnear rfl
    | won hpending =>
      simp only [eventOf, hph]
      exact h.won hw hg hstop' hpending hph rfl rfl
    | beaten | closed | blamed =>
      simp only [eventOf, hph]
      exact h.pass (fun _ hc => hc) rfl ⟨hnear, fun c hc => absurd hc List.not_mem_nil⟩ rfl
    | forgone =>
      simp only [eventOf, hph]
      exact h.pass (fun _ hc => hc) rfl ⟨hnear.1, fun c hc => absurd hc List.not_mem_nil⟩ rfl
    | kept hf =>
      simp only [eventOf, hph]
      exact h.pass (fun _ hc => hc) rfl ⟨hnear.1, hnear.2 hf⟩ rfl
    | judged =>
      simp only [eventOf, hph]
      refine h.pass (fun _ hc => hc) rfl ?_ rfl
      rw [hstop]
      exact hnear
    | @completed n children exhausted queue coin' hc =>
      simp only [eventOf, hph, hc]
      exact h.completed hw.orderly.sound hcounted hg hph rfl hc (List.append_nil _)
    | broke =>
      exact absurd rfl (honext.unbroken _ (List.mem_append_right _ (List.mem_cons_self ..)) _ _)
    | exhausted =>
      simp only [eventOf, hph]
      have hslot : shared.slot.markExhausted.flag = shared.slot.flag ∧
          ∀ n, shared.slot.markExhausted.content = .assigned n → shared.slot.content = .assigned n := by
        unfold Slot.markExhausted
        split
        · exact ⟨rfl, fun n hn => by cases hn⟩
        · exact ⟨rfl, fun _ hn => hn⟩
      exact h.replace (fun _ hc => .inl hc) hslot.1 hslot.2 trivial fun c hc => absurd hc List.not_mem_nil
  · obtain ⟨shared, workers, waiting⟩ := pool
    rw [show events q.toProblem .whenGenerated _ .waiter = [] from rfl, List.append_nil]
    obtain ⟨hqueue, hworkers, hslot, hhanded⟩ := h
    cases hwaits <;> exact ⟨hqueue, hworkers, hslot, hhanded⟩
  · cases hstop

end Measured

/-- What is known of a pool whose queue only uses its tail, and of what happened so far. -/
structure Leveled (q : PureProblem S M) (past : History S M)
    (pool : Pool ω S M (BiasedDeque S M) ρ) : Prop where
  watched : Watched q .whenGenerated past pool
  counted : pool.Carries (q.toProblem : Problem ω S M) q.rules (Node.Counted q.rules) .whenGenerated
  graded : Graded past pool
  measured : pool.shared.stopped = false → Measured q past pool

theorem Leveled.follow [Coin ρ] (hrecord : q.alreadySeen = .record) (h : Leveled q [] pool)
    (actors : List Actor) : Leveled q (pool.history q.toProblem .whenGenerated actors)
      (pool.follow q.toProblem .whenGenerated actors) := by
  refine history_induction (I := Leveled q) (fun past pool next actor h hs => ?_) h actors
  have hrespects := q.follows_rules (ω := ω).respects
  refine ⟨h.watched.step hrecord hs, h.counted.step hrespects (inherited_counted _ _ _) hs,
    h.graded.step hrespects h.watched.orderly h.counted hs, fun hstop => ?_⟩
  exact (h.measured (unstopped_of_step hs hstop)).step hrecord h.watched h.counted h.graded hs hstop

end Pool

namespace PoolSearch

open Act

variable [Coin ρ] {plan : Plan ρ} {arena middle : Arena ω} {pool : Pool ω S M (BiasedDeque S M) ρ}

theorem leveled_of_prepareConcurrent (hrecord : q.alreadySeen = .record)
    (hprepare : prepareConcurrent q.toProblem .tail plan arena = .ok pool middle) :
    pool.Leveled q [] ∧ nodes pool.shared.queue.frontier = [.root q.initial 0] := by
  have hplain : (q.toProblem : Problem ω S M).Plain := PureProblem.plain_toProblem hrecord
  obtain ⟨hfresh, hseen⟩ := fresh_of_prepareConcurrent (q.follows_rules (ω := ω)).respects hplain hprepare
  have hstart : pool.shared.expanded = 0 ∧ pool.shared.queue.frontier.placement = .tail := by
    obtain ⟨_, _, -, h⟩ := of_bind_eq_ok hprepare
    cases h
    exact ⟨rfl, rfl⟩
  refine ⟨⟨.of_isFresh hfresh hstart.1 fun s => ?_, hfresh.carries ⟨.root 0, rfl⟩,
    .of_isFresh hfresh hstart.2, fun _ => .of_isFresh hfresh⟩, hfresh.nodes⟩
  rw [hseen]
  exact List.mem_singleton.symm

/-- If every node goes to the tail, then in whatever order the steps are taken, nodes are taken in the
order of their depths, every node that gets into the queue is as deep as its state is far away from the
initial state, and no route to a goal has fewer moves than a path that is returned. -/
theorem level_by_level (hrecord : q.alreadySeen = .record)
    (hprepare : prepareConcurrent q.toProblem (.ofBias 1.0) plan arena = .ok pool middle)
    (actors : List Actor)
    (hstop : (pool.follow q.toProblem .whenGenerated actors).shared.stopped = false) :
    ((pool.history q.toProblem .whenGenerated actors).takings.Pairwise fun a b => a.depth ≤ b.depth) ∧
    (∀ n ∈ nodes pool.shared.queue.frontier ++
      (pool.history q.toProblem .whenGenerated actors).handedIn, q.IsDistance n.state n.depth) ∧
    ∀ n, (pool.follow q.toProblem .whenGenerated actors).outcome? = some (some n) →
      ∃ after, finish q.toProblem (pool.follow q.toProblem .whenGenerated actors) (some n) middle =
        .ok (some n.toPath) after ∧ q.IsShortest n.toPath := by
  rw [show Placement.ofBias 1.0 = .tail by decide] at hprepare
  obtain ⟨hstart, hroot⟩ := leveled_of_prepareConcurrent hrecord hprepare
  have hend := hstart.follow hrecord actors
  have hmeasured := hend.measured hstop
  refine ⟨hend.graded.takings, fun n hn => ?_, fun n hout => ?_⟩
  · rw [hroot] at hn
    rcases List.mem_append.1 hn with hn | hn
    · rw [List.mem_singleton.1 hn]
      exact ⟨⟨[], 0, .stay, rfl⟩, fun _ _ _ => Nat.zero_le _⟩
    · exact hmeasured.handedIn n hn
  · obtain ⟨after, hfinish⟩ :=
      exists_finish q (pool.follow q.toProblem .whenGenerated actors) (some n) middle
    obtain ⟨hcounted, hgoal⟩ := hend.counted.of_outcome? hout
    have hslot : (pool.follow q.toProblem .whenGenerated actors).shared.slot.content = .assigned n :=
      hend.watched.orderly.content_of_outcome? hstop hout
    refine ⟨after, hfinish, ⟨n.state, hcounted.genuine, Except.ok.inj hgoal⟩, ?_⟩
    intro ms goal c route hg
    exact hcounted.length.symm ▸ hmeasured.slot n hslot ms goal c route hg

end PoolSearch

namespace Junction

/-- On the detour, the way by the middle has the fewest moves, although it is the dearer one. -/
theorem level_by_level_detour :
    detour.alreadySeen = .record ∧
    PoolSearch.prepareConcurrent detour.toProblem (.ofBias 1.0) ⟨(), [(), ()]⟩ { world := () } =
      .ok levels { world := () } ∧
    (levels.follow detour.toProblem .whenGenerated turns).shared.stopped = false ∧
    (levels.history detour.toProblem .whenGenerated turns).takings.map Node.depth = [0, 1, 1, 2] ∧
    (∀ n ∈ nodes levels.shared.queue.frontier ++
      (levels.history detour.toProblem .whenGenerated turns).handedIn,
        detour.IsDistance n.state n.depth) ∧
    ∃ after goal, (levels.follow detour.toProblem .whenGenerated turns).outcome? = some goal ∧
      PoolSearch.finish detour.toProblem (levels.follow detour.toProblem .whenGenerated turns) goal
        { world := () } = .ok (some ⟨[middle, finish], 6⟩) after ∧
      detour.IsShortest ⟨[middle, finish], 6⟩ := by
  have hprepare : PoolSearch.prepareConcurrent detour.toProblem (.ofBias 1.0) ⟨(), [(), ()]⟩
      { world := () } = .ok levels { world := () } := by
    rw [show Placement.ofBias 1.0 = .tail by decide]
    rfl
  have hrun : (levels.follow detour.toProblem .whenGenerated turns).shared.stopped = false ∧
      (levels.history detour.toProblem .whenGenerated turns).takings.map Node.depth = [0, 1, 1, 2] ∧
      ((levels.follow detour.toProblem .whenGenerated turns).outcome?.map (Option.map Node.toPath)) =
        some (some ⟨[middle, finish], 6⟩) := by decide +kernel
  obtain ⟨hstop, hdepths, houtcome⟩ := hrun
  obtain ⟨-, hdistances, hresult⟩ := PoolSearch.level_by_level rfl hprepare turns hstop
  obtain ⟨goal, hgoal, hpath⟩ := Option.map_eq_some_iff.1 houtcome
  obtain ⟨n, rfl, hn⟩ := Option.map_eq_some_iff.1 hpath
  obtain ⟨after, hfinish, hshortest⟩ := hresult n hgoal
  rw [hn] at hfinish hshortest
  exact ⟨rfl, hprepare, hstop, hdepths, hdistances, after, some n, hgoal, hfinish, hshortest⟩

end Junction

end StateSearch
