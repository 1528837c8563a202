import StateSearch.Proofs.Exhaustive.Course
import StateSearch.Proofs.Pool.Sifting

/-!
# A single worker who folds the states it generates

A worker who claims states when they are generated, and who is alone, expands one node after the other, in
whatever order its frontier hands them out. Between two nodes the record balances as in an exhaustive search
(`Exhaustive.Ledger`), also if one state is recorded for a whole class of them. So the worker is going to find a
goal, if one can be reached, or to find out that none can be (`Pool.Heads.exists_goal`). A search with one such
worker comes to the right answer, wherever it puts its nodes and in whatever order the worker and the one who waits
take their steps (`PoolSearch.exists_lands_folded`).
-/

namespace StateSearch

open StateSearch.Random LawfulFrontier

variable {ω S M F ρ : Type}

/-! ### The queue of a single worker, in any order -/

/-- Nobody but one worker uses the queue, who is busy with a node, or is about to ask for one. -/
structure WorkQueue.Alone [Frontier F (Node S M)] [LawfulFrontier F (Node S M)] (busy : Bool)
    (queue : WorkQueue F) : Prop where
  sound : Sound queue.frontier
  inFlight : queue.inFlight = busy.toNat
  outstanding : queue.outstanding = (nodes queue.frontier).length + busy.toNat
  closed : queue.closed = (!busy && (nodes queue.frontier).isEmpty)

namespace WorkQueue.Alone

variable [Frontier F (Node S M)] [LawfulFrontier F (Node S M)] {queue : WorkQueue F} {frontier : F}
  {n : Node S M}

theorem seed [Coin ρ] (frontier : F) (hs : Sound frontier) (he : nodes frontier = []) (root : Node S M) (coin : ρ) :
    (WorkQueue.seed { frontier } root coin).1.Alone false ∧
      nodes (WorkQueue.seed { frontier } root coin).1.frontier = [root] := by
  have hnodes : nodes (WorkQueue.seed { frontier } root coin).1.frontier = [root] := by
    have hperm : (nodes (WorkQueue.seed { frontier } root coin).1.frontier).Perm (root :: nodes frontier) :=
      nodes_seed hs root coin
    rw [he] at hperm
    exact List.perm_singleton.1 hperm
  refine ⟨⟨sound_seed hs root coin, rfl, ?_, ?_⟩, hnodes⟩
  · rw [hnodes]
    rfl
  · rw [hnodes]
    rfl

theorem take (h : queue.Alone false) (hp : Frontier.pop? queue.frontier = some (n, frontier)) :
    ∃ queue', queue.take false = .taken n queue' ∧ queue'.Alone true ∧ queue'.frontier = frontier := by
  have hlength := (nodes_pop h.sound hp).length_eq
  have hclosed : queue.closed = false := by
    rw [h.closed, List.isEmpty_eq_false_iff.2 (List.ne_nil_of_length_eq_add_one hlength)]
    rfl
  have hcan : queue.canTake = true := by
    unfold canTake
    rw [peek?_eq, hp, h.inFlight]
    rfl
  refine ⟨{ queue with
    frontier, layer := Frontier.layerOf frontier n, inFlight := queue.inFlight + 1 }, ?_,
    ⟨sound_pop h.sound hp, ?_, ?_, hclosed⟩, rfl⟩
  · unfold WorkQueue.take
    rw [hclosed, hcan, hp]
    rfl
  · rw [h.inFlight]
    rfl
  · show queue.outstanding = _
    rw [h.outstanding, hlength]
    rfl

theorem complete [Coin ρ] (h : queue.Alone true) (children : List (Node S M)) (coin : ρ) :
    ∃ queue' coin', queue.complete children coin = .ok ((nodes queue'.frontier).isEmpty, queue', coin') ∧
      queue'.Alone false ∧ (nodes queue'.frontier).Perm (children ++ nodes queue.frontier) := by
  have hflight : queue.inFlight = 1 := h.inFlight
  have houtstanding : queue.outstanding = (nodes queue.frontier).length + queue.inFlight := by
    rw [h.outstanding, hflight]
    rfl
  obtain ⟨⟨exhausted, queue', coin'⟩, hok⟩ :=
    exists_complete_eq_ok h.sound (by rw [hflight]; exact Nat.one_ne_zero) houtstanding children coin
  obtain ⟨hsound, hnodes, hflight', hcount, -, -, hclosed, hexhausted⟩ := complete_eq_ok h.sound hok
  have hidle : queue'.inFlight = 0 := Nat.succ.inj (hflight'.symm.trans hflight)
  obtain rfl : exhausted = (nodes queue'.frontier).isEmpty := by
    rw [Bool.eq_iff_iff, hexhausted, List.isEmpty_iff]
    exact and_iff_left hidle
  refine ⟨queue', coin', hok, ⟨hsound, hidle, ?_, ?_⟩, hnodes⟩
  · rw [hcount, hidle]
    rfl
  · rw [hclosed, h.closed]
    rfl

end WorkQueue.Alone

/-! ### What is still to be done -/

variable [DecidableEq S] [Hashable S]

theorem Arena.precedes_tally (arena : Arena ω) (expanded generated duplicates : Nat) :
    arena.Precedes (arena.tally expanded generated duplicates) := ⟨id, rfl, rfl, rfl⟩

namespace Pool.Heads

open Exhaustive

variable [Frontier F (Node S M)] [Coin ρ] {p : PureProblem S M} {rep : S → S} {arena : Arena ω}
  {n : Node S M} {seen : Std.HashSet S} {queue queue' : WorkQueue F} {frontier : F} {coin : ρ}

/-- The worker tries a move and finds out whether the class it leads to is recorded. -/
theorem screened (hrecord : ∀ s, p.alreadySeen s = .record (rep s)) {goal : Option (Node S M)} {after : Arena ω}
    {tries : Nat} {m : M} {rest : List M} {children : List (Node S M)} (hopen : arena.stopped = false)
    (h : Heads p.toProblem .whenGenerated goal after ⟨.working n
        (if seen.contains (rep (p.applyMove n.state m)) then .discard ⟨tries, rest, children⟩
          else .price ⟨tries, rest, children⟩ m (p.applyMove n.state m)), coin⟩
      ((arena.tally 0 1 0).shared (seen.insert (rep (p.applyMove n.state m))) queue {})) :
    Heads p.toProblem .whenGenerated goal after ⟨.working n (Sweep.next ⟨tries, m :: rest, children⟩), coin⟩
      (arena.shared seen queue {}) := by
  have hrun : (p.alreadySeen (p.applyMove n.state m)).run seen =
      (.ok (seen.contains (rep (p.applyMove n.state m))), seen.insert (rep (p.applyMove n.state m))) := by
    rw [hrecord]
    exact SeenQuery.run_record _ seen
  have hscreen : Heads p.toProblem .whenGenerated goal after
      ⟨.working n (.screen ⟨tries, rest, children⟩ m (p.applyMove n.state m)), coin⟩
      ((arena.tally 0 1 0).shared seen queue {}) :=
    task rfl (Stage.calling_shared (Act.ask_answer _) _) (screenBy hrun h)
  exact begin hopen (Act.ask_answer _) (task rfl rfl hscreen)

/-- The worker tries one move after the other, and makes the nodes that sprout. -/
theorem sprouting (hrecord : ∀ s, p.alreadySeen s = .record (rep s)) (n : Node S M) (tries : Nat)
    (queue : WorkQueue F) (coin : ρ) (moves : List M) (arena : Arena ω) (seen : Std.HashSet S)
    (hopen : arena.stopped = false) :
    ∃ arena', arena.Precedes arena' ∧ arena'.stopped = false ∧ ∀ goal after children,
      Heads p.toProblem .whenGenerated goal after
          ⟨.working n (.report ⟨tries, [], (sprouts p rep n moves seen).1.reverse ++ children⟩), coin⟩
          (arena'.shared (sprouts p rep n moves seen).2 queue {}) →
        Heads p.toProblem .whenGenerated goal after ⟨.working n (Sweep.next ⟨tries, moves, children⟩), coin⟩
          (arena.shared seen queue {}) := by
  induction moves generalizing seen arena with
  | nil => exact ⟨arena, .refl arena, hopen, fun _ _ _ h => h⟩
  | cons m rest ih =>
    simp only [sprouts]
    cases hknown : seen.contains (rep (p.applyMove n.state m)) with
    | true =>
      obtain ⟨arena', hprecedes, hopen', hrest⟩ :=
        ih (arena.tally 0 1 1) (seen.insert (rep (p.applyMove n.state m))) hopen
      refine ⟨arena', (arena.precedes_tally 0 1 1).trans hprecedes, hopen', fun goal after children h => ?_⟩
      refine screened hrecord hopen ?_
      rw [hknown]
      exact task rfl rfl (hrest _ _ _ h)
    | false =>
      obtain ⟨arena', hprecedes, hopen', hrest⟩ :=
        ih (arena.tally 0 1 0) (seen.insert (rep (p.applyMove n.state m))) hopen
      refine ⟨arena', (arena.precedes_tally 0 1 0).trans hprecedes, hopen', fun goal after children h => ?_⟩
      refine screened hrecord hopen ?_
      rw [hknown]
      simp only [Bool.false_eq_true, if_false, List.reverse_cons, List.append_assoc] at h
      exact task rfl (Stage.calling_shared (Act.ask_answer _) _) (hrest _ _ _ h)

variable [LawfulFrontier F (Node S M)]

/-- The worker takes the node that its frontier hands out, counts it, and finds out whether it is a goal. -/
theorem taking {goal : Option (Node S M)} {after : Arena ω} (hopen : arena.stopped = false)
    (hsound : Sound queue.frontier) (hp : Frontier.pop? queue.frontier = some (n, frontier))
    (htake : queue.take false = .taken n queue')
    (h : Heads p.toProblem .whenGenerated goal after
      ⟨afterTask n (if p.isGoal n.state then .goal else .onward (.list (arena.stats.expanded + 1))), coin⟩
      ((arena.tally 1 0 0).shared seen queue' {})) :
    Heads p.toProblem .whenGenerated goal after
      ⟨if (nodes queue.frontier).isEmpty then .exhaust else .idle, coin⟩ (arena.shared seen queue {}) := by
  have htested : Heads p.toProblem .whenGenerated goal after
      ⟨.working n (.test (arena.stats.expanded + 1)), coin⟩ ((arena.tally 1 0 0).shared seen queue' {}) :=
    task rfl (Stage.calling_shared (Act.ask_answer _) _) h
  have hcounted : Heads p.toProblem .whenGenerated goal after ⟨.working n .count, coin⟩
      (arena.shared seen queue' {}) := task rfl rfl htested
  rw [List.isEmpty_eq_false_iff.2 (List.ne_nil_of_length_eq_add_one (nodes_pop hsound hp).length_eq)]
  refine .ahead rfl ?_ hcounted
  simp only [stepWorker, Arena.shared, hopen, htake]
  rfl

/-- The worker expands the node that its frontier hands out and hands in the nodes that sprout. -/
theorem expanding (hrecord : ∀ s, p.alreadySeen s = .record (rep s)) (coin : ρ) (seen : Std.HashSet S)
    (hqueue : queue.Alone false) (hopen : arena.stopped = false)
    (hp : Frontier.pop? queue.frontier = some (n, frontier)) (hgoal : p.isGoal n.state = false) :
    ∃ (arena' : Arena ω) (queue' : WorkQueue F) (coin' : ρ),
      arena.Precedes arena' ∧ arena'.stopped = false ∧ queue'.Alone false ∧
      (nodes queue'.frontier).Perm ((sprouts p rep n (p.legalMoves n.state) seen).1 ++ nodes frontier) ∧
      ∀ goal after, Heads p.toProblem .whenGenerated goal after
          ⟨if (nodes queue'.frontier).isEmpty then .exhaust else .idle, coin'⟩
          (arena'.shared (sprouts p rep n (p.legalMoves n.state) seen).2 queue' {}) →
        Heads p.toProblem .whenGenerated goal after
          ⟨if (nodes queue.frontier).isEmpty then .exhaust else .idle, coin⟩ (arena.shared seen queue {}) := by
  obtain ⟨queue₁, htake, hbusy, rfl⟩ := hqueue.take hp
  obtain ⟨queue₂, coin', hcomplete, hidle, hperm⟩ :=
    hbusy.complete (sprouts p rep n (p.legalMoves n.state) seen).1 coin
  obtain ⟨arena', hprecedes, hopen', hsprouting⟩ := sprouting hrecord n (arena.stats.expanded + 1) queue₁ coin
    (p.legalMoves n.state) (arena.tally 1 0 0) seen hopen
  refine ⟨arena', queue₂, coin', (arena.precedes_tally 1 0 0).trans hprecedes, hopen', hidle, hperm,
    fun goal after h => taking hopen hqueue.sound hp htake ?_⟩
  have hreported : Heads p.toProblem .whenGenerated goal after ⟨.working n (.report
      ⟨arena.stats.expanded + 1, [], (sprouts p rep n (p.legalMoves n.state) seen).1.reverse ++ []⟩), coin⟩
      (arena'.shared (sprouts p rep n (p.legalMoves n.state) seen).2 queue₁ {}) := by
    refine task rfl (Stage.calling_shared (Act.ask_answer _) _) ?_
    rw [List.append_nil, List.reverse_reverse]
    refine judge hopen' (.ahead rfl ?_ h)
    simp only [stepWorker, Arena.shared, hcomplete]
  rw [hgoal]
  exact task rfl (Stage.calling_shared (Act.ask_answer _) _) (hsprouting _ _ _ hreported)

/-- With what is recorded and what waits, the worker is going to find a goal, if one can be reached. -/
theorem exists_goal (hfolds : p.Folds rep) {classes : Finset S} (hclasses : ∀ s, p.Reachable s → rep s ∈ classes)
    (done : List (Node S M)) (seen : Std.HashSet S) (queue : WorkQueue F) (coin : ρ) (arena : Arena ω)
    (hqueue : queue.Alone false) (I : Ledger p rep done seen (nodes queue.frontier))
    (hopen : arena.stopped = false) :
    ∃ goal after, arena.Precedes after ∧ after.stopped = false ∧ (goal.isSome = true ↔ p.Solvable) ∧
      Heads p.toProblem .whenGenerated goal after
        ⟨if (nodes queue.frontier).isEmpty then .exhaust else .idle, coin⟩ (arena.shared seen queue {}) := by
  match hp : Frontier.pop? queue.frontier with
  | none =>
    have hnone := nodes_of_pop?_eq_none hp
    have hclosed := hqueue.closed
    rw [hnone] at I hclosed ⊢
    have hno := I.not_solvable hfolds
    exact ⟨none, arena, .refl arena, hopen, by simpa using hno, exhaust hclosed⟩
  | some (n, frontier) =>
    have htaken := I.of_perm (nodes_pop hqueue.sound hp)
    match hgoal : p.isGoal n.state with
    | true =>
      obtain ⟨queue', htake, -, -⟩ := hqueue.take hp
      have hreachable : p.Reachable n.state := ⟨_, _, htaken.genuine n (by simp)⟩
      refine ⟨some n, _, arena.precedes_tally 1 0 0, hopen, iff_of_true rfl ⟨_, hreachable, hgoal⟩,
        taking hopen hqueue.sound hp htake ?_⟩
      rw [hgoal]
      exact announce
    | false =>
      obtain ⟨arena', queue', coin', hprecedes, hopen', hqueue', hperm, hexpanding⟩ :=
        expanding hfolds.record coin seen hqueue hopen hp hgoal
      have I' := (htaken.expand hgoal rfl).of_perm (List.perm_append_comm.trans hperm.symm)
      obtain ⟨goal, after, hafter, hstopped, hsolvable, hheads⟩ :=
        exists_goal hfolds hclasses _ _ queue' coin' arena' hqueue' I' hopen'
      exact ⟨goal, after, hprecedes.trans hafter, hstopped, hsolvable, hexpanding _ _ hheads⟩
-- One more of the states that can be reached has been expanded.
termination_by classes.card - done.length
decreasing_by
  have hle := htaken.length_le hclasses
  rw [List.length_append, List.length_cons] at hle
  rw [List.length_append, List.length_singleton]
  omega

end Pool.Heads

/-! ### Searches -/

namespace PoolSearch

open Exhaustive

variable [Coin ρ] {p : PureProblem S M} {rep : S → S} {world : ω}

/-- With finitely many reachable states, a search with one worker that claims states when they are generated
finds a path, or finds out that there is none, also if it folds states that are alike. -/
theorem exists_lands_folded (hfolds : p.Folds rep) (hfinite : {s | p.Reachable s}.Finite) (placement : Placement)
    (plan : Plan ρ) {coin : ρ} (hcoins : plan.coins = [coin]) :
    ∃ pool path final, prepareConcurrent p.toProblem placement plan { world, stats := { workers := 1 } } =
        .ok pool { world, stats := { workers := 1 } } ∧
      Lands p.toProblem .whenGenerated pool { world, stats := { workers := 1 } } path final ∧
      final.faults = [] ∧ (path.isSome = true ↔ p.Solvable) := by
  have hinquire : Act.inquire p.toProblem p.initial (∅ : Std.HashSet S) { world, stats := { workers := 1 } } =
      .ok (false, record p rep) { world, stats := { workers := 1 } } :=
    Act.inquire_eq (o := .deaf)
      (by rw [hfolds.record, SeenQuery.run_record, Std.HashSet.contains_empty]; rfl)
  have hprepare : prepareConcurrent p.toProblem placement plan { world, stats := { workers := 1 } } =
      .ok (Pool.start (Arena.shared { world, stats := { workers := 1 } } (record p rep)
        (WorkQueue.seed { frontier := { placement } } (.root p.initial 0) plan.first).1 {}) plan.coins)
        { world, stats := { workers := 1 } } := Act.bind_eq hinquire
  obtain ⟨hqueue, hroot⟩ := WorkQueue.Alone.seed ({ placement } : BiasedDeque S M) trivial rfl
    (.root p.initial 0) plan.first
  have I : Ledger p rep [] (record p rep) [.root p.initial 0] := .start p rep
  rw [← hroot] at I
  have hclasses : ∀ s, p.Reachable s → rep s ∈ hfinite.toFinset.image rep := fun s hs =>
    Finset.mem_image_of_mem rep (hfinite.mem_toFinset.2 hs)
  obtain ⟨goal, after, hafter, hopen, hsolvable, hheads⟩ :=
    Pool.Heads.exists_goal hfolds hclasses [] _ _ coin { world, stats := { workers := 1 } } hqueue I rfl
  obtain ⟨final, hconclude, -⟩ := Act.exists_conclude_eq (p := p) .deaf goal after
  have hfaults : final.faults = [] := by
    rw [(Act.Keeps.conclude_faults _ _).of_eq_ok hconclude]
    exact hafter.faults
  rw [hroot] at hheads
  refine ⟨_, _, final, hprepare, lands_of_aligned rfl hafter hopen hconclude
    ⟨(isFresh_of_prepareConcurrent hprepare).1.orderly, ⟨.idle, coin⟩, ?_, hheads⟩, hfaults, ?_⟩
  · rw [hcoins]
    rfl
  · rwa [Option.isSome_map]

end PoolSearch

end StateSearch
