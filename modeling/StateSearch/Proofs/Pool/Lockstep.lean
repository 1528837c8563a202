import StateSearch.Proofs.Exhaustive
import StateSearch.Proofs.Pool.Failures

/-!
# An exhaustive search in small steps

With one worker, the search that claims states when they are generated is an exhaustive search in small
steps: breadth-first if every new node goes to the tail of the queue, depth-first if every new node goes to
the head. Whatever the problem is told and asked, it is told and asked in the same order.

`Pool.Heads` says that the worker, left to itself, does what is still to be done of an exhaustive search.
It is built up backwards along that search (`Pool.Heads.explore`, `Pool.Heads.turn`, `Pool.Heads.run`).
-/

namespace StateSearch

open StateSearch.Random

variable {ω S M F ρ α β : Type}

/-! ### What an exhaustive search leaves alone -/

/-- The later arena differs in nothing but the world, the counters and the stop flag, and nobody has
lowered that flag. -/
structure Arena.Precedes (arena after : Arena ω) : Prop where
  stopped : after.stopped = false → arena.stopped = false
  cost : after.stats.cost = arena.stats.cost
  workers : after.stats.workers = arena.stats.workers
  faults : after.faults = arena.faults

theorem Arena.Precedes.refl (arena : Arena ω) : arena.Precedes arena :=
  ⟨id, rfl, rfl, rfl⟩

theorem Arena.Precedes.trans {arena middle after : Arena ω} (h : arena.Precedes middle)
    (h' : middle.Precedes after) : arena.Precedes after :=
  ⟨h.stopped ∘ h'.stopped, h'.cost.trans h.cost, h'.workers.trans h.workers, h'.faults.trans h.faults⟩

namespace Act

/-- Where the act succeeds, it does no more to the arena than a search does. -/
def Advances (act : Act ω α) : Prop :=
  ∀ arena value after, act arena = .ok value after → arena.Precedes after

namespace Advances

theorem pure (value : α) : Advances (Pure.pure value : Act ω α) := by
  intro arena value' after h
  cases h
  exact .refl _

theorem bind {act : Act ω α} {next : α → Act ω β} (h : act.Advances)
    (hn : ∀ value, (next value).Advances) : (act >>= next).Advances := by
  intro arena value after hr
  obtain ⟨between, middle, ha, hb⟩ := of_bind_eq_ok hr
  exact (h _ _ _ ha).trans (hn _ _ _ _ hb)

theorem ask (call : Call ω α) : (Act.ask call).Advances := by
  intro arena value after h
  unfold Act.ask at h
  dsimp only at h
  split at h <;> cases h
  exact ⟨fun hs => (Bool.or_eq_false_iff.1 hs).1, rfl, rfl, rfl⟩

theorem inquire {σ : Type} [SeenSet σ S] (p : Problem ω S M) (s : S) (seen : σ) :
    (Act.inquire p s seen).Advances := by
  refine bind (ask _) fun query => ?_
  intro arena value after h
  rcases hr : query.run seen with ⟨_ | known, seen'⟩ <;> rw [hr] at h <;> cases h
  exact .refl _

theorem isStopped : (Act.isStopped : Act ω Bool).Advances := by
  intro arena value after h
  cases h
  exact .refl _

theorem countExpanded : (Act.countExpanded : Act ω Nat).Advances := by
  intro arena value after h
  unfold Act.countExpanded at h
  split at h <;> cases h
  exact ⟨id, rfl, rfl, rfl⟩

theorem countGenerated : (Act.countGenerated : Act ω Unit).Advances := by
  intro arena value after h
  unfold Act.countGenerated at h
  split at h <;> cases h
  exact ⟨id, rfl, rfl, rfl⟩

theorem countDuplicate : (Act.countDuplicate : Act ω Unit).Advances := by
  intro arena value after h
  unfold Act.countDuplicate at h
  split at h <;> cases h
  exact ⟨id, rfl, rfl, rfl⟩

end Advances

end Act

namespace Exhaustive

open Act

variable [DecidableEq S] [Hashable S] {d : Discipline} {p : Problem ω S M}

theorem explore_advances (p : Problem ω S M) (n : Node S M) (moves : List M) (seen : Std.HashSet S)
    (waiting : Deque (Node S M)) : (explore p n moves seen waiting).Advances := by
  induction moves generalizing seen waiting with
  | nil => exact .pure _
  | cons m rest ih =>
    refine .bind (.ask _) fun t => .bind .countGenerated fun _ => .bind (.inquire _ _ _) fun (known, seen) => ?_
    cases known
    · exact .bind (.ask _) fun _ => ih _ _
    · exact .bind .countDuplicate fun _ => ih _ _

theorem turn_advances (d : Discipline) (p : Problem ω S M) (seen : Std.HashSet S)
    (waiting : Deque (Node S M)) : (turn d p seen waiting).Advances := by
  unfold turn
  cases d.take? waiting with
  | none => exact .pure _
  | some taken =>
    refine .bind .isStopped fun stopped => ?_
    cases stopped
    · refine .bind .countExpanded fun _ => .bind (.ask _) fun reached => ?_
      cases reached
      · refine .bind (.ask _) fun moves => .bind (explore_advances _ _ _ _ _) fun _ => ?_
        exact .bind (.ask _) fun _ => .pure _
      · exact .pure _
    · exact .pure _

theorem run_advances (d : Discipline) (p : Problem ω S M) (seen : Std.HashSet S)
    (waiting : Deque (Node S M)) : (run d p seen waiting).Advances := by
  intro arena goal after h
  have hwp : wp (run d p seen waiting) (fun _ after => arena.Precedes after) (fun _ _ => True) arena := by
    refine wp_run (I := fun _ _ middle => arena.Precedes middle) (fun seen waiting middle hm => ?_) (.refl _)
    refine wp_of_forall_ok fun result after hr => ?_
    have hafter := hm.trans (turn_advances d p seen waiting _ _ _ hr)
    cases result <;> exact hafter
  exact hwp.of_eq_ok h

end Exhaustive

/-! ### The queue of a discipline -/

namespace Discipline

/-- Where new nodes have to go for the node that is next to be at the head. -/
def placement : Discipline → Placement
  | depthFirst => .byChance 0
  | breadthFirst => .tail

/-- The probability of the tail. -/
def bias : Discipline → Float
  | depthFirst => 0.0
  | breadthFirst => 1.0

theorem ofBias_bias (d : Discipline) : Placement.ofBias d.bias = d.placement := by
  cases d <;> decide

/-- The nodes that wait in the order in which they are taken. -/
def arrange : Discipline → List α → List α
  | depthFirst, entries => entries.reverse
  | breadthFirst, entries => entries

theorem arrange_eq_nil {d : Discipline} {entries : List α} : d.arrange entries = [] ↔ entries = [] := by
  cases d with
  | depthFirst => exact List.reverse_eq_nil_iff
  | breadthFirst => exact Iff.rfl

theorem length_arrange (d : Discipline) (entries : List α) :
    (d.arrange entries).length = entries.length := by
  cases d with
  | depthFirst => exact List.length_reverse
  | breadthFirst => rfl

theorem arrange_of_take? {d : Discipline} {waiting rest : Deque α} {entry : α}
    (h : d.take? waiting = some (entry, rest)) :
    d.arrange waiting.toList = entry :: d.arrange rest.toList := by
  cases d with
  | depthFirst =>
    show waiting.toList.reverse = entry :: rest.toList.reverse
    rw [Deque.toList_of_popBack? h, List.reverse_append]
    rfl
  | breadthFirst => exact Deque.toList_of_popFront? h

theorem isEmpty_of_take? {d : Discipline} {waiting rest : Deque α} {entry : α}
    (h : d.take? waiting = some (entry, rest)) : waiting.toList.isEmpty = false := by
  cases hw : waiting.toList with
  | nil => cases (hw ▸ toList_of_take? h).nil_eq
  | cons first others => rfl

theorem toList_of_take?_eq_none {d : Discipline} {waiting : Deque α} (h : d.take? waiting = none) :
    waiting.toList = [] := by
  cases d with
  | depthFirst =>
    have hback := waiting.map_popBack?
    rw [show waiting.popBack? = none from h] at hback
    cases hl : waiting.toList.reverse with
    | nil => exact List.reverse_eq_nil_iff.1 hl
    | cons last others => rw [hl] at hback; cases hback
  | breadthFirst => exact Deque.popFront?_eq_none h

end Discipline

theorem BiasedDeque.pushAll_arrange [Coin ρ] {d : Discipline} {queue : BiasedDeque S M}
    {waiting : List (Node S M)} (hplacement : queue.placement = d.placement)
    (hnodes : LawfulFrontier.nodes queue = d.arrange waiting)
    (hblind : ∀ coin : ρ, (Coin.toss 0 coin).1 = false) (ns : List (Node S M)) (coin : ρ) :
    LawfulFrontier.nodes (Frontier.pushAll queue ns coin).1 = d.arrange (waiting ++ ns) ∧
      (Frontier.pushAll queue ns coin).1.placement = d.placement := by
  cases d with
  | depthFirst =>
    obtain ⟨hpushed, hkept⟩ := pushAll_head hplacement hblind ns coin
    refine ⟨?_, hkept⟩
    rw [hpushed, hnodes]
    exact List.reverse_append.symm
  | breadthFirst =>
    obtain ⟨hpushed, hkept⟩ := pushAll_tail hplacement ns coin
    refine ⟨?_, hkept⟩
    rw [hpushed, hnodes]
    rfl

/-- The queue holds the nodes that wait in an exhaustive search. The worker is busy with one more node,
or is about to ask for one. -/
structure WorkQueue.Serves (d : Discipline) (busy : Bool) (waiting : List (Node S M))
    (queue : WorkQueue (BiasedDeque S M)) : Prop where
  placement : queue.frontier.placement = d.placement
  nodes : LawfulFrontier.nodes queue.frontier = d.arrange waiting
  inFlight : queue.inFlight = busy.toNat
  outstanding : queue.outstanding = waiting.length + busy.toNat
  closed : queue.closed = (!busy && waiting.isEmpty)

namespace WorkQueue.Serves

variable {d : Discipline} {waiting : List (Node S M)} {queue : WorkQueue (BiasedDeque S M)}

theorem seed [Coin ρ] (hblind : ∀ coin : ρ, (Coin.toss 0 coin).1 = false) (d : Discipline)
    (root : Node S M) (coin : ρ) :
    (WorkQueue.seed { frontier := { placement := d.placement } } root coin).1.Serves d false [root] := by
  have hnil : LawfulFrontier.nodes ({ placement := d.placement } : BiasedDeque S M) = d.arrange [] :=
    (Discipline.arrange_eq_nil.2 rfl).symm
  obtain ⟨hnodes, hplacement⟩ := BiasedDeque.pushAll_arrange rfl hnil hblind [root] coin
  exact ⟨hplacement, hnodes, rfl, rfl, rfl⟩

theorem take {waiting rest : Deque (Node S M)} {n : Node S M} (h : queue.Serves d false waiting.toList)
    (ht : d.take? waiting = some (n, rest)) :
    ∃ queue', queue.take false = .taken n queue' ∧ queue'.Serves d true rest.toList := by
  have hlist := h.nodes.trans (Discipline.arrange_of_take? ht)
  have hlength : waiting.toList.length = rest.toList.length + 1 :=
    (Discipline.toList_of_take? ht).length_eq
  have hempty := Discipline.isEmpty_of_take? ht
  obtain ⟨first, frontier, hpop⟩ : ∃ first frontier,
      Frontier.pop? queue.frontier = some (first, frontier) := by
    cases hp : Frontier.pop? queue.frontier with
    | none => cases (LawfulFrontier.nodes_of_pop?_eq_none hp).symm.trans hlist
    | some taken => exact ⟨_, _, rfl⟩
  obtain ⟨hhead, hplacement⟩ := BiasedDeque.pop?_eq_some hpop
  obtain ⟨rfl, hrest⟩ := List.cons.inj (hhead.symm.trans hlist)
  refine ⟨{ queue with
    frontier, layer := Frontier.layerOf frontier first, inFlight := queue.inFlight + 1 }, ?_, ?_⟩
  · have hcan : queue.canTake = true := by
      unfold canTake
      rw [LawfulFrontier.peek?_eq, hpop, h.inFlight]
      rfl
    unfold WorkQueue.take
    rw [h.closed, hempty, hcan, hpop]
    rfl
  · refine ⟨hplacement.trans h.placement, hrest, ?_, ?_, ?_⟩
    · rw [h.inFlight]
      rfl
    · show queue.outstanding = _
      rw [h.outstanding, hlength]
      rfl
    · show queue.closed = _
      rw [h.closed, hempty]
      rfl

theorem complete [Coin ρ] (h : queue.Serves d true waiting)
    (hblind : ∀ coin : ρ, (Coin.toss 0 coin).1 = false) (children : List (Node S M)) (coin : ρ) :
    ∃ queue' coin', queue.complete children coin = .ok ((waiting ++ children).isEmpty, queue', coin') ∧
      queue'.Serves d false (waiting ++ children) := by
  obtain ⟨hnodes, hplacement⟩ := BiasedDeque.pushAll_arrange h.placement h.nodes hblind children coin
  have hflight : queue.inFlight = 1 := h.inFlight
  have houtstanding : queue.outstanding =
      (LawfulFrontier.nodes queue.frontier).length + queue.inFlight := by
    rw [h.nodes, Discipline.length_arrange, hflight]
    exact h.outstanding
  obtain ⟨⟨exhausted, queue', coin'⟩, hok⟩ :=
    exists_complete_eq_ok trivial (by rw [hflight]; exact Nat.one_ne_zero) houtstanding children coin
  obtain ⟨-, -, hflight', hcount, -, -, hclosed, hexhausted⟩ := complete_eq_ok trivial hok
  have hidle : queue'.inFlight = 0 := Nat.succ.inj (hflight'.symm.trans hflight)
  rw [← frontier_of_complete hok] at hnodes hplacement
  obtain rfl : exhausted = (waiting ++ children).isEmpty := by
    rw [Bool.eq_iff_iff, hexhausted, hnodes, Discipline.arrange_eq_nil, List.isEmpty_iff]
    exact and_iff_left hidle
  refine ⟨queue', coin', hok, hplacement, hnodes, hidle, ?_, ?_⟩
  · rw [hcount, hnodes, Discipline.length_arrange, hidle]
    rfl
  · rw [hclosed, h.closed]
    rfl

end WorkQueue.Serves

/-! ### What is still to be done -/

/-- Whether a worker has nothing left to do but to go home, once the outcome is known. -/
def Phase.IsLeaving (closed : Bool) : Phase S M → Prop
  | close _ | ended => True
  | complete _ children => children = [] ∧ closed = true
  | idle | exhaust => closed = true
  | _ => False

theorem Phase.IsLeaving.of_close {closed : Bool} {phase : Phase S M} (h : phase.IsLeaving closed) :
    phase.IsLeaving true := by
  cases phase with
  | complete n children => exact ⟨h.1, rfl⟩
  | idle | exhaust => rfl
  | close | ended => trivial
  | _ => exact h

/-- How many steps a worker who is about to go home still takes. -/
def Phase.wayHome : Phase S M → Nat
  | close _ => 4
  | complete .. => 3
  | exhaust => 2
  | idle => 1
  | _ => 0

variable [DecidableEq S] [Hashable S]

/-- What the workers of a pool share, if the search they do has come as far as in this arena. -/
def Arena.shared (arena : Arena ω) (seen : Std.HashSet S) (queue : WorkQueue F)
    (slot : Slot (Node S M)) : Shared ω S M F where
  world := arena.world
  stopped := arena.stopped
  queue
  seen
  slot
  expanded := arena.stats.expanded
  generated := arena.stats.generated
  duplicates := arena.stats.duplicates

section

variable {arena arena' : Arena ω} {seen : Std.HashSet S} {queue : WorkQueue F}

theorem Stage.calling_shared {call : Call ω α} {value : α} (h : Act.ask call arena = .ok value arena')
    (onward : α → Progress S M) :
    Stage.calling call (arena.shared seen queue {}) onward =
      (onward value, arena'.shared seen queue {}) := by
  unfold Act.ask at h
  dsimp only at h
  split at h <;> cases h
  rename_i hr
  simp only [Stage.calling, Shared.ask, Arena.shared, hr]

theorem Act.count_of_countExpanded {count : Nat} (h : countExpanded arena = .ok count arena') :
    count = arena.stats.expanded + 1 := by
  unfold countExpanded at h
  split at h <;> cases h
  exact (Stats.increment_eq_ok ‹_›).1

theorem Act.shared_of_countExpanded {count : Nat} (h : countExpanded arena = .ok count arena') :
    ({ arena.shared seen queue {} with expanded := arena.stats.expanded + 1 } : Shared ω S M F) =
      arena'.shared seen queue {} := by
  unfold countExpanded at h
  split at h <;> cases h
  rename_i hi
  rw [(Stats.increment_eq_ok hi).1]
  rfl

theorem Act.shared_of_countGenerated (h : countGenerated arena = .ok () arena') :
    ({ arena.shared seen queue {} with generated := arena.stats.generated + 1 } : Shared ω S M F) =
      arena'.shared seen queue {} := by
  unfold countGenerated at h
  split at h <;> cases h
  rename_i hi
  rw [(Stats.increment_eq_ok hi).1]
  rfl

theorem Act.shared_of_countDuplicate (h : countDuplicate arena = .ok () arena') :
    ({ arena.shared seen queue {} with duplicates := arena.stats.duplicates + 1 } : Shared ω S M F) =
      arena'.shared seen queue {} := by
  unfold countDuplicate at h
  split at h <;> cases h
  rename_i hi
  rw [(Stats.increment_eq_ok hi).1]
  rfl

end

namespace Pool

/-- The search is over, and the worker is about to go home. -/
inductive Leaves (goal : Option (Node S M)) (after : Arena ω) (w : Worker S M ρ) :
    Shared ω S M F → Prop
  | intro {seen : Std.HashSet S} {queue : WorkQueue F} {slot : Slot (Node S M)}
      (resolved : slot.resolution? = some goal) (leaving : w.phase.IsLeaving queue.closed) :
    Leaves goal after w (after.shared seen queue slot)

section

variable [Frontier F (Node S M)] [Coin ρ]

/-- If nobody interferes, the worker is going to find this goal and leave this arena behind. -/
inductive Heads (p : Problem ω S M) (claiming : Claiming) (goal : Option (Node S M)) (after : Arena ω) :
    Worker S M ρ → Shared ω S M F → Prop
  | here {w : Worker S M ρ} {shared : Shared ω S M F} (h : Leaves goal after w shared) :
    Heads p claiming goal after w shared
  | ahead {w w' : Worker S M ρ} {shared shared' : Shared ω S M F} (pending : shared.slot.content = .pending)
      (step : stepWorker p claiming 0 w shared = some (w', shared'))
      (h : Heads p claiming goal after w' shared') : Heads p claiming goal after w shared

namespace Heads

variable {p : Problem ω S M} {claiming : Claiming} {goal : Option (Node S M)}
  {after arena arena' : Arena ω} {n : Node S M} {seen seen' : Std.HashSet S} {queue : WorkQueue F} {coin : ρ}

theorem task {stage : Stage S M} {progress : Progress S M} {shared shared' : Shared ω S M F}
    (hpending : shared.slot.content = .pending)
    (hstep : stage.step p claiming n shared = (progress, shared'))
    (h : Heads p claiming goal after ⟨afterTask n progress, coin⟩ shared') :
    Heads p claiming goal after ⟨.working n stage, coin⟩ shared := by
  refine .ahead hpending ?_ h
  simp only [stepWorker, hstep]

theorem screenBy {sweep : Sweep S M} {m : M} {t : S} {query : SeenQuery S} {known : Bool}
    (hrun : query.run seen = (.ok known, seen'))
    (h : Heads p claiming goal after ⟨.working n (if known then .discard sweep else .price sweep m t), coin⟩
      (arena.shared seen' queue {})) :
    Heads p claiming goal after ⟨.working n (.screenBy sweep m t query), coin⟩
      (arena.shared seen queue {}) := by
  -- The conversation is held one question at a time.
  induction query generalizing seen with
  | answer answer =>
    cases hrun
    cases known <;> exact task rfl rfl h
  | fail fault => cases hrun
  | insert s next ih => exact task rfl rfl (ih _ hrun)
  | contains s next ih => exact task rfl rfl (ih _ hrun)
  | size next ih => exact task rfl rfl (ih _ hrun)

/-- Nobody keeps the worker from trying the next move. -/
theorem begin {m : M} {rest : List M} {t : S} {tries : Nat} {children : List (Node S M)}
    (hopen : arena.stopped = false) (happly : Act.ask (p.applyMove n.state m) arena = .ok t arena')
    (h : Heads p claiming goal after ⟨.working n (.generate ⟨tries, rest, children⟩ m t), coin⟩
      (arena'.shared seen queue {})) :
    Heads p claiming goal after ⟨.working n (Sweep.next ⟨tries, m :: rest, children⟩), coin⟩
      (arena.shared seen queue {}) := by
  have hlook : Stage.step p claiming n (arena.shared seen queue {})
      (.lookAtStop ⟨tries, rest, children⟩ m) =
        (.onward (.apply ⟨tries, rest, children⟩ m), arena.shared seen queue {}) := by
    simp only [Stage.step, Arena.shared, hopen]
    rfl
  exact task rfl rfl (task rfl hlook (task rfl (Stage.calling_shared happly _) h))

/-- Nobody keeps the worker from handing in what it found. -/
theorem judge {children : List (Node S M)} (hopen : arena.stopped = false)
    (h : Heads p claiming goal after ⟨.complete n children, coin⟩ (arena.shared seen queue {})) :
    Heads p claiming goal after ⟨.judgeFlag n children, coin⟩ (arena.shared seen queue {}) := by
  refine .ahead rfl rfl (.ahead rfl ?_ h)
  simp only [stepWorker, Arena.shared, hopen]
  rfl

/-- The nodes that an expansion adds to those that wait are the ones that the worker hands in. -/
theorem explore (goal : Option (Node S M)) (after : Arena ω) (queue : WorkQueue F) (coin : ρ) (tries : Nat)
    {moves : List M} {waiting waiting' : Deque (Node S M)}
    (hrun : Exhaustive.explore p n moves seen waiting arena = .ok (seen', waiting') arena')
    (hstop : arena'.stopped = false) :
    ∃ made, waiting'.toList = waiting.toList ++ made ∧ ∀ children,
      Heads p .whenGenerated goal after ⟨.working n (.report ⟨tries, [], made.reverse ++ children⟩), coin⟩
        (arena'.shared seen' queue {}) →
      Heads p .whenGenerated goal after ⟨.working n (Sweep.next ⟨tries, moves, children⟩), coin⟩
        (arena.shared seen queue {}) := by
  -- The sweep lists its nodes with the latest first, and so `made` is reversed in front of `children`.
  induction moves generalizing seen waiting arena with
  | nil =>
    cases hrun
    exact ⟨[], (List.append_nil _).symm, fun children h => h⟩
  | cons m rest ih =>
    have hopen : arena.stopped = false := (Exhaustive.explore_advances _ _ _ _ _ _ _ _ hrun).stopped hstop
    obtain ⟨t, arena₁, happly, hrun⟩ := Act.of_bind_eq_ok hrun
    obtain ⟨⟨⟩, arena₂, hcount, hrun⟩ := Act.of_bind_eq_ok hrun
    obtain ⟨⟨known, seen₃⟩, arena₃, hinquire, hrun⟩ := Act.of_bind_eq_ok hrun
    obtain ⟨query, hquery, hanswer⟩ := Act.of_inquire_eq_ok hinquire
    have hbegin : ∀ children, Heads p .whenGenerated goal after ⟨.working n
          (if known then .discard ⟨tries, rest, children⟩ else .price ⟨tries, rest, children⟩ m t), coin⟩
          (arena₃.shared seen₃ queue {}) →
        Heads p .whenGenerated goal after ⟨.working n (Sweep.next ⟨tries, m :: rest, children⟩), coin⟩
          (arena.shared seen queue {}) := by
      intro children h
      have hscreen : Heads p .whenGenerated goal after
          ⟨.working n (.screen ⟨tries, rest, children⟩ m t), coin⟩ (arena₂.shared seen queue {}) :=
        task rfl (Stage.calling_shared hquery _) (screenBy hanswer h)
      rw [← Act.shared_of_countGenerated hcount] at hscreen
      exact begin hopen happly (task rfl rfl hscreen)
    cases known with
    | true =>
      obtain ⟨⟨⟩, arena₄, hduplicate, hrun⟩ := Act.of_bind_eq_ok hrun
      obtain ⟨made, hmade, hrest⟩ := ih hrun
      refine ⟨made, hmade, fun children h => hbegin children (task rfl rfl ?_)⟩
      have hnext := hrest children h
      rw [← Act.shared_of_countDuplicate hduplicate] at hnext
      exact hnext
    | false =>
      obtain ⟨step, arena₄, hcost, hrun⟩ := Act.of_bind_eq_ok hrun
      obtain ⟨made, hmade, hrest⟩ := ih hrun
      refine ⟨n.child t m step 0 :: made, ?_, fun children h => ?_⟩
      · rw [hmade, Deque.toList_pushBack, List.append_assoc]
        rfl
      · rw [List.reverse_cons, List.append_assoc] at h
        exact hbegin children (task rfl (Stage.calling_shared hcost _) (hrest _ h))

/-! ### One turn, and a whole search -/

theorem exhaust {queue : WorkQueue F} (hclosed : queue.closed = true) :
    Heads p claiming none after ⟨.exhaust, coin⟩ (after.shared seen queue {}) :=
  .ahead rfl rfl (.here (.intro rfl hclosed))

theorem announce {queue : WorkQueue F} :
    Heads p claiming (some n) after ⟨.announce n, coin⟩ (after.shared seen queue {}) :=
  .ahead rfl rfl (.ahead rfl rfl (.here (.intro rfl trivial)))

/-- Between two turns of the search, whatever the queue and the coin look like. -/
def Ready (d : Discipline) (p : Problem ω S M) (goal : Option (Node S M)) (after : Arena ω) (ρ : Type)
    [Coin ρ] (seen : Std.HashSet S) (waiting : List (Node S M)) (arena : Arena ω) : Prop :=
  ∀ (queue : WorkQueue (BiasedDeque S M)) (coin : ρ), queue.Serves d false waiting →
    Heads p .whenGenerated goal after ⟨if waiting.isEmpty then .exhaust else .idle, coin⟩
      (arena.shared seen queue {})

variable {d : Discipline} {queue : WorkQueue (BiasedDeque S M)}
  (hblind : ∀ coin : ρ, (Coin.toss 0 coin).1 = false)

include hblind in
theorem handIn {waiting children : List (Node S M)} (hqueue : queue.Serves d true waiting)
    (hopen : arena.stopped = false) (h : Ready d p goal after ρ seen (waiting ++ children) arena) :
    Heads p .whenGenerated goal after ⟨.judgeFlag n children, coin⟩ (arena.shared seen queue {}) := by
  obtain ⟨queue', coin', hcomplete, hqueue'⟩ := hqueue.complete hblind children coin
  refine judge hopen (.ahead rfl ?_ (h queue' coin' hqueue'))
  simp only [stepWorker, Arena.shared, hcomplete]

include hblind in
theorem expand {waiting : Deque (Node S M)} {result : Exhaustive.Turn S M}
    (hqueue : queue.Serves d true waiting.toList)
    (hrun : Exhaustive.expand p n seen waiting arena = .ok result arena') (hstop : arena'.stopped = false)
    (hrest : result.Ends (fun seen waiting => Ready d p goal after ρ seen waiting.toList)
      (fun goal' after' => goal' = goal ∧ after' = after) arena') :
    Heads p .whenGenerated goal after ⟨.working n .count, coin⟩ (arena.shared seen queue {}) := by
  obtain ⟨tries, arena₁, hcount, hrun⟩ := Act.of_bind_eq_ok hrun
  obtain ⟨reached, arena₂, hgoal, hrun⟩ := Act.of_bind_eq_ok hrun
  obtain rfl := Act.count_of_countExpanded hcount
  have hbegin : Heads p .whenGenerated goal after ⟨afterTask n (if reached then .goal else
      .onward (.list (arena.stats.expanded + 1))), coin⟩ (arena₂.shared seen queue {}) := by
    cases reached with
    | true =>
      cases hrun
      obtain ⟨rfl, rfl⟩ := hrest
      exact announce
    | false =>
      obtain ⟨moves, arena₃, hmoves, hrun⟩ := Act.of_bind_eq_ok hrun
      obtain ⟨⟨seen', waiting'⟩, arena₄, hexplore, hrun⟩ := Act.of_bind_eq_ok hrun
      obtain ⟨⟨⟩, arena₅, hreport, hrun⟩ := Act.of_bind_eq_ok hrun
      cases hrun
      have hopen := (Act.Advances.ask _ _ _ _ hreport).stopped hstop
      obtain ⟨made, hmade, hlist⟩ := explore goal after queue coin _ hexplore hopen
      refine task rfl (Stage.calling_shared hmoves _) (hlist [] (task rfl (Stage.calling_shared hreport _) ?_))
      show Heads p .whenGenerated goal after ⟨.judgeFlag n (made.reverse ++ []).reverse, coin⟩ _
      rw [List.append_nil, List.reverse_reverse]
      exact handIn hblind hqueue hstop (hmade ▸ hrest)
  have htested : Heads p .whenGenerated goal after ⟨.working n (.test (arena.stats.expanded + 1)), coin⟩
      (arena₁.shared seen queue {}) :=
    task rfl (Stage.calling_shared hgoal _) hbegin
  rw [← Act.shared_of_countExpanded hcount] at htested
  exact task rfl rfl htested

include hblind in
theorem turn {waiting : Deque (Node S M)} {result : Exhaustive.Turn S M}
    (hrun : Exhaustive.turn d p seen waiting arena = .ok result arena') (hstop : arena'.stopped = false)
    (hrest : result.Ends (fun seen waiting => Ready d p goal after ρ seen waiting.toList)
      (fun goal' after' => goal' = goal ∧ after' = after) arena') :
    Ready d p goal after ρ seen waiting.toList arena := by
  intro queue coin hqueue
  have hopen := (Exhaustive.turn_advances d p seen waiting _ _ _ hrun).stopped hstop
  unfold Exhaustive.turn at hrun
  cases ht : d.take? waiting with
  | none =>
    rw [ht] at hrun
    cases hrun
    obtain ⟨rfl, rfl⟩ := hrest
    have hclosed := hqueue.closed
    rw [Discipline.toList_of_take?_eq_none ht] at hclosed ⊢
    exact exhaust hclosed
  | some taken =>
    obtain ⟨n, rest⟩ := taken
    obtain ⟨queue', htake, hqueue'⟩ := hqueue.take ht
    rw [ht] at hrun
    obtain ⟨stopped, _, hask, hrun⟩ := Act.of_bind_eq_ok hrun
    cases hask
    rw [hopen] at hrun
    have hexpand : Heads p .whenGenerated goal after ⟨.working n .count, coin⟩ (arena.shared seen queue' {}) :=
      expand hblind hqueue' hrun hstop hrest
    rw [Discipline.isEmpty_of_take? ht]
    refine .ahead rfl ?_ hexpand
    simp only [stepWorker, Arena.shared, hopen, htake]
    rfl

include hblind in
theorem run {waiting : Deque (Node S M)} (hrun : Exhaustive.run d p seen waiting arena = .ok goal after)
    (hstop : after.stopped = false) : Ready d p goal after ρ seen waiting.toList arena := by
  -- The last turn is where the worker comes to its goal, and each turn before leads to the next one.
  induction seen, waiting, arena using Exhaustive.run.induct d p with
  | case1 seen waiting arena seen' waiting' arena' ht _ ih =>
    rw [Exhaustive.run_eq, ht] at hrun
    have hopen := (Exhaustive.run_advances d p seen' waiting' _ _ _ hrun).stopped hstop
    exact turn hblind ht hopen (ih hrun)
  | case2 seen waiting arena n arena' ht =>
    rw [Exhaustive.run_eq, ht] at hrun
    cases hrun
    exact turn hblind ht hstop ⟨rfl, rfl⟩
  | case3 seen waiting arena result arena' hn hf ht =>
    rw [Exhaustive.run_eq, ht] at hrun
    cases result with
    | onward => exact absurd rfl (hn _ _)
    | found => exact absurd rfl (hf _)
    | exhausted | stopped =>
      cases hrun
      exact turn hblind ht hstop ⟨rfl, rfl⟩
  | case4 seen waiting arena fault arena' ht =>
    rw [Exhaustive.run_eq, ht] at hrun
    cases hrun

end Heads

end

end Pool

end StateSearch
