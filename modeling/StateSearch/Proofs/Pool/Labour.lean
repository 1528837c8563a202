import StateSearch.Proofs.Pool.Termination

/-!
# A pool that claims states when it takes them comes to its end

`Pool.labour` bounds the steps that the workers of such a pool still take (`labour_lt_of_acts`). A node that
waits counts for the few steps in which it is found to be a duplicate. The steps of an expansion are counted
for the state that is recorded for it, as long as that one is not seen: only the worker who records it goes
on with the expansion, so among finitely many states there is an end to that, whatever fails and whatever the
heuristic says. If everybody has a turn again and again, the pool ends (`IsFresh.exists_outcome_whenTaken`).
-/

namespace StateSearch

open StateSearch.Random LawfulFrontier

variable {ω S M F ρ : Type} {rules : Rules S M} {p : Problem ω S M} {rep : S → S} {n : Node S M}

/-- To find out whether a state is seen, the problem records the one that stands for it. -/
def Problem.Records (p : Problem ω S M) (rep : S → S) : Prop :=
  ∀ s world query, (p.alreadySeen s world).result = .ok query → query = .record (rep s)

theorem Problem.Plain.records (hplain : p.Plain) : p.Records id := hplain

/-- These are all the states that a search can come to. For those that stand for others, as many moves have to
be tried as for these. -/
structure Rules.Confines (rules : Rules S M) (rep : S → S) (states : List S) : Prop where
  closed : ∀ s ∈ states, ∀ m t, rules.IsLegal s m → rules.applyMove s m = .ok t → t ∈ states
  rep_mem : ∀ s ∈ states, rep s ∈ states
  choices : ∀ s ∈ states, rules.choices s ≤ rules.choices (rep s)

theorem Rules.confines_id {states : List S}
    (hclosed : ∀ s ∈ states, ∀ m t, rules.IsLegal s m → rules.applyMove s m = .ok t → t ∈ states) :
    rules.Confines id states :=
  ⟨hclosed, fun _ hs => hs, fun _ _ => Nat.le_refl _⟩

/-! ### The steps of a task -/

/-- The stages of a task on `n` that claims its state when it is taken. -/
def Stage.Inquires (rep : S → S) (n : Node S M) : Stage S M → Prop
  | claimBy query => query = .record (rep n.state) ∨ ∃ known, query = .answer known
  | screen .. => False
  | screenBy _ _ t query => query = .lookUp t ∨ ∃ known, query = .answer known
  | claim | drop | count | test _ | list _ | lookAtFlag .. | lookAtStop .. | apply .. | generate ..
  | discard _ | price .. | estimate .. | report _ => True

def Phase.Inquires (rep : S → S) : Phase S M → Prop
  | working n stage => stage.Inquires rep n
  | _ => True

/-- What the moves that are still to be tried, and the nodes made so far, count for. -/
def Sweep.labour (sweep : Sweep S M) : Nat := 15 * sweep.rest.length + 7 * sweep.children.length

/-- A bound on the steps that a task on `n` still takes once the state is claimed, or until it is found to be
claimed already. -/
def Stage.labour (rules : Rules S M) (n : Node S M) : Stage S M → Nat
  | claim => 7
  | claimBy (.answer true) => 5
  | claimBy (.answer false) => 15 * rules.choices n.state + 10
  | claimBy _ => 6
  | drop => 4
  | count => 15 * rules.choices n.state + 9
  | test _ => 15 * rules.choices n.state + 8
  | list _ => 15 * rules.choices n.state + 7
  | lookAtFlag sweep _ => sweep.labour + 21
  | lookAtStop sweep _ => sweep.labour + 20
  | apply sweep _ => sweep.labour + 19
  | generate sweep .. => sweep.labour + 18
  | screenBy sweep _ _ (.answer _) => sweep.labour + 16
  | screenBy sweep .. => sweep.labour + 17
  | discard sweep | price sweep .. => sweep.labour + 15
  | estimate sweep .. => sweep.labour + 14
  | report sweep => sweep.labour + 6
  | screen .. => 0

/-- A bound on the steps that a worker takes before it asks for a node again, and on those that others take
on the nodes that it hands in, if these are duplicates. -/
def Phase.labour (rules : Rules S M) : Phase S M → Nat
  | idle => 1
  | working n stage => stage.labour rules n
  | announce _ => 6
  | publish _ => 5
  | close _ => 4
  | judgeFlag _ children => 7 * children.length + 5
  | judgeStop _ children => 7 * children.length + 4
  | blame .. => 4
  | complete _ children => 7 * children.length + 3
  | exhaust => 2
  | ended | broken .. => 0

theorem Sweep.inquires_next (sweep : Sweep S M) : sweep.next.Inquires rep n := by
  obtain ⟨tries, rest, children⟩ := sweep
  cases rest <;> trivial

theorem Sweep.labour_next (sweep : Sweep S M) :
    sweep.next.labour rules n = sweep.labour + 6 := by
  obtain ⟨tries, rest, children⟩ := sweep
  cases rest with
  | nil => rfl
  | cons m rest =>
    simp only [Sweep.next, Stage.labour, Sweep.labour, List.length_cons]
    omega

theorem Sweep.labour_add (sweep : Sweep S M) (c : Node S M) :
    (sweep.add c).labour = sweep.labour + 7 := by
  simp only [Sweep.add, Sweep.labour, List.length_cons]
  omega

variable [DecidableEq S] [Hashable S] {states : List S}

theorem Stage.Inquires.step {stage : Stage S M} (hrecords : p.Records rep) (h : stage.Inquires rep n)
    (shared : Shared ω S M F) :
    (Pool.afterTask n (stage.step p .whenTaken n shared).1).Inquires rep := by
  let P : Progress S M × Shared ω S M F → Prop := fun result =>
    (Pool.afterTask n result.1).Inquires rep
  cases stage with
  | claim => exact calling_ind P (fun _ hq => .inl (hrecords _ _ _ hq)) fun _ _ => trivial
  | claimBy query =>
    obtain rfl | ⟨known, rfl⟩ := h
    · exact .inr ⟨_, rfl⟩
    · cases known <;> trivial
  | drop | count => trivial
  | test tries =>
    exact calling_ind P (fun reached _ => by cases reached <;> trivial) fun _ _ => trivial
  | list tries => exact calling_ind P (fun _ _ => Sweep.inquires_next _) fun _ _ => trivial
  | lookAtFlag | lookAtStop =>
    simp only [Stage.step]
    split <;> trivial
  | apply | report | price => exact calling_ind P (fun _ _ => trivial) fun _ _ => trivial
  | generate sweep m t => exact .inl rfl
  | screen => exact h.elim
  | screenBy sweep m t query =>
    obtain rfl | ⟨known, rfl⟩ := h
    · exact .inr ⟨_, rfl⟩
    · cases known <;> trivial
  | discard => exact Sweep.inquires_next _
  | estimate => exact calling_ind P (fun _ _ => Sweep.inquires_next _) fun _ _ => trivial

/-- Each step of a task brings its end nearer. The expansion of a state is paid for by recording it. -/
theorem Stage.Inquires.labour_lt {stage : Stage S M} (hp : p.Respects rules) (hrecords : p.Records rep)
    (hstates : rules.Confines rep states) (h : stage.Inquires rep n) (hn : n.state ∈ states)
    (shared : Shared ω S M F) :
    2 * rules.efforts (unseen states (stage.step p .whenTaken n shared).2.seen) +
        (Pool.afterTask n (stage.step p .whenTaken n shared).1).labour rules <
      2 * rules.efforts (unseen states shared.seen) + stage.labour rules n := by
  let P : Progress S M × Shared ω S M F → Prop := fun result =>
    2 * rules.efforts (unseen states result.2.seen) + (Pool.afterTask n result.1).labour rules <
      2 * rules.efforts (unseen states shared.seen) + stage.labour rules n
  -- Most steps record nothing.
  have hkept : ∀ {progress : Progress S M} {shared' : Shared ω S M F}, shared'.seen = shared.seen →
      (Pool.afterTask n progress).labour rules < stage.labour rules n → P (progress, shared') := by
    intro progress shared' hseen hlt
    show 2 * rules.efforts (unseen states shared'.seen) + _ < _
    rw [hseen]
    exact Nat.add_lt_add_left hlt _
  cases stage with
  | claim =>
    refine calling_ind P (fun query hq => hkept rfl ?_) fun _ _ => hkept rfl (by decide : 4 < 7)
    obtain rfl := hrecords _ _ _ hq
    exact Nat.lt_succ_self 6
  | claimBy query =>
    obtain rfl | ⟨known, rfl⟩ := h
    · simp only [Stage.step, converse_record]
      by_cases hs : rep n.state ∈ shared.seen
      · rw [decide_eq_true hs, unseen_congr fun _ => Shared.mem_record_of_mem _ hs]
        exact Nat.add_lt_add_left (Nat.lt_succ_self 5) _
      · have hle := rules.efforts_unseen_le (hstates.rep_mem _ hn) hs fun t =>
          Shared.mem_record (s := rep n.state) (t := t) shared
        have hchoices := hstates.choices _ hn
        rw [decide_eq_false hs]
        simp only [Rules.effort] at hle
        simp only [Pool.afterTask, Phase.labour, Stage.labour, SeenQuery.record]
        omega
    · cases known
      · exact hkept rfl (Nat.lt_succ_self _)
      · exact hkept rfl (Nat.lt_succ_self 4)
  | drop => exact hkept rfl (Nat.lt_succ_self 3)
  | count => exact hkept rfl (Nat.lt_succ_self _)
  | test tries =>
    refine calling_ind P (fun reached _ => hkept rfl ?_) fun _ _ => hkept rfl ?_
    · cases reached with
      | true => exact Nat.lt_of_lt_of_le (by decide : 6 < 8) (Nat.le_add_left _ _)
      | false => exact Nat.lt_succ_self _
    · exact Nat.lt_of_lt_of_le (by decide : 4 < 8) (Nat.le_add_left _ _)
  | list tries =>
    refine calling_ind P (fun moves hr => hkept rfl ?_) fun _ _ => hkept rfl ?_
    · show (Sweep.next { tries, rest := moves } : Stage S M).labour rules n < _
      rw [Sweep.labour_next, Stage.labour, Rules.choices, hp.legalMoves hr]
      exact Nat.lt_succ_self _
    · exact Nat.lt_of_lt_of_le (by decide : 4 < 7) (Nat.le_add_left _ _)
  | lookAtFlag sweep m | lookAtStop sweep m =>
    simp only [Stage.step]
    split <;> refine hkept rfl (Nat.add_lt_add_left ?_ _) <;> decide
  | apply sweep m =>
    refine calling_ind P (fun _ _ => hkept rfl (Nat.lt_succ_self _)) fun _ _ => hkept rfl ?_
    exact Nat.lt_of_lt_of_le (by decide : 4 < 19) (Nat.le_add_left _ _)
  | generate sweep m t => exact hkept rfl (Nat.lt_succ_self _)
  | screen sweep m t => exact h.elim
  | screenBy sweep m t query =>
    obtain rfl | ⟨known, rfl⟩ := h
    · exact hkept rfl (Nat.lt_succ_self _)
    · cases known <;> exact hkept rfl (Nat.lt_succ_self _)
  | discard sweep =>
    refine hkept rfl ?_
    show sweep.next.labour rules n < _
    rw [Sweep.labour_next]
    exact Nat.add_lt_add_left (by decide : 6 < 15) _
  | price sweep m t =>
    refine calling_ind P (fun _ _ => hkept rfl (Nat.lt_succ_self _)) fun _ _ => hkept rfl ?_
    exact Nat.lt_of_lt_of_le (by decide : 4 < 15) (Nat.le_add_left _ _)
  | estimate sweep m t c =>
    refine calling_ind P (fun remaining _ => hkept rfl ?_) fun _ _ => hkept rfl ?_
    · show (sweep.add (n.child t m c remaining)).next.labour rules n < _
      rw [Sweep.labour_next, Sweep.labour_add]
      exact Nat.lt_succ_self _
    · exact Nat.lt_of_lt_of_le (by decide : 4 < 14) (Nat.le_add_left _ _)
  | report sweep =>
    refine calling_ind P (fun _ _ => hkept rfl ?_) fun _ _ => hkept rfl ?_
    · simp only [Pool.afterTask, Phase.labour, Stage.labour, Sweep.labour, List.length_reverse]
      omega
    · exact Nat.lt_of_lt_of_le (by decide : 4 < 6) (Nat.le_add_left _ _)

namespace Pool

variable [Frontier F (Node S M)] [LawfulFrontier F (Node S M)] {pool next : Pool ω S M F ρ}
  {actor : Actor} {shared shared' : Shared ω S M F} {before after : List (Worker S M ρ)}
  {w w' : Worker S M ρ} {waiting : Waiting S M}

/-- A bound on the steps that all workers still take, if only these states can be reached. -/
def labour (rules : Rules S M) (states : List S) (pool : Pool ω S M F ρ) : Nat :=
  2 * rules.efforts (unseen states pool.shared.seen) +
    7 * (nodes pool.shared.queue.frontier).length +
      (pool.workers.map fun worker => worker.phase.labour rules).sum

theorem labour_middle : labour rules states ⟨shared, before ++ w :: after, waiting⟩ =
    2 * rules.efforts (unseen states shared.seen) + 7 * (nodes shared.queue.frontier).length +
      w.phase.labour rules + ((before ++ after).map fun worker => worker.phase.labour rules).sum := by
  simp only [labour, List.map_append, List.map_cons, List.sum_append, List.sum_cons]
  omega

/-- The steps of the whole run, if nothing has been done yet. -/
theorem IsFresh.labour_le {root : Node S M} (h : pool.IsFresh root) :
    pool.labour rules states ≤ 2 * rules.efforts states + 7 + pool.workers.length := by
  have hidle : pool.workers.map (fun worker => worker.phase.labour rules) =
      pool.workers.map fun _ => 1 :=
    List.map_congr_left fun w hw => by rw [h.idle w hw]; rfl
  have hunseen : rules.efforts (unseen states pool.shared.seen) ≤ rules.efforts states :=
    rules.efforts_filter_le states _
  rw [labour, hidle, h.nodes, List.map_const', List.sum_replicate_nat, List.length_singleton]
  omega

theorem labour_lt (hseen : shared'.seen = shared.seen)
    (hfrontier : shared'.queue.frontier = shared.queue.frontier)
    (h : w'.phase.labour rules < w.phase.labour rules) :
    labour rules states ⟨shared', before ++ w' :: after, waiting⟩ <
      labour rules states ⟨shared, before ++ w :: after, waiting⟩ := by
  rw [labour_middle, labour_middle, hseen, hfrontier]
  omega

variable [Coin ρ]

theorem labour_lt_of_acts (hp : p.Respects rules) (hrecords : p.Records rep)
    (hstates : rules.Confines rep states) (hsound : Sound shared.queue.frontier)
    (hinquires : w.phase.Inquires rep)
    (hcarries : w.phase.Carries p rules (fun n => n.state ∈ states) .whenTaken)
    {index : Nat} (h : Acts p .whenTaken index shared w.coin w.phase w' shared') :
    labour rules states ⟨shared', before ++ w' :: after, waiting⟩ <
      labour rules states ⟨shared, before ++ w :: after, waiting⟩ := by
  generalize hph : w.phase = phase at h hinquires hcarries
  cases h with
  | refused | announced | won | closed | exhausted | kept | blamed =>
    refine labour_lt rfl rfl ?_
    rw [hph]
    exact Nat.lt_succ_self _
  | tooLate =>
    refine labour_lt rfl rfl ?_
    rw [hph]
    exact (by decide : 3 < 6)
  | beaten =>
    refine labour_lt rfl rfl ?_
    rw [hph]
    exact (by decide : 3 < 5)
  | @taken n queue ht =>
    obtain ⟨-, -, frontier, hpop, rfl, -⟩ := WorkQueue.take_eq_taken ht
    have hnodes := (nodes_pop hsound hpop).length_eq
    have hidle : w.phase.labour rules = 1 := by
      rw [hph]
      rfl
    have hbegin : (Phase.working n (Claiming.whenTaken.begin S M)).labour rules = 7 := rfl
    rw [List.length_cons] at hnodes
    rw [labour_middle, labour_middle, hidle, hbegin, hnodes]
    simp only
    omega
  | @task n stage progress shared'' ht =>
    have hlt := Stage.Inquires.labour_lt hp hrecords hstates hinquires hcarries.1 shared
    rw [ht] at hlt
    have hwork : w.phase.labour rules = stage.labour rules n := by
      rw [hph]
      rfl
    rw [labour_middle, labour_middle, (Stage.frame_of_step_eq ht).queue, hwork]
    simp only at hlt ⊢
    omega
  | @forgone n children =>
    refine labour_lt rfl rfl ?_
    rw [hph]
    exact Nat.lt_of_lt_of_le (by decide : 3 < 5) (Nat.le_add_left _ _)
  | @judged n children =>
    refine labour_lt rfl rfl ?_
    rw [hph]
    cases shared.stopped with
    | true => exact Nat.lt_of_lt_of_le (by decide : 3 < 4) (Nat.le_add_left _ _)
    | false => exact Nat.lt_succ_self _
  | @completed n children exhausted queue coin' hc =>
    obtain ⟨-, hnodes, -⟩ := WorkQueue.complete_eq_ok hsound hc
    have hnodes := hnodes.length_eq
    rw [List.length_append] at hnodes
    have hfree : (if exhausted then Phase.exhaust else .idle : Phase S M).labour rules ≤ 2 := by
      cases exhausted
      · exact (by decide : 1 ≤ 2)
      · exact (by decide : 2 ≤ 2)
    have hwork : w.phase.labour rules = 7 * children.length + 3 := by
      rw [hph]
      rfl
    rw [labour_middle, labour_middle, hwork, hnodes]
    simp only at hfree ⊢
    omega
  | broke =>
    refine labour_lt rfl rfl ?_
    rw [hph]
    exact Nat.lt_of_lt_of_le (by decide : 0 < 3) (Nat.le_add_left _ _)

/-- What is known of the pool at every time of a run. -/
structure Laborious (p : Problem ω S M) (rules : Rules S M) (rep : S → S) (states : List S)
    (pool : Pool ω S M F ρ) : Prop where
  orderly : pool.Orderly
  carries : pool.Carries p rules (fun n => n.state ∈ states) .whenTaken
  inquires : ∀ w ∈ pool.workers, w.phase.Inquires rep

theorem Laborious.step (hp : p.Respects rules) (hrecords : p.Records rep)
    (hstates : rules.Confines rep states) (h : pool.Laborious p rules rep states)
    (hs : pool.step p .whenTaken actor = some next) : next.Laborious p rules rep states := by
  refine ⟨h.orderly.step hs, h.carries.step hp (inherited_mem hstates.closed p _) hs, ?_⟩
  obtain ⟨shared, workers, waiting⟩ := pool
  rcases step_cases hs with ⟨before, w, after, w', shared', rfl, hw, hacts, rfl⟩ |
    ⟨waiting', shared', rfl, hwaits, rfl⟩ | ⟨rfl, rfl⟩
  · obtain rfl : workers = _ := hw
    refine forall_mem_replace h.inquires (fun _ h => h) ?_
    have hinquires := h.inquires w (by simp)
    generalize w.phase = phase at hacts hinquires
    cases hacts with
    | @task n stage progress shared'' ht =>
      have := Stage.Inquires.step hrecords hinquires shared
      rwa [ht] at this
    | @completed n children exhausted queue coin' hc => cases exhausted <;> trivial
    | _ => trivial
  · exact h.inquires
  · exact h.inquires

omit [Coin ρ] in
theorem IsFresh.laborious {root : Node S M} (h : pool.IsFresh root) (hroot : root.state ∈ states) :
    pool.Laborious p rules rep states := by
  refine ⟨h.orderly, h.carries hroot, fun w hw => ?_⟩
  rw [h.idle w hw]
  trivial

theorem labour_of_step (hp : p.Respects rules) (hrecords : p.Records rep)
    (hstates : rules.Confines rep states) (h : pool.Laborious p rules rep states)
    (hs : pool.step p .whenTaken actor = some next) :
    next.labour rules states < pool.labour rules states ∨
      (∀ index, actor ≠ .worker index) ∧ next.workers = pool.workers ∧
        next.labour rules states = pool.labour rules states := by
  obtain ⟨shared, workers, waiting⟩ := pool
  rcases step_cases hs with ⟨before, w, after, w', shared', rfl, hw, hacts, rfl⟩ |
    ⟨waiting', shared', rfl, hwaits, rfl⟩ | ⟨rfl, rfl⟩
  · obtain rfl : workers = _ := hw
    left
    exact labour_lt_of_acts hp hrecords hstates h.orderly.sound (h.inquires w (by simp))
      (h.carries.workers w (by simp)) hacts
  · right
    cases hwaits <;> exact ⟨nofun, rfl, rfl⟩
  · exact .inr ⟨nofun, rfl, rfl⟩

/-- A pool whose workers claim states when they take them ends, if the states that can be reached from the
first one are among finitely many. -/
theorem IsFresh.exists_outcome_whenTaken {root : Node S M} {schedule : Nat → Actor}
    (hp : p.Respects rules) (hrecords : p.Records rep) (hstates : rules.Confines rep states)
    (h : pool.IsFresh root) (hroot : root.state ∈ states) (hne : pool.workers ≠ [])
    (hfair : Fair pool.workers.length schedule) :
    ∃ k goal, (pool.played p .whenTaken schedule k).outcome? = some goal := by
  have hlaborious : ∀ k, (pool.played p .whenTaken schedule k).Laborious p rules rep states := fun k =>
    follow_induction (fun _ _ _ h hs => h.step hp hrecords hstates hs) (h.laborious hroot) _
  exact exists_outcome_of_fair (fun k _ hs => labour_of_step hp hrecords hstates (hlaborious k) hs)
    (fun k => (hlaborious k).orderly) hne hfair

end Pool

end StateSearch
