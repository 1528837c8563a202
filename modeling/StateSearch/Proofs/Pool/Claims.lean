import StateSearch.Proofs.Pool.Nodes

/-!
# What tasks know of the states that are seen

For problems that ask whether a state is seen by recording it (`Plain`), `Stage.Fits` says what a task has
achieved at each stage: the node's own state is recorded once the task has got beyond claiming it, and
every move it has tried leads to a state that is recorded or, if states are claimed when they are taken,
to one of the nodes it made. A task keeps this while no goal has been found and nobody asked for a stop
(`Stage.Fits.step`), however the other workers extend the record (`Stage.Fits.mono`).
-/

namespace StateSearch

open StateSearch.Random

variable {ω S M F : Type} [DecidableEq S] [Hashable S] {rules : Rules S M}
  {p : Problem ω S M} {claiming : Claiming} {n : Node S M} {seen seen' : Std.HashSet S}
  {children children' : List (Node S M)} {untried : List M} {sweep : Sweep S M} {m : M} {s t : S}

/-- The move leads to a recorded state, or one of the children was made by it. -/
def Handled (rules : Rules S M) (claiming : Claiming) (seen : Std.HashSet S) (n : Node S M)
    (children : List (Node S M)) (m : M) : Prop :=
  ∃ t, rules.applyMove n.state m = .ok t ∧ (t ∈ seen ∨ claiming = .whenTaken ∧
    ∃ c ∈ children, ∃ step, rules.moveCost n.state m = .ok step ∧ c.state = t ∧
      c.pathCost = Cost.plus n.pathCost step)

theorem Handled.mono (h : Handled rules claiming seen n children m) (hs : ∀ s ∈ seen, s ∈ seen')
    (hc : ∀ c ∈ children, c ∈ children') : Handled rules claiming seen' n children' m := by
  obtain ⟨t, ht, h | ⟨htaken, c, hmem, h⟩⟩ := h
  · exact ⟨t, ht, .inl (hs t h)⟩
  · exact ⟨t, ht, .inr ⟨htaken, c, hc c hmem, h⟩⟩

/-- The node's state is no goal, and every legal move has been dealt with or is still to be tried. -/
structure Covers (rules : Rules S M) (claiming : Claiming) (seen : Std.HashSet S) (n : Node S M)
    (children : List (Node S M)) (untried : List M) : Prop where
  own : n.state ∈ seen
  isGoal : rules.isGoal n.state = .ok false
  moves : ∃ moves, rules.legalMoves n.state = .ok moves ∧
    ∀ m ∈ moves, m ∈ untried ∨ Handled rules claiming seen n children m

theorem Covers.mono (h : Covers rules claiming seen n children untried)
    (hs : ∀ s ∈ seen, s ∈ seen') : Covers rules claiming seen' n children untried := by
  obtain ⟨hseen, hgoal, moves, hmoves, hall⟩ := h
  exact ⟨hs _ hseen, hgoal, moves, hmoves, fun m hm => (hall m hm).imp_right
    fun h => h.mono hs fun _ => id⟩

theorem Covers.handle (h : Covers rules claiming seen n children (m :: untried))
    (hc : ∀ c ∈ children, c ∈ children') (hm : Handled rules claiming seen n children' m) :
    Covers rules claiming seen n children' untried := by
  obtain ⟨hseen, hgoal, moves, hmoves, hall⟩ := h
  refine ⟨hseen, hgoal, moves, hmoves, fun m' hm' => ?_⟩
  rcases hall m' hm' with hm' | hm'
  · rcases List.mem_cons.1 hm' with rfl | hm'
    · exact .inr hm
    · exact .inl hm'
  · exact .inr (hm'.mono (fun _ => id) hc)

/-- The conversation about `s` is about to record it, or it is recorded. -/
def Asks (seen : Std.HashSet S) (s : S) (query : SeenQuery S) : Prop :=
  query = .record s ∨ ∃ known, query = .answer known ∧ s ∈ seen

/-- The conversation about `s` is about to look it up, or it has been found out. -/
def LooksUp (seen : Std.HashSet S) (s : S) (query : SeenQuery S) : Prop :=
  query = .lookUp s ∨ ∃ known, query = .answer known ∧ (known = true → s ∈ seen)

/-- What a task on `n` has achieved. -/
def Stage.Fits (rules : Rules S M) (claiming : Claiming) (seen : Std.HashSet S) (n : Node S M) :
    Stage S M → Prop
  | claim => claiming = .whenTaken
  | claimBy query => claiming = .whenTaken ∧ Asks seen n.state query
  | drop => claiming = .whenTaken ∧ n.state ∈ seen
  | count | test _ => n.state ∈ seen
  | list _ => n.state ∈ seen ∧ rules.isGoal n.state = .ok false
  | lookAtFlag sweep m | lookAtStop sweep m | apply sweep m | generate sweep m _ =>
    Covers rules claiming seen n sweep.children (m :: sweep.rest)
  | screen sweep m _ => claiming = .whenGenerated ∧
    Covers rules claiming seen n sweep.children (m :: sweep.rest)
  | screenBy sweep m t query => Covers rules claiming seen n sweep.children (m :: sweep.rest) ∧
    match claiming with
    | .whenGenerated => Asks seen t query
    | .whenTaken => LooksUp seen t query
  | discard sweep => Covers rules claiming seen n sweep.children sweep.rest
  | price sweep m t => Covers rules claiming seen n sweep.children (m :: sweep.rest) ∧
    (claiming = .whenGenerated → t ∈ seen)
  | estimate sweep m _ _ => claiming = .whenTaken ∧
    Covers rules claiming seen n sweep.children (m :: sweep.rest)
  | report sweep => Covers rules claiming seen n sweep.children []

/-- What a worker has achieved. Nothing is said of tasks that are over or about to be. -/
def Phase.Fits (rules : Rules S M) (claiming : Claiming) (seen : Std.HashSet S) : Phase S M → Prop
  | working n stage => stage.Fits rules claiming seen n
  | announce n | publish n => n.state ∈ seen
  | judgeFlag n children => Covers rules claiming seen n children []
  | idle | close _ | judgeStop .. | blame .. | complete .. | exhaust | ended | broken .. => True

theorem Asks.mono {query : SeenQuery S} (h : Asks seen s query) (hs : ∀ s ∈ seen, s ∈ seen') :
    Asks seen' s query :=
  h.imp_right fun ⟨known, hq, h⟩ => ⟨known, hq, hs s h⟩

theorem LooksUp.mono {query : SeenQuery S} (h : LooksUp seen s query)
    (hs : ∀ s ∈ seen, s ∈ seen') : LooksUp seen' s query :=
  h.imp_right fun ⟨known, hq, h⟩ => ⟨known, hq, fun hk => hs s (h hk)⟩

/-- What a task has achieved is not undone when more states are recorded. -/
theorem Stage.Fits.mono {stage : Stage S M} (h : stage.Fits rules claiming seen n)
    (hs : ∀ s ∈ seen, s ∈ seen') : stage.Fits rules claiming seen' n := by
  cases stage with
  | claim => exact h
  | claimBy query => exact h.imp_right fun h => h.mono hs
  | drop => exact ⟨h.1, hs _ h.2⟩
  | count | test tries => exact hs _ h
  | list tries => exact ⟨hs _ h.1, h.2⟩
  | lookAtFlag sweep m | lookAtStop sweep m | apply sweep m | generate sweep m t
  | discard sweep | report sweep => exact Covers.mono h hs
  | screen sweep m t | estimate sweep m t c => exact ⟨h.1, h.2.mono hs⟩
  | screenBy sweep m t query =>
    refine ⟨h.1.mono hs, ?_⟩
    cases claiming with
    | whenGenerated => exact Asks.mono h.2 hs
    | whenTaken => exact LooksUp.mono h.2 hs
  | price sweep m t => exact ⟨h.1.mono hs, fun hc => hs t (h.2 hc)⟩

theorem Phase.Fits.mono {phase : Phase S M} (h : phase.Fits rules claiming seen)
    (hs : ∀ s ∈ seen, s ∈ seen') : phase.Fits rules claiming seen' := by
  cases phase with
  | working n stage => exact Stage.Fits.mono h hs
  | announce n | publish n => exact hs _ h
  | judgeFlag n children => exact Covers.mono h hs
  | _ => trivial

/-! ### One step -/

theorem Sweep.fits_next (h : Covers rules claiming seen n sweep.children sweep.rest) :
    sweep.next.Fits rules claiming seen n := by
  obtain ⟨tries, rest, children⟩ := sweep
  cases rest <;> exact h

theorem Shared.mem_record (shared : Shared ω S M F) :
    t ∈ (shared.record s).2.seen ↔ t = s ∨ t ∈ shared.seen := by
  simp only [Shared.record, SeenSet.insert, Std.HashSet.containsThenInsert_snd,
    Std.HashSet.mem_insert, beq_iff_eq]
  exact or_congr_left eq_comm

theorem Shared.mem_record_of_mem (shared : Shared ω S M F) (hs : s ∈ shared.seen) :
    t ∈ (shared.record s).2.seen ↔ t ∈ shared.seen := by
  rw [Shared.mem_record]
  refine ⟨?_, .inr⟩
  rintro (rfl | ht)
  · exact hs
  · exact ht

theorem Shared.record_fst (shared : Shared ω S M F) :
    (shared.record s).1 = !decide (s ∈ shared.seen) := by
  simp only [Shared.record, SeenSet.insert, Std.HashSet.containsThenInsert_fst]
  congr 1
  exact Bool.eq_iff_iff.2 (by simp)

theorem Stage.converse_record (s : S) (shared : Shared ω S M F)
    (continued : SeenQuery S → Progress S M) (known absent : Progress S M) :
    converse (.record s) shared continued known absent =
      (continued (.answer (decide (s ∈ shared.seen))), (shared.record s).2) := by
  show (continued (.answer (!(shared.record s).1)), (shared.record s).2) = _
  rw [Shared.record_fst, Bool.not_not]

/-- While no goal has been found and nobody asked for a stop, a task does what it should. -/
theorem Stage.Fits.step {stage : Stage S M} {shared : Shared ω S M F} (hp : p.Respects rules)
    (hplain : p.Plain) (hc : stage.Carries p rules claiming n)
    (h : stage.Fits rules claiming shared.seen n) (hflag : shared.slot.flag = false)
    (hstop : shared.stopped = false) :
    (Pool.afterTask n (stage.step p claiming n shared).1).Fits rules claiming
      (stage.step p claiming n shared).2.seen := by
  let P : Progress S M × Shared ω S M F → Prop := fun result =>
    (Pool.afterTask n result.1).Fits rules claiming result.2.seen
  cases stage with
  | claim =>
    exact calling_ind P (fun query hq => ⟨h, .inl (hplain _ _ _ hq)⟩) fun _ _ => trivial
  | claimBy query =>
    obtain ⟨htaken, rfl | ⟨known, rfl, hs⟩⟩ := h
    · exact ⟨htaken, .inr ⟨_, rfl, (Shared.mem_record _).2 (.inl rfl)⟩⟩
    · cases known with
      | true => exact ⟨htaken, hs⟩
      | false => exact hs
  | drop => trivial
  | count => exact h
  | test tries =>
    refine calling_ind P (fun reached hr => ?_) fun _ _ => trivial
    cases reached with
    | true => exact h
    | false => exact ⟨h, hp.isGoal hr⟩
  | list tries =>
    refine calling_ind P (fun moves hr => ?_) fun _ _ => trivial
    exact Sweep.fits_next ⟨h.1, h.2, moves, hp.legalMoves hr, fun m hm => .inl hm⟩
  | lookAtFlag sweep m =>
    simp only [Stage.step, hflag, Bool.false_eq_true, if_false]
    exact h
  | lookAtStop sweep m =>
    simp only [Stage.step, hstop, Bool.false_eq_true, if_false]
    exact h
  | apply sweep m => exact calling_ind P (fun _ _ => h) fun _ _ => trivial
  | generate sweep m t =>
    cases claiming with
    | whenGenerated => exact ⟨rfl, h⟩
    | whenTaken => exact ⟨h, .inl rfl⟩
  | screen sweep m t =>
    obtain ⟨rfl, hcovers⟩ := h
    exact calling_ind P (fun query hq => ⟨hcovers, .inl (hplain _ _ _ hq)⟩) fun _ _ => trivial
  | screenBy sweep m t query =>
    obtain ⟨hcovers, hquery⟩ := h
    have hknown : t ∈ shared.seen → Covers rules claiming shared.seen n sweep.children sweep.rest :=
      fun ht => hcovers.handle (fun _ => id) ⟨t, hc.2.2, .inl ht⟩
    cases claiming with
    | whenGenerated =>
      obtain rfl | ⟨known, rfl, hs⟩ := hquery
      · have hmono := (frame_record shared t).seen
        exact ⟨hcovers.mono hmono, .inr ⟨_, rfl, (Shared.mem_record _).2 (.inl rfl)⟩⟩
      · cases known with
        | true => exact hknown hs
        | false => exact ⟨hcovers, fun _ => hs⟩
    | whenTaken =>
      obtain rfl | ⟨known, rfl, hs⟩ := hquery
      · exact ⟨hcovers, .inr ⟨_, rfl, fun hk => Std.HashSet.mem_iff_contains.2 hk⟩⟩
      · cases known with
        | true => exact hknown (hs rfl)
        | false => exact ⟨hcovers, Claiming.noConfusion⟩
  | discard sweep => exact Sweep.fits_next h
  | price sweep m t =>
    refine calling_ind P (fun c hr => ?_) fun _ _ => trivial
    cases claiming with
    | whenGenerated =>
      refine Sweep.fits_next (h.1.handle (fun _ => List.mem_cons_of_mem _) ?_)
      exact ⟨t, hc.2.2, .inl (h.2 rfl)⟩
    | whenTaken => exact ⟨rfl, h.1⟩
  | estimate sweep m t c =>
    obtain ⟨rfl, -, hstep⟩ := hc
    refine calling_ind P (fun remaining _ => ?_) fun _ _ => trivial
    refine Sweep.fits_next (h.2.handle (fun _ => List.mem_cons_of_mem _) ?_)
    exact ⟨t, hstep.apply, .inr ⟨rfl, _, List.mem_cons_self .., c, hstep.cost, rfl, rfl⟩⟩
  | report sweep =>
    refine calling_ind P (fun _ _ => ?_) fun _ _ => trivial
    obtain ⟨hseen, hgoal, moves, hmoves, hall⟩ := h
    exact ⟨hseen, hgoal, moves, hmoves, fun m hm => (hall m hm).imp_right
      fun h => h.mono (fun _ => id) fun _ => List.mem_reverse.2⟩

/-- Whether a task has got beyond claiming the state of its node. -/
def Stage.hasClaimed : Stage S M → Bool
  | claim | drop => false
  | claimBy (.answer false) => true
  | claimBy _ => false
  | _ => true

end StateSearch
