import StateSearch.Proofs.Pool.Ownership

/-!
# What is lost when tasks fail

Workers who claim states when they generate them put up with failing tasks, but a task that fails takes
along every state it answers for (`Pool.lost`). These states are seen, so they are never reached again, by
whatever other route. The pool does find all the rest: at the end of a run that nobody stopped there is a
goal if and only if some route to a goal keeps clear of the states that were lost (`Traced.isSome_iff`).

The invariant, `Traced`, says that what is settled has been explored, and that every node was reached by
way of states that are settled.
-/

namespace StateSearch

open StateSearch.Random LawfulFrontier

variable {ω S M F ρ : Type}

/-! ### Routes that keep clear of some states -/

namespace Rules

variable {rules : Rules S M} {P Q : S → Prop} {s : S}

/-- Some route leads to the state, and all states on the way satisfy `P`, the first and the last one
included. -/
inductive Within (rules : Rules S M) (P : S → Prop) : S → Prop
  | initial (h : P rules.initial) : Within rules P rules.initial
  | step {s t : S} {m : M} {c : Cost} (before : Within rules P s) (step : rules.Step s m t c)
      (h : P t) : Within rules P t

/-- The same without the last state. -/
inductive Enters (rules : Rules S M) (P : S → Prop) : S → Prop
  | initial : Enters rules P rules.initial
  | step {s t : S} {m : M} {c : Cost} (before : Within rules P s) (step : rules.Step s m t c) :
    Enters rules P t

theorem Within.mono (h : rules.Within P s) (hPQ : ∀ s, P s → Q s) : rules.Within Q s := by
  induction h with
  | initial h => exact .initial (hPQ _ h)
  | step _ step h ih => exact ih.step step (hPQ _ h)

theorem Enters.mono (h : rules.Enters P s) (hPQ : ∀ s, P s → Q s) : rules.Enters Q s := by
  cases h with
  | initial => exact .initial
  | step before step => exact .step (before.mono hPQ) step

theorem Enters.within (h : rules.Enters P s) (hs : P s) : rules.Within P s := by
  cases h with
  | initial => exact .initial hs
  | step before step => exact before.step step hs

end Rules

variable [DecidableEq S] [Hashable S] {rules : Rules S M} {seen seen' : Std.HashSet S} {s : S}

/-- The state is no goal, and whatever a move reaches from it is seen. -/
structure Explored (rules : Rules S M) (seen : Std.HashSet S) (s : S) : Prop where
  isGoal : rules.isGoal s = .ok false
  moves : ∃ moves, rules.legalMoves s = .ok moves ∧
    ∀ m ∈ moves, ∃ t, rules.applyMove s m = .ok t ∧ t ∈ seen

theorem Explored.mono (h : Explored rules seen s) (hs : ∀ s ∈ seen, s ∈ seen') :
    Explored rules seen' s := by
  obtain ⟨hgoal, moves, hmoves, hall⟩ := h
  refine ⟨hgoal, moves, hmoves, fun m hm => ?_⟩
  obtain ⟨t, ht, hmem⟩ := hall m hm
  exact ⟨t, ht, hs t hmem⟩

theorem Explored.of_covers {n : Node S M} {children : List (Node S M)}
    (h : Covers rules .whenGenerated seen n children []) : Explored rules seen n.state := by
  obtain ⟨-, hgoal, moves, hmoves, hall⟩ := h
  refine ⟨hgoal, moves, hmoves, fun m hm => ?_⟩
  obtain ⟨t, ht, hmem | ⟨hclaiming, -⟩⟩ := (hall m hm).resolve_left List.not_mem_nil
  · exact ⟨t, ht, hmem⟩
  · cases hclaiming

/-- If all that is seen and satisfies `P` is explored, then routes within `P` lead to seen states. -/
theorem Explored.seen_of_within {P : S → Prop} (hinitial : rules.initial ∈ seen)
    (h : ∀ s ∈ seen, P s → Explored rules seen s) (hs : rules.Within P s) : s ∈ seen ∧ P s := by
  induction hs with
  | initial hP => exact ⟨hinitial, hP⟩
  | step _ step hP ih =>
    obtain ⟨⟨moves, hlegal, hm⟩, happly, -⟩ := step
    obtain ⟨-, moves', hmoves, hall⟩ := h _ ih.1 ih.2
    cases hlegal.symm.trans hmoves
    obtain ⟨t, ht, hmem⟩ := hall _ hm
    cases happly.symm.trans ht
    exact ⟨hmem, hP⟩

/-! ### What the pool answers for, and what it loses -/

/-- The nodes in the hands of a worker that may still be expanded, found to be goals or handed in. -/
def Phase.inHand : Phase S M → List (Node S M)
  | working n _ | announce n | publish n => [n]
  | judgeFlag _ children | judgeStop _ children | complete _ children => children
  | idle | close _ | blame .. | exhaust | ended | broken .. => []

/-- The states that a task on `n` takes along if this is what its next step comes to. -/
def Stage.forfeited (n : Node S M) (stage : Stage S M) : Progress S M → List S
  | .failed _ => stage.owned n
  | .onward _ | .goal | .children _ | .skipped => []

/-- The states that a worker takes along if its next step fails. -/
def Phase.forfeited (p : Problem ω S M) (shared : Shared ω S M F) : Phase S M → List S
  | working n stage => stage.forfeited n (stage.step p .whenGenerated n shared).1
  | _ => []

namespace Pool

variable {p : Problem ω S M} {pool next : Pool ω S M F ρ} {actor : Actor}
  {shared shared' : Shared ω S M F} {before after : List (Worker S M ρ)} {w w' : Worker S M ρ}
  {waiting : Waiting S M}

/-- The states that are lost when the actor has its turn. -/
def forfeited (p : Problem ω S M) (pool : Pool ω S M F ρ) : Actor → List S
  | .worker index =>
    match pool.workers[index]? with
    | some worker => worker.phase.forfeited p pool.shared
    | none => []
  | _ => []

omit [DecidableEq S] [Hashable S] in
theorem getElem?_middle {α : Type} (before after : List α) (a : α) :
    (before ++ a :: after)[before.length]? = some a := by
  rw [List.getElem?_append_right (Nat.le_refl _), Nat.sub_self]
  rfl

theorem forfeited_middle : Pool.forfeited p ⟨shared, before ++ w :: after, waiting⟩
    (.worker before.length) = w.phase.forfeited p shared := by
  simp only [forfeited, getElem?_middle]

variable [Frontier F (Node S M)]

/-- The states that are lost while these actors have their turns. -/
def lost [Coin ρ] (p : Problem ω S M) : Pool ω S M F ρ → List Actor → List S
  | _, [] => []
  | pool, actor :: actors => pool.forfeited p actor ++
      lost p ((pool.step p .whenGenerated actor).getD pool) actors

/-- Who has nothing to do cannot fail. -/
theorem forfeited_of_step_eq_none [Coin ρ] (hs : pool.step p .whenGenerated actor = none) :
    pool.forfeited p actor = [] := by
  obtain ⟨shared, workers, waiting⟩ := pool
  cases actor with
  | worker index =>
    cases hw : workers[index]? with
    | none => simp only [forfeited, hw]
    | some worker =>
      obtain ⟨phase, coin⟩ := worker
      simp only [forfeited, hw]
      cases phase with
      | working n stage => simp [step, hw, stepWorker] at hs
      | _ => rfl
  | _ => rfl

variable [LawfulFrontier F (Node S M)]

/-- The states that somebody answers for. -/
def owned (pool : Pool ω S M F ρ) : List S :=
  (nodes pool.shared.queue.frontier).map Node.state ++
    pool.workers.flatMap fun worker => worker.phase.owned

theorem count_owned_middle (s : S) :
    (owned ⟨shared, before ++ w :: after, waiting⟩).count s =
      ((nodes shared.queue.frontier).map Node.state).count s + w.phase.owned.count s +
        ((before ++ after).flatMap fun worker => worker.phase.owned).count s := by
  simp only [owned, List.flatMap_append, List.flatMap_cons, List.count_append]
  omega

/-- The node waits, or is in the hands of a worker. -/
def Carried (pool : Pool ω S M F ρ) (n : Node S M) : Prop :=
  n ∈ nodes pool.shared.queue.frontier ∨ ∃ worker ∈ pool.workers, n ∈ worker.phase.inHand

theorem carried_middle {n : Node S M} : Carried ⟨shared, before ++ w :: after, waiting⟩ n ↔
    (n ∈ nodes shared.queue.frontier ∨ n ∈ w.phase.inHand) ∨
      ∃ v ∈ before ++ after, n ∈ v.phase.inHand := by
  unfold Carried
  rw [exists_mem_middle, or_assoc]

/-! ### The invariant -/

/-- Every node was reached by way of settled states. As long as there is no outcome and nobody asked for
a stop, these are explored. -/
structure Traced (rules : Rules S M) (lost : List S) (pool : Pool ω S M F ρ) : Prop where
  initial : rules.initial ∈ pool.shared.seen
  shaped : ∀ w ∈ pool.workers, w.phase.Shaped
  balanced : Balanced pool.shared.seen pool.owned lost
  entered : ∀ n, pool.Carried n → rules.Enters (Settled pool.shared.seen pool.owned lost) n.state
  slot : ∀ n, pool.shared.slot.content = .assigned n →
    rules.Within (Settled pool.shared.seen pool.owned lost) n.state
  fits : pool.shared.slot.content = .pending → pool.shared.stopped = false →
    ∀ w ∈ pool.workers, w.phase.Fits rules .whenGenerated pool.shared.seen
  explored : pool.shared.slot.content = .pending → pool.shared.stopped = false →
    ∀ s, Settled pool.shared.seen pool.owned lost s → Explored rules pool.shared.seen s
  exhausted : pool.shared.slot.content = .exhausted → pool.shared.stopped = false →
    ∀ s, rules.Within (fun s => s ∉ lost) s → rules.isGoal s ≠ .ok true

namespace Traced

variable {lost fresh dropped forfeited : List S} {n : Node S M}

theorem replace (h : Traced rules lost ⟨shared, before ++ w :: after, waiting⟩)
    (hshaped : w'.phase.Shaped) (hnodup : fresh.Nodup) (hfresh : ∀ s ∈ fresh, s ∉ shared.seen)
    (hseen : ∀ s, s ∈ shared'.seen ↔ s ∈ fresh ∨ s ∈ shared.seen)
    (howned : ((nodes shared'.queue.frontier).map Node.state ++ w'.phase.owned ++
      (dropped ++ forfeited)).Perm
        (fresh ++ ((nodes shared.queue.frontier).map Node.state ++ w.phase.owned)))
    (hentered : ∀ n, n ∈ nodes shared'.queue.frontier ∨ n ∈ w'.phase.inHand →
      (n ∈ nodes shared.queue.frontier ∨ n ∈ w.phase.inHand) ∨
        ∃ n₀ ∈ w.phase.inHand, n₀.state ∈ dropped ∧ ∃ m c, rules.Step n₀.state m n.state c)
    (hslot : ∀ n, shared'.slot.content = .assigned n →
      shared.slot.content = .assigned n ∨ n ∈ w.phase.inHand ∧ n.state ∈ dropped)
    (hopen : shared'.slot.content = .pending → shared'.stopped = false →
      shared.slot.content = .pending ∧ shared.stopped = false ∧
        (w.phase.Fits rules .whenGenerated shared.seen →
          w'.phase.Fits rules .whenGenerated shared'.seen ∧
            ∀ s ∈ dropped, Explored rules shared'.seen s))
    (hexhausted : shared'.slot.content = .exhausted → shared'.stopped = false →
      (shared.slot.content = .exhausted ∧ shared.stopped = false) ∨
        ∀ s, rules.Within (fun s => s ∉ lost) s → rules.isGoal s ≠ .ok true) :
    Traced rules (lost ++ forfeited) ⟨shared', before ++ w' :: after, waiting⟩ := by
  have hperm : (owned ⟨shared', before ++ w' :: after, waiting⟩ ++ (dropped ++ forfeited)).Perm
      (fresh ++ owned ⟨shared, before ++ w :: after, waiting⟩) := by
    refine List.perm_iff_count.2 fun s => ?_
    have hcount := howned.count_eq s
    simp only [List.count_append, count_owned_middle] at hcount ⊢
    omega
  have hmono : ∀ s ∈ shared.seen, s ∈ shared'.seen := fun s hs => (hseen s).2 (.inr hs)
  have hsettled : ∀ s, Settled shared.seen (owned ⟨shared, before ++ w :: after, waiting⟩) lost s →
      Settled shared'.seen (owned ⟨shared', before ++ w' :: after, waiting⟩) (lost ++ forfeited) s :=
    fun s hs => hs.move hfresh hseen hperm
  have hdropped := fun s (hs : s ∈ dropped) =>
    h.balanced.settled_of_dropped hnodup hfresh hseen hperm hs
  -- A node whose state has just been dropped was reached by way of settled states only.
  have hwithin : ∀ n ∈ w.phase.inHand, n.state ∈ dropped → rules.Within
      (Settled shared'.seen (owned ⟨shared', before ++ w' :: after, waiting⟩) (lost ++ forfeited))
        n.state := by
    intro n hn hd
    exact ((h.entered n (carried_middle.2 (.inl (.inr hn)))).mono hsettled).within (hdropped _ hd)
  refine ⟨hmono _ h.initial, ?_, h.balanced.move hnodup hfresh hseen hperm, ?_, ?_, ?_, ?_, ?_⟩
  · exact forall_mem_replace h.shaped (fun _ h => h) hshaped
  · intro n hn
    rcases carried_middle.1 hn with hn | hn
    · rcases hentered n hn with hn | ⟨n₀, hn₀, hd, m, c, step⟩
      · exact (h.entered n (carried_middle.2 (.inl hn))).mono hsettled
      · exact .step (hwithin n₀ hn₀ hd) step
    · exact (h.entered n (carried_middle.2 (.inr hn))).mono hsettled
  · intro n hn
    rcases hslot n hn with hn | ⟨hn, hd⟩
    · exact (h.slot n hn).mono hsettled
    · exact hwithin n hn hd
  · intro hpending hstop
    obtain ⟨hpending, hstop, hw⟩ := hopen hpending hstop
    have hfits := h.fits hpending hstop
    exact forall_mem_replace hfits (fun _ h => h.mono hmono) (hw (hfits w (by simp))).1
  · intro hpending hstop s hs
    obtain ⟨hpending, hstop, hw⟩ := hopen hpending hstop
    rcases hs.of_move hseen hperm with hs | hs
    · exact (h.explored hpending hstop s hs).mono hmono
    · exact (hw (h.fits hpending hstop w (by simp))).2 s hs
  · intro he hstop s hs
    have hs : rules.Within (fun s => s ∉ lost) s :=
      hs.mono fun s hs hl => hs (List.mem_append_left _ hl)
    rcases hexhausted he hstop with ⟨he, hstop⟩ | hnone
    · exact h.exhausted he hstop s hs
    · exact hnone s hs

/-- A worker goes on with the nodes it has, or trades them with the queue. -/
theorem pass (h : Traced rules lost ⟨shared, before ++ w :: after, waiting⟩)
    (hshaped : w'.phase.Shaped) (hseen : ∀ s, s ∈ shared'.seen ↔ s ∈ shared.seen)
    (howned : ((nodes shared'.queue.frontier).map Node.state ++ w'.phase.owned).Perm
      ((nodes shared.queue.frontier).map Node.state ++ w.phase.owned))
    (hinHand : ∀ n, n ∈ nodes shared'.queue.frontier ∨ n ∈ w'.phase.inHand →
      n ∈ nodes shared.queue.frontier ∨ n ∈ w.phase.inHand)
    (hslot : shared'.slot = shared.slot) (hstop : shared'.stopped = false → shared.stopped = false)
    (hfits : shared.slot.content = .pending → shared.stopped = false →
      w.phase.Fits rules .whenGenerated shared.seen →
        w'.phase.Fits rules .whenGenerated shared'.seen) :
    Traced rules (lost ++ []) ⟨shared', before ++ w' :: after, waiting⟩ := by
  have howned' : ((nodes shared'.queue.frontier).map Node.state ++ w'.phase.owned ++ ([] ++ [])).Perm
      ([] ++ ((nodes shared.queue.frontier).map Node.state ++ w.phase.owned)) := by
    simpa using howned
  refine h.replace hshaped List.nodup_nil (by simp) (by simp [hseen]) howned'
    (fun n hn => .inl (hinHand n hn)) ?_ ?_ ?_
  · rw [hslot]
    exact fun n hn => .inl hn
  · rw [hslot]
    exact fun hp hs => ⟨hp, hstop hs, fun hw => ⟨hfits hp (hstop hs) hw, by simp⟩⟩
  · rw [hslot]
    exact fun he hs => .inl ⟨he, hstop hs⟩

/-- A worker forgets its nodes, because there is an outcome or somebody asked for a stop. -/
theorem forget (h : Traced rules lost ⟨shared, before ++ w :: after, waiting⟩)
    (hw' : w'.phase = .complete n []) (hopen : shared.slot.content = .pending → shared.stopped = true) :
    Traced rules (lost ++ []) ⟨shared, before ++ w' :: after, waiting⟩ := by
  have howned : ((nodes shared.queue.frontier).map Node.state ++ w'.phase.owned ++
      (w.phase.owned ++ [])).Perm ([] ++ ((nodes shared.queue.frontier).map Node.state ++ w.phase.owned)) := by
    rw [hw']
    simp [Phase.owned]
  refine h.replace (by rw [hw']; trivial) List.nodup_nil (by simp) (by simp) howned ?_
    (fun n hn => .inl hn) ?_ (fun he hs => .inl ⟨he, hs⟩)
  · rw [hw']
    rintro n (hn | hn)
    · exact .inl (.inl hn)
    · cases hn
  · intro hp hs
    rw [hopen hp] at hs
    cases hs

section

variable (h : Traced rules lost ⟨shared, before ++ w :: after, waiting⟩)
  (hframe : Stage.Frame shared shared') (hshaped : w'.phase.Shaped)
  (hfits : shared.slot.content = .pending → shared.stopped = false →
    w.phase.Fits rules .whenGenerated shared.seen → w'.phase.Fits rules .whenGenerated shared'.seen)
include h hframe hshaped hfits

/-- A task leaves the queue and the slot to others, so its step has to be looked at only for the states
and nodes of its worker. -/
theorem work (hnodup : fresh.Nodup) (hfresh : ∀ s ∈ fresh, s ∉ shared.seen)
    (hseen : ∀ s, s ∈ shared'.seen ↔ s ∈ fresh ∨ s ∈ shared.seen)
    (howned : (w'.phase.owned ++ (dropped ++ forfeited)).Perm (fresh ++ w.phase.owned))
    (hentered : ∀ c ∈ w'.phase.inHand, c ∈ w.phase.inHand ∨
      ∃ n₀ ∈ w.phase.inHand, n₀.state ∈ dropped ∧ ∃ m cost, rules.Step n₀.state m c.state cost)
    (hexplored : w'.phase.Fits rules .whenGenerated shared'.seen →
      ∀ s ∈ dropped, Explored rules shared'.seen s) :
    Traced rules (lost ++ forfeited) ⟨shared', before ++ w' :: after, waiting⟩ := by
  have hperm : ((nodes shared'.queue.frontier).map Node.state ++ w'.phase.owned ++
      (dropped ++ forfeited)).Perm
        (fresh ++ ((nodes shared.queue.frontier).map Node.state ++ w.phase.owned)) := by
    rw [hframe.queue, List.append_assoc]
    exact (howned.append_left _).trans (List.perm_append_comm_assoc ..)
  refine h.replace hshaped hnodup hfresh hseen hperm ?_ ?_ (fun hpending hs => ?_) fun he hs => ?_
  · rw [hframe.queue]
    rintro c (hc | hc)
    · exact .inl (.inl hc)
    · exact (hentered c hc).imp_left .inr
  · rw [hframe.slot]
    exact fun c hc => .inl hc
  · rw [hframe.slot] at hpending
    have hs := hframe.unstopped hs
    refine ⟨hpending, hs, fun hw => ?_⟩
    have hw' := hfits hpending hs hw
    exact ⟨hw', hexplored hw'⟩
  · rw [hframe.slot] at he
    exact .inl ⟨he, hframe.unstopped hs⟩

/-- A task goes on with what it has. -/
theorem keep (hs : ∀ s, s ∈ shared'.seen ↔ s ∈ shared.seen) (howned : w'.phase.owned = w.phase.owned)
    (hinHand : w'.phase.inHand = w.phase.inHand) :
    Traced rules (lost ++ []) ⟨shared', before ++ w' :: after, waiting⟩ := by
  refine h.work hframe hshaped hfits List.nodup_nil (List.forall_mem_nil _) (by simpa using hs) ?_ ?_
    fun _ => List.forall_mem_nil _
  · rw [howned, List.nil_append, List.append_nil, List.nil_append]
  · rw [hinHand]
    exact fun c hc => .inl hc

/-- A task records a state and answers for it from now on. -/
theorem record {s : S} (hfresh : s ∉ shared.seen) (hs : ∀ t, t ∈ shared'.seen ↔ t = s ∨ t ∈ shared.seen)
    (howned : w'.phase.owned.Perm (s :: w.phase.owned)) (hinHand : w'.phase.inHand = w.phase.inHand) :
    Traced rules (lost ++ []) ⟨shared', before ++ w' :: after, waiting⟩ := by
  refine h.work hframe hshaped hfits (List.nodup_singleton s) (by simpa using hfresh) (by simpa using hs)
    ?_ ?_ fun _ => List.forall_mem_nil _
  · simpa using howned
  · rw [hinHand]
    exact fun c hc => .inl hc

/-- A task has made all children of its node. It has explored the state of the node, and answers for
those of the children. -/
theorem finish (hs : shared'.seen = shared.seen) (hinHand : n ∈ w.phase.inHand)
    (howned : (w'.phase.owned ++ [n.state]).Perm w.phase.owned)
    (hchildren : ∀ c ∈ w'.phase.inHand, ∃ m cost, rules.Step n.state m c.state cost)
    (hexplored : w'.phase.Fits rules .whenGenerated shared'.seen → Explored rules shared'.seen n.state) :
    Traced rules (lost ++ []) ⟨shared', before ++ w' :: after, waiting⟩ := by
  refine h.work hframe hshaped hfits List.nodup_nil (List.forall_mem_nil _) (by simp [hs])
    (by simpa using howned) ?_ ?_
  · exact fun c hc => .inr ⟨n, hinHand, List.mem_singleton_self _, hchildren c hc⟩
  · exact fun hw' => List.forall_mem_singleton.2 (hexplored hw')

/-- A task fails, and the states that it answers for are lost. -/
theorem fail (hs : shared'.seen = shared.seen) (howned : w'.phase.owned = [])
    (hinHand : w'.phase.inHand = []) (hforfeited : w.phase.owned = forfeited) :
    Traced rules (lost ++ forfeited) ⟨shared', before ++ w' :: after, waiting⟩ := by
  refine h.work hframe hshaped hfits List.nodup_nil (List.forall_mem_nil _) (by simp [hs]) ?_ ?_
    fun _ => List.forall_mem_nil _
  · rw [howned, hforfeited]
    exact .refl _
  · rw [hinHand]
    exact List.forall_mem_nil _

end

theorem task (h : Traced rules lost ⟨shared, before ++ w :: after, waiting⟩) (hp : p.Respects rules)
    (hplain : p.Plain) {stage : Stage S M} {progress : Progress S M}
    (hcarries : stage.Carries p rules .whenGenerated n)
    (hflag : shared.slot.flag = true ↔ ∃ n, shared.slot.content = .assigned n)
    (hw : w.phase = .working n stage) (hw' : w'.phase = afterTask n progress)
    (ht : stage.step p .whenGenerated n shared = (progress, shared')) :
    Traced rules (lost ++ w.phase.forfeited p shared) ⟨shared', before ++ w' :: after, waiting⟩ := by
  have hframe := Stage.frame_of_step_eq ht
  have hshaped : stage.Shaped := by
    have := h.shaped w (by simp)
    rwa [hw] at this
  have heffect := hshaped.effect hplain n shared
  have hshaped' := hshaped.step hplain n shared
  have hchildren := hcarries.step hp shared
  have hforfeited : w.phase.forfeited p shared = stage.forfeited n progress := by
    rw [hw, Phase.forfeited, ht]
  rw [ht] at heffect hshaped' hchildren
  simp only at heffect hshaped' hchildren
  rw [← hw'] at hshaped'
  -- What the task has achieved, as long as it has to achieve anything.
  have hfits : shared.slot.content = .pending → shared.stopped = false →
      w.phase.Fits rules .whenGenerated shared.seen →
        w'.phase.Fits rules .whenGenerated shared'.seen := by
    intro hpending hs hfits
    have hflag' : shared.slot.flag = false := by
      rw [← Bool.not_eq_true, hflag]
      rintro ⟨n, hn⟩
      cases hpending.symm.trans hn
    rw [hw] at hfits
    have := Stage.Fits.step hp hplain hcarries hfits hflag' hs
    rwa [ht, ← hw'] at this
  rw [hforfeited]
  cases heffect with
  | kept hs ho =>
    refine h.keep hframe hshaped' hfits hs ?_ (by rw [hw, hw']; rfl)
    rw [hw, hw']
    exact ho
  | goal hs ho =>
    refine h.keep hframe hshaped' hfits (by simp [hs]) ?_ (by rw [hw, hw']; rfl)
    rw [hw, hw']
    exact ho.symm
  | recorded hstage hfresh hs =>
    refine h.record hframe hshaped' hfits hfresh hs ?_ (by rw [hw, hw']; rfl)
    rw [hw, hw', hstage]
    exact .swap ..
  | finished hs ho =>
    refine h.finish (n := n) hframe hshaped' hfits hs ?_ ?_ ?_ ?_
    · rw [hw]
      exact List.mem_singleton_self n
    · rw [hw, hw']
      simp only [afterTask, Phase.owned, Stage.owned, ho, List.map_reverse, List.nil_append]
      exact (List.perm_append_singleton ..).trans ((List.reverse_perm _).cons _)
    · rw [hw']
      intro c hc
      obtain ⟨m, t, step, remaining, hstep, -, rfl⟩ := hchildren c hc
      exact ⟨m, step, hstep⟩
    · rw [hw']
      exact fun hcovers => .of_covers hcovers
  | failed hs =>
    refine h.fail hframe hshaped' hfits hs (by rw [hw']; rfl) (by rw [hw']; rfl) ?_
    rw [hw]
    rfl

theorem taken (h : Traced rules lost ⟨shared, before ++ w :: after, waiting⟩)
    (hsound : Sound shared.queue.frontier) {queue : WorkQueue F}
    (hw : w.phase = .idle) (hw' : w'.phase = .working n .count)
    (ht : shared.queue.take shared.stopped = .taken n queue) :
    Traced rules (lost ++ []) ⟨{ shared with queue }, before ++ w' :: after, waiting⟩ := by
  obtain ⟨-, hunstopped, frontier, hpop, rfl, -⟩ := WorkQueue.take_eq_taken ht
  have hnodes := nodes_pop hsound hpop
  have hin : n ∈ nodes shared.queue.frontier := hnodes.mem_iff.2 (List.mem_cons_self ..)
  refine h.pass (by rw [hw']; trivial) (fun _ => .rfl) ?_ ?_ rfl id fun hpending _ _ => ?_
  · refine List.perm_iff_count.2 fun s => ?_
    have hcount := (hnodes.map Node.state).count_eq s
    rw [hw, hw']
    simp only [Phase.owned, Stage.owned, Stage.pending, Stage.made, List.map_cons, List.map_nil,
      List.count_append, List.count_cons, List.count_nil] at hcount ⊢
    omega
  · rw [hw']
    rintro n' (hn' | hn')
    · exact .inl (hnodes.mem_iff.2 (List.mem_cons_of_mem _ hn'))
    · rw [List.mem_singleton.1 hn']
      exact .inl hin
  · rw [hw']
    refine h.balanced.recorded _ (List.mem_append_left _ ?_)
    exact List.mem_map_of_mem hin

theorem completed (h : Traced rules lost ⟨shared, before ++ w :: after, waiting⟩) [Coin ρ]
    (hsound : Sound shared.queue.frontier) {children : List (Node S M)} {exhausted : Bool}
    {queue : WorkQueue F} {coin coin' : ρ} (hw : w.phase = .complete n children)
    (hw' : w'.phase = if exhausted then .exhaust else .idle)
    (hc : shared.queue.complete children coin = .ok (exhausted, queue, coin')) :
    Traced rules (lost ++ []) ⟨{ shared with queue }, before ++ w' :: after, waiting⟩ := by
  obtain ⟨-, hnodes, -⟩ := WorkQueue.complete_eq_ok hsound hc
  have hempty : w'.phase.owned = [] ∧ w'.phase.inHand = [] ∧ w'.phase.Shaped ∧
      ∀ seen, w'.phase.Fits rules .whenGenerated seen := by
    rw [hw']
    cases exhausted <;> exact ⟨rfl, rfl, trivial, fun _ => trivial⟩
  refine h.pass hempty.2.2.1 (fun _ => .rfl) ?_ ?_ rfl id fun _ _ _ => hempty.2.2.2 _
  · rw [hempty.1, hw, List.append_nil]
    refine ((hnodes.map Node.state).trans ?_)
    rw [List.map_append]
    exact List.perm_append_comm
  · rw [hempty.2.1, hw]
    rintro n' (hn' | hn')
    · exact (List.mem_append.1 (hnodes.mem_iff.1 hn')).symm
    · cases hn'

theorem won (h : Traced rules lost ⟨shared, before ++ w :: after, waiting⟩)
    (hw : w.phase = .publish n) (hw' : w'.phase = .close n) :
    Traced rules (lost ++ []) ⟨{ shared with slot := ⟨.assigned n, true⟩ }, before ++ w' :: after,
      waiting⟩ := by
  have howned : ((nodes shared.queue.frontier).map Node.state ++ w'.phase.owned ++
      ([n.state] ++ [])).Perm ([] ++ ((nodes shared.queue.frontier).map Node.state ++ w.phase.owned)) := by
    rw [hw, hw']
    simp [Phase.owned]
  refine h.replace (by rw [hw']; trivial) List.nodup_nil (by simp) (by simp) howned ?_ ?_ nofun nofun
  · rw [hw']
    rintro n (hn | hn)
    · exact .inl (.inl hn)
    · cases hn
  · rw [hw]
    intro n' hn'
    cases hn'
    exact .inr ⟨List.mem_singleton_self n, List.mem_singleton_self _⟩

/-- When nothing is left, all that is seen and not lost has been explored. -/
theorem not_isGoal (h : Traced rules lost pool) (hpending : pool.shared.slot.content = .pending)
    (hstop : pool.shared.stopped = false) (howned : pool.owned = [])
    (hs : rules.Within (fun s => s ∉ lost) s) : rules.isGoal s ≠ .ok true := by
  have hexplored : ∀ s ∈ pool.shared.seen, s ∉ lost → Explored rules pool.shared.seen s := by
    intro s hs hl
    refine h.explored hpending hstop s ⟨hs, ?_, hl⟩
    rw [howned]
    exact List.not_mem_nil
  obtain ⟨hseen, hl⟩ := Explored.seen_of_within h.initial hexplored hs
  rw [(hexplored s hseen hl).isGoal]
  nofun

omit [DecidableEq S] [Hashable S] [Frontier F (Node S M)] [LawfulFrontier F (Node S M)] in
theorem owned_of_node?_eq_none {phase : Phase S M} (h : phase.node? = none) : phase.owned = [] := by
  cases phase <;> first | rfl | cases h

theorem exhausted_of_drained (h : Traced rules lost ⟨shared, before ++ w :: after, waiting⟩)
    (hdrained : nodes shared.queue.frontier = [] ∧ held (before ++ w :: after) = [])
    (hw : w.phase = .exhaust) (hw' : w'.phase = .idle) :
    Traced rules (lost ++ []) ⟨{ shared with slot := shared.slot.markExhausted },
      before ++ w' :: after, waiting⟩ := by
  -- Nobody answers for any state, so whatever is seen and not lost has been explored.
  have howned : owned ⟨shared, before ++ w :: after, waiting⟩ = [] := by
    have hworkers := List.filterMap_eq_nil_iff.1 hdrained.2
    rw [owned, hdrained.1, List.map_nil, List.nil_append, List.flatMap_eq_nil_iff]
    exact fun w hw => owned_of_node?_eq_none (hworkers w hw)
  have hperm : ((nodes shared.queue.frontier).map Node.state ++ w'.phase.owned ++ ([] ++ [])).Perm
      ([] ++ ((nodes shared.queue.frontier).map Node.state ++ w.phase.owned)) := by
    rw [hw, hw']
    simp [Phase.owned]
  have hmark : shared.slot.content = .pending ∧ shared.slot.markExhausted.content = .exhausted ∨
      shared.slot.content ≠ .pending ∧ shared.slot.markExhausted = shared.slot := by
    unfold Slot.markExhausted
    split
    · exact .inl ⟨‹_›, rfl⟩
    · exact .inr ⟨‹_›, rfl⟩
  refine h.replace (by rw [hw']; trivial) List.nodup_nil (by simp) (by simp) hperm ?_ ?_ ?_ ?_
  · rw [hw']
    rintro n (hn | hn)
    · exact .inl (.inl hn)
    · cases hn
  · intro n hn
    rcases hmark with ⟨-, hmark⟩ | ⟨-, hmark⟩
    · cases hmark.symm.trans hn
    · exact .inl (hmark ▸ hn)
  · intro hp _
    rcases hmark with ⟨-, hmark⟩ | ⟨hne, hmark⟩
    · cases hmark.symm.trans hp
    · exact absurd (hmark ▸ hp) hne
  · intro he hs
    rcases hmark with ⟨hpending, -⟩ | ⟨-, hmark⟩
    · exact .inr fun s hs' => h.not_isGoal hpending hs howned hs'
    · exact .inl ⟨hmark ▸ he, hs⟩

variable [Coin ρ]

theorem step (hp : p.Respects rules) (hplain : p.Plain) (ho : pool.Orderly) {I : Node S M → Prop}
    (hcarries : pool.Carries p rules I .whenGenerated) (h : Traced rules lost pool)
    (hs : pool.step p .whenGenerated actor = some next) :
    Traced rules (lost ++ pool.forfeited p actor) next := by
  have honext := ho.step hs
  rcases step_cases hs with ⟨before, w, after, w', shared', rfl, hw, hacts, rfl⟩ |
    ⟨waiting', shared', rfl, hwaits, rfl⟩ | ⟨rfl, rfl⟩
  · obtain ⟨shared, workers, waiting⟩ := pool
    obtain rfl : workers = _ := hw
    rw [forfeited_middle]
    generalize hph : w.phase = phase at hacts
    have hflag : shared.slot.flag = true → shared.slot.content ≠ .pending := by
      intro hflag hpending
      obtain ⟨n, hn⟩ := ho.flag.1 hflag
      cases hpending.symm.trans hn
    cases hacts with
    | refused =>
      exact h.pass trivial (fun _ => .rfl) (by rw [hph]; exact .refl _) (by rw [hph]; exact fun _ h => h)
        rfl id fun _ _ _ => trivial
    | taken ht => exact h.taken ho.sound hph rfl ht
    | task ht =>
      have hcarried := hcarries.workers w (by simp)
      rw [hph] at hcarried
      rw [← hph]
      exact h.task hp hplain hcarried.2 ho.flag hph rfl ht
    | tooLate hf | forgone hf => exact h.forget rfl fun hpending => absurd hpending (hflag hf)
    | announced | kept =>
      refine h.pass trivial (fun _ => .rfl) (by rw [hph]; exact .refl _)
        (by rw [hph]; exact fun _ h => h) rfl id fun _ _ hfits => ?_
      rw [hph] at hfits
      first | exact hfits | trivial
    | won => exact h.won hph rfl
    | beaten hb => exact h.forget rfl fun hpending => absurd hpending hb
    | closed =>
      exact h.pass trivial (fun _ => .rfl) (by rw [hph]; exact .refl _) (by rw [hph]; exact fun _ h => h)
        rfl id fun _ _ _ => trivial
    | @judged n children =>
      cases hstop : shared.stopped with
      | true => exact h.forget rfl fun _ => hstop
      | false =>
        exact h.pass trivial (fun _ => .rfl) (by rw [hph]; exact .refl _)
          (by rw [hph]; exact fun _ h => h) rfl id fun _ _ _ => trivial
    | blamed =>
      exact h.pass trivial (fun _ => .rfl) (by rw [hph]; exact .refl _) (by rw [hph]; exact fun _ h => h)
        rfl id fun _ _ _ => trivial
    | completed hc => exact h.completed ho.sound hph rfl hc
    | broke =>
      exact absurd rfl (honext.unbroken _ (List.mem_append_right _ (List.mem_cons_self ..)) _ _)
    | exhausted => exact h.exhausted_of_drained (ho.drained (.inr ⟨w, by simp, hph⟩)) hph rfl
  · rw [show pool.forfeited p .waiter = [] from rfl, List.append_nil]
    obtain ⟨shared, workers, waiting⟩ := pool
    obtain ⟨hinitial, hshaped, hbalanced, hentered, hslot, hfits, hexplored, hexhausted⟩ := h
    cases hwaits <;>
      exact ⟨hinitial, hshaped, hbalanced, hentered, hslot, hfits, hexplored, hexhausted⟩
  · rw [show pool.forfeited p .outsider = [] from rfl, List.append_nil]
    exact ⟨h.initial, h.shaped, h.balanced, h.entered, h.slot, nofun, nofun, nofun⟩

end Traced

end Pool

/-! ### Which states may be lost -/

/-- Some call fails that a task on `s` may make. -/
inductive Problem.Fails (p : Problem ω S M) (rules : Rules S M) (s : S) : Prop
  | isGoal {world : ω} {fault : Fault} (h : (p.isGoal s world).result = .error fault)
  | legalMoves {world : ω} {fault : Fault} (h : (p.legalMoves s world).result = .error fault)
  | applyMove {m : M} {world : ω} {fault : Fault} (legal : rules.IsLegal s m)
      (h : (p.applyMove s m world).result = .error fault)
  | alreadySeen {m : M} {t : S} {world : ω} {fault : Fault} (legal : rules.IsLegal s m)
      (apply : rules.applyMove s m = .ok t) (h : (p.alreadySeen t world).result = .error fault)
  | moveCost {m : M} {world : ω} {fault : Fault} (legal : rules.IsLegal s m)
      (h : (p.moveCost s m world).result = .error fault)
  | onProgress {tries : Nat} {world : ω} {fault : Fault}
      (h : (p.onProgress s tries world).result = .error fault)

/-- A task may fail on the state itself, or on a state from which it is reached by one move. -/
def Problem.Endangers (p : Problem ω S M) (rules : Rules S M) (s : S) : Prop :=
  ∃ ms r c, rules.Route rules.initial ms r c ∧ p.Fails rules r ∧
    (s = r ∨ ∃ m, rules.IsLegal r m ∧ rules.applyMove r m = .ok s)

theorem Stage.Shaped.fails {p : Problem ω S M} {n : Node S M} {stage : Stage S M}
    {shared : Shared ω S M F} {fault : Fault} (h : stage.Shaped)
    (hcarries : stage.Carries p rules .whenGenerated n)
    (hf : (stage.step p .whenGenerated n shared).1 = .failed fault) : p.Fails rules n.state := by
  revert hf
  let P : Progress S M × Shared ω S M F → Prop := fun result =>
    result.1 = .failed fault → p.Fails rules n.state
  cases stage with
  | claim | claimBy | drop | estimate => exact h.elim
  | count | generate | discard =>
    intro hf
    cases hf
  | test tries =>
    refine calling_ind P (fun reached _ hf => ?_) fun _ hr _ => .isGoal hr
    cases reached <;> cases hf
  | list tries =>
    refine calling_ind P (fun _ _ hf => ?_) fun _ hr _ => .legalMoves hr
    cases hf
  | lookAtFlag | lookAtStop =>
    simp only [Stage.step]
    intro hf
    split at hf <;> cases hf
  | apply sweep m =>
    refine calling_ind P (fun _ _ hf => ?_) fun _ hr _ => .applyMove hcarries.2 hr
    cases hf
  | screen sweep m t =>
    refine calling_ind P (fun _ _ hf => ?_) fun _ hr _ => .alreadySeen hcarries.2.1 hcarries.2.2 hr
    cases hf
  | screenBy sweep m t query =>
    intro hf
    obtain rfl | ⟨known, rfl⟩ := h
    · cases hf
    · cases known <;> cases hf
  | price sweep m t =>
    refine calling_ind P (fun _ _ hf => ?_) fun _ hr _ => .moveCost hcarries.2.1 hr
    cases hf
  | report sweep =>
    refine calling_ind P (fun _ _ hf => ?_) fun _ hr _ => .onProgress hr
    cases hf

omit [DecidableEq S] [Hashable S] in
/-- A task answers for its own state and for states reached from it by one move. -/
theorem Stage.Carries.owned {p : Problem ω S M} {n : Node S M} {stage : Stage S M}
    (h : stage.Carries p rules .whenGenerated n) (hs : s ∈ stage.owned n) :
    s = n.state ∨ ∃ m, rules.IsLegal n.state m ∧ rules.applyMove n.state m = .ok s := by
  rcases List.mem_cons.1 hs with rfl | hs
  · exact .inl rfl
  right
  rcases List.mem_append.1 hs with hs | hs
  · unfold Stage.pending at hs
    split at hs
    · exact List.mem_singleton.1 hs ▸ ⟨_, h.2⟩
    · exact List.mem_singleton.1 hs ▸ ⟨_, h.2⟩
    · cases hs
  · obtain ⟨c, hc, rfl⟩ := List.mem_map.1 hs
    cases stage with
    | claim | claimBy | drop | count | test | list => cases hc
    | lookAtFlag | lookAtStop | apply | generate | screen | screenBy | price =>
      exact (h.1.children c hc).reached
    | estimate => cases h.1
    | discard | report => exact (h.children c hc).reached

namespace Pool

variable [Frontier F (Node S M)] [LawfulFrontier F (Node S M)] {p : Problem ω S M}
  {pool : Pool ω S M F ρ} {actor : Actor} {lost : List S}

theorem Traced.endangers_of_forfeited (h : Traced rules lost pool)
    (hcarries : pool.Carries p rules (Node.Genuine rules) .whenGenerated)
    (hs : s ∈ pool.forfeited p actor) : p.Endangers rules s := by
  cases actor with
  | worker index =>
    cases hw : pool.workers[index]? with
    | none =>
      simp only [forfeited, hw] at hs
      cases hs
    | some w =>
      simp only [forfeited, hw] at hs
      have hmem := List.mem_of_getElem? hw
      have hcarried := hcarries.workers w hmem
      have hshaped := h.shaped w hmem
      cases hph : w.phase <;> rw [hph] at hs hcarried hshaped
      case working n stage =>
        replace hs : s ∈ stage.forfeited n (stage.step p .whenGenerated n pool.shared).1 := hs
        cases hf : (stage.step p .whenGenerated n pool.shared).1 <;> rw [hf] at hs
        case failed fault =>
          exact ⟨_, _, _, hcarried.1, hshaped.fails hcarried.2 hf, hcarried.2.owned hs⟩
        all_goals cases hs
      all_goals cases hs
  | waiter => cases hs
  | outsider => cases hs

/-! ### Runs -/

namespace Traced

/-- What a run loses are states on which a task may fail, and states reached from these by one move. -/
theorem follow [Coin ρ] (hp : p.Respects rules) (hplain : p.Plain) (ho : pool.Orderly)
    (hcarries : pool.Carries p rules (Node.Genuine rules) .whenGenerated)
    (h : Traced rules lost pool) (actors : List Actor) :
    Traced rules (lost ++ pool.lost p actors) (pool.follow p .whenGenerated actors) ∧
      ∀ s ∈ pool.lost p actors, p.Endangers rules s := by
  induction actors generalizing pool lost with
  | nil =>
    rw [show pool.lost p [] = [] from rfl, List.append_nil]
    exact ⟨h, fun s hs => absurd hs List.not_mem_nil⟩
  | cons actor actors ih =>
    show Traced rules (lost ++ (pool.forfeited p actor ++
        ((pool.step p .whenGenerated actor).getD pool).lost p actors))
      (((pool.step p .whenGenerated actor).getD pool).follow p .whenGenerated actors) ∧
        ∀ s ∈ pool.forfeited p actor ++
          ((pool.step p .whenGenerated actor).getD pool).lost p actors, p.Endangers rules s
    rw [← List.append_assoc, List.forall_mem_append, and_left_comm]
    refine ⟨fun s hs => h.endangers_of_forfeited hcarries hs, ?_⟩
    cases hs : pool.step p .whenGenerated actor with
    | none =>
      rw [forfeited_of_step_eq_none hs, List.append_nil]
      exact ih ho hcarries h
    | some next =>
      exact ih (ho.step hs) (hcarries.step hp (inherited_genuine p rules _) hs)
        (h.step hp hplain ho hcarries hs)

theorem of_isFresh {root : Node S M} (h : pool.IsFresh root) (hroot : root.state = rules.initial)
    (hseen : ∀ s, s ∈ pool.shared.seen ↔ s = rules.initial) : Traced rules [] pool := by
  have howned : pool.owned = [rules.initial] := by
    have hworkers : pool.workers.flatMap (fun worker => worker.phase.owned) = [] := by
      refine List.flatMap_eq_nil_iff.2 fun w hw => ?_
      rw [h.idle w hw]
      rfl
    rw [owned, h.nodes, hworkers, ← hroot]
    rfl
  refine ⟨(hseen _).2 rfl, fun w hw => ?_, ⟨?_, ?_, ?_, ?_⟩, ?_, ?_, ?_, ?_, ?_⟩
  · rw [h.idle w hw]
    trivial
  · rw [howned]
    exact List.nodup_singleton _
  · rw [howned]
    exact fun s hs => (hseen s).2 (List.mem_singleton.1 hs)
  · exact fun s _ => List.not_mem_nil
  · exact fun s hs => absurd hs List.not_mem_nil
  · rintro n (hn | ⟨w, hw, hn⟩)
    · rw [h.nodes] at hn
      rw [List.mem_singleton.1 hn, hroot]
      exact .initial
    · rw [h.idle w hw] at hn
      cases hn
  · rw [h.slot]
    nofun
  · intro _ _ w hw
    rw [h.idle w hw]
    trivial
  · intro _ _ s hs
    have hout := hs.owned
    rw [howned] at hout
    exact absurd (List.mem_singleton.2 ((hseen s).1 hs.seen)) hout
  · rw [h.slot]
    nofun

/-- A run that was not stopped ends with a goal if and only if some route to a goal keeps clear of the
states that were lost. -/
theorem isSome_iff {goal : Option (Node S M)} (h : Traced rules lost pool) (ho : pool.Orderly)
    {I : Node S M → Prop} (hcarries : pool.Carries p rules I .whenGenerated)
    (hstop : pool.shared.stopped = false) (hend : pool.outcome? = some goal) :
    goal.isSome = true ↔ ∃ s, rules.Within (fun s => s ∉ lost) s ∧ rules.isGoal s = .ok true := by
  have hslot := (ho.waiting goal (.inr (ended_of_outcome? hend).1)).resolve_left (by rw [hstop]; nofun)
  unfold Slot.resolution? at hslot
  split at hslot
  · cases hslot
  · rename_i n hn
    cases hslot
    refine ⟨fun _ => ⟨n.state, ?_, (hcarries.slot n hn).2⟩, fun _ => rfl⟩
    exact (h.slot n hn).mono fun _ hs => hs.lost
  · rename_i he
    cases hslot
    refine ⟨nofun, ?_⟩
    rintro ⟨s, hs, hgoal⟩
    exact absurd hgoal (h.exhausted he hstop s hs)

end Traced

end Pool

end StateSearch
