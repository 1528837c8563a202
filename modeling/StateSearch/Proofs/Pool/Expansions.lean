import StateSearch.Proofs.Pool.CostLayers
import StateSearch.Proofs.Pool.Outcomes
import Mathlib.Data.Set.Card

/-!
# No state is expanded twice, and none is missed

For problems that ask whether a state is seen by recording it, a state that is seen has been expanded or is
waiting for that, with the queue or with one worker (`Pool.awaiting`), and never both (`Charted`). This is so
for both ways of claiming states, in whatever order the steps are taken and whatever fails.

If no call fails, no state is left out either (`Surveyed`), as long as no goal is found and nobody asks for a
stop: an expanded state is being worked on, or its successors are seen or on their way. When nothing is left
to do, the expanded states are those that can be reached, and none of them is a goal.
-/

namespace StateSearch

open StateSearch.Random LawfulFrontier

variable {ω S M F ρ : Type} {n : Node S M}

/-! ### What a task still has to expand -/

/-- The state of the node, if it has been claimed and its expansion has not been counted. -/
def Stage.toExpand (n : Node S M) : Stage S M → List S
  | claimBy (.answer false) | count => [n.state]
  | _ => []

/-- The node that is expanded by the next step of a task on `n`. -/
def Stage.counted (n : Node S M) : Stage S M → List (Node S M)
  | count => [n]
  | _ => []

/-- The states that are seen and that a task on `n`, or on a node it makes, is going to expand. -/
def Stage.awaiting (n : Node S M) (stage : Stage S M) : Claiming → List S
  | .whenGenerated => stage.toExpand n ++ (stage.pending ++ stage.made.map Node.state)
  | .whenTaken => stage.toExpand n

/-- The states that are claimed by making these nodes. -/
def Claiming.states : Claiming → List (Node S M) → List S
  | whenGenerated, nodes => nodes.map Node.state
  | whenTaken, _ => []

@[simp] theorem Claiming.states_nil (claiming : Claiming) :
    claiming.states ([] : List (Node S M)) = [] := by
  cases claiming <;> rfl

theorem Claiming.states_append (claiming : Claiming) (nodes nodes' : List (Node S M)) :
    claiming.states (nodes ++ nodes') = claiming.states nodes ++ claiming.states nodes' := by
  cases claiming
  · exact List.map_append
  · rfl

theorem Claiming.states_perm (claiming : Claiming) {nodes nodes' : List (Node S M)}
    (h : nodes.Perm nodes') : (claiming.states nodes).Perm (claiming.states nodes') := by
  cases claiming
  · exact h.map Node.state
  · exact .refl _

def Progress.isFailed : Progress S M → Bool
  | failed _ => true
  | _ => false

def Phase.isWorking : Phase S M → Bool
  | working .. => true
  | _ => false

def Phase.awaiting (claiming : Claiming) : Phase S M → List S
  | working n stage => stage.awaiting n claiming
  | judgeFlag _ children | judgeStop _ children | complete _ children => claiming.states children
  | idle | announce _ | publish _ | close _ | blame .. | exhaust | ended | broken .. => []

/-- The stages of a task on `n`, if the problem is plain. -/
def Stage.Formed (claiming : Claiming) (n : Node S M) : Stage S M → Prop
  | claim | drop | estimate .. => claiming = .whenTaken
  | claimBy query => claiming = .whenTaken ∧ (query = .record n.state ∨ ∃ known, query = .answer known)
  | screen .. => claiming = .whenGenerated
  | screenBy _ _ t query => (match claiming with
    | .whenGenerated => query = .record t
    | .whenTaken => query = .lookUp t) ∨ ∃ known, query = .answer known
  | count | test _ | list _ | lookAtFlag .. | lookAtStop .. | apply .. | generate .. | discard _
  | price .. | report _ => True

def Phase.Formed (claiming : Claiming) : Phase S M → Prop
  | working n stage => stage.Formed claiming n
  | _ => True

variable [DecidableEq S] [Hashable S] {claiming : Claiming} {p : Problem ω S M} {stage : Stage S M}

/-- What a step of a task on `n` does to the states that are seen and to those that it has to expand. -/
inductive Stage.Ledger (claiming : Claiming) (n : Node S M) (stage : Stage S M)
    (seen seen' : Std.HashSet S) : Progress S M → Prop
  | kept {progress : Progress S M} (hs : ∀ s, s ∈ seen' ↔ s ∈ seen)
      (ha : ((stage.counted n).map Node.state ++ (Pool.afterTask n progress).awaiting claiming).Perm
        (stage.awaiting n claiming)) : Ledger claiming n stage seen seen' progress
  | recorded {progress : Progress S M} {s : S} (hfresh : s ∉ seen)
      (hs : ∀ t, t ∈ seen' ↔ t = s ∨ t ∈ seen)
      (ha : ((stage.counted n).map Node.state ++ (Pool.afterTask n progress).awaiting claiming).Perm
        (s :: stage.awaiting n claiming)) : Ledger claiming n stage seen seen' progress
  | failed {fault : Fault} (hs : ∀ s, s ∈ seen' ↔ s ∈ seen) (hc : stage.counted n = []) :
    Ledger claiming n stage seen seen' (.failed fault)

/-- A step that does not fail loses no state that is waiting or claimed by it. -/
theorem Stage.Ledger.mem_awaiting {seen seen' : Std.HashSet S} {progress : Progress S M} {s : S}
    (h : stage.Ledger claiming n seen seen' progress) (hne : progress.isFailed = false)
    (hs : (s ∈ seen' ∧ s ∉ seen) ∨ s ∈ stage.awaiting n claiming) :
    s ∈ (stage.counted n).map Node.state ++ (Pool.afterTask n progress).awaiting claiming := by
  cases h with
  | kept hseen ha =>
    rcases hs with ⟨hs, hnot⟩ | hs
    · exact absurd ((hseen s).1 hs) hnot
    · exact ha.mem_iff.2 hs
  | recorded hfresh hseen ha =>
    rcases hs with ⟨hs, hnot⟩ | hs
    · exact ha.mem_iff.2 (((hseen s).1 hs).resolve_right hnot ▸ List.mem_cons_self ..)
    · exact ha.mem_iff.2 (List.mem_cons_of_mem _ hs)
  | failed => cases hne

omit [DecidableEq S] [Hashable S] in
theorem Sweep.formed_next (sweep : Sweep S M) : sweep.next.Formed claiming n := by
  obtain ⟨tries, rest, children⟩ := sweep
  cases rest <;> trivial

omit [DecidableEq S] [Hashable S] in
theorem Sweep.awaiting_next (sweep : Sweep S M) :
    sweep.next.awaiting n claiming = claiming.states sweep.children := by
  obtain ⟨tries, rest, children⟩ := sweep
  cases rest <;> cases claiming <;> rfl

theorem Stage.Formed.step (hplain : p.Plain) (h : stage.Formed claiming n)
    (shared : Shared ω S M F) :
    (Pool.afterTask n (stage.step p claiming n shared).1).Formed claiming := by
  let P : Progress S M × Shared ω S M F → Prop := fun result =>
    (Pool.afterTask n result.1).Formed claiming
  cases stage with
  | claim => exact calling_ind P (fun _ hq => ⟨h, .inl (hplain _ _ _ hq)⟩) fun _ _ => trivial
  | claimBy query =>
    obtain ⟨rfl, rfl | ⟨known, rfl⟩⟩ := h
    · exact ⟨rfl, .inr ⟨_, rfl⟩⟩
    · cases known <;> trivial
  | drop | count => trivial
  | test tries =>
    exact calling_ind P (fun reached _ => by cases reached <;> trivial) fun _ _ => trivial
  | list tries => exact calling_ind P (fun _ _ => Sweep.formed_next _) fun _ _ => trivial
  | lookAtFlag | lookAtStop =>
    simp only [Stage.step]
    split <;> trivial
  | apply | report => exact calling_ind P (fun _ _ => trivial) fun _ _ => trivial
  | generate sweep m t =>
    cases claiming with
    | whenGenerated => exact rfl
    | whenTaken => exact .inl rfl
  | screen sweep m t =>
    obtain rfl : claiming = .whenGenerated := h
    exact calling_ind P (fun _ hq => .inl (hplain _ _ _ hq)) fun _ _ => trivial
  | screenBy sweep m t query =>
    rcases h with hquery | ⟨known, rfl⟩
    · cases claiming with
      | whenGenerated =>
        obtain rfl : query = .record t := hquery
        exact .inr ⟨_, rfl⟩
      | whenTaken =>
        obtain rfl : query = .lookUp t := hquery
        exact .inr ⟨_, rfl⟩
    · cases known <;> trivial
  | discard => exact Sweep.formed_next _
  | price =>
    refine calling_ind P (fun _ _ => ?_) fun _ _ => trivial
    cases claiming with
    | whenGenerated => exact Sweep.formed_next _
    | whenTaken => exact rfl
  | estimate => exact calling_ind P (fun _ _ => Sweep.formed_next _) fun _ _ => trivial

theorem Stage.Formed.ledger (hplain : p.Plain) (h : stage.Formed claiming n)
    (shared : Shared ω S M F) :
    stage.Ledger claiming n shared.seen (stage.step p claiming n shared).2.seen
      (stage.step p claiming n shared).1 := by
  let P : Progress S M × Shared ω S M F → Prop := fun result =>
    stage.Ledger claiming n shared.seen result.2.seen result.1
  cases stage with
  | claim =>
    obtain rfl : claiming = .whenTaken := h
    refine calling_ind P (fun query hq => .kept (fun _ => .rfl) ?_) fun _ _ => .failed (fun _ => .rfl) rfl
    obtain rfl := hplain _ _ _ hq
    exact .refl _
  | claimBy query =>
    obtain ⟨rfl, rfl | ⟨known, rfl⟩⟩ := h
    · simp only [Stage.step, converse_record]
      by_cases hs : n.state ∈ shared.seen
      · rw [decide_eq_true hs]
        exact .kept (fun _ => Shared.mem_record_of_mem _ hs) (.refl _)
      · rw [decide_eq_false hs]
        exact .recorded hs (fun _ => Shared.mem_record _) (.refl _)
    · cases known <;> exact .kept (fun _ => .rfl) (.refl _)
  | drop | count => exact .kept (fun _ => .rfl) (by cases claiming <;> exact .refl _)
  | test tries =>
    refine calling_ind P (fun reached _ => .kept (fun _ => .rfl) ?_)
      fun _ _ => .failed (fun _ => .rfl) rfl
    cases reached <;> cases claiming <;> exact .refl _
  | list tries =>
    refine calling_ind P (fun moves _ => .kept (fun _ => .rfl) ?_) fun _ _ => .failed (fun _ => .rfl) rfl
    show (Stage.awaiting n (Sweep.next { tries, rest := moves }) claiming).Perm _
    rw [Sweep.awaiting_next]
    cases claiming <;> exact .refl _
  | lookAtFlag | lookAtStop =>
    simp only [Stage.step]
    split <;> exact .kept (fun _ => .rfl) (.refl _)
  | apply =>
    exact calling_ind P (fun _ _ => .kept (fun _ => .rfl) (.refl _)) fun _ _ => .failed (fun _ => .rfl) rfl
  | generate sweep m t => exact .kept (fun _ => .rfl) (by cases claiming <;> exact .refl _)
  | screen sweep m t =>
    obtain rfl : claiming = .whenGenerated := h
    refine calling_ind P (fun query hq => .kept (fun _ => .rfl) ?_) fun _ _ => .failed (fun _ => .rfl) rfl
    obtain rfl := hplain _ _ _ hq
    exact .refl _
  | screenBy sweep m t query =>
    rcases h with hquery | ⟨known, rfl⟩
    · cases claiming with
      | whenGenerated =>
        obtain rfl : query = .record t := hquery
        simp only [Stage.step, converse_record]
        by_cases hs : t ∈ shared.seen
        · rw [decide_eq_true hs]
          exact .kept (fun _ => Shared.mem_record_of_mem _ hs) (.refl _)
        · rw [decide_eq_false hs]
          exact .recorded hs (fun _ => Shared.mem_record _) (.refl _)
      | whenTaken =>
        obtain rfl : query = .lookUp t := hquery
        exact .kept (fun _ => .rfl) (.refl _)
    · cases known <;> exact .kept (fun _ => .rfl) (by cases claiming <;> exact .refl _)
  | discard sweep =>
    refine .kept (fun _ => .rfl) (.of_eq ?_)
    rw [show (Stage.discard sweep).awaiting n claiming = claiming.states sweep.children by
      cases claiming <;> rfl]
    exact Sweep.awaiting_next sweep
  | price sweep m t =>
    refine calling_ind P (fun c _ => .kept (fun _ => .rfl) ?_) fun _ _ => .failed (fun _ => .rfl) rfl
    cases claiming with
    | whenGenerated =>
      show ((sweep.add (n.child t m c 0)).next.awaiting n .whenGenerated).Perm _
      rw [Sweep.awaiting_next]
      exact .refl _
    | whenTaken => exact .refl _
  | estimate sweep m t c =>
    obtain rfl : claiming = .whenTaken := h
    refine calling_ind P (fun remaining _ => .kept (fun _ => .rfl) ?_)
      fun _ _ => .failed (fun _ => .rfl) rfl
    show ((sweep.add (n.child t m c remaining)).next.awaiting n .whenTaken).Perm _
    rw [Sweep.awaiting_next]
    exact .refl _
  | report sweep =>
    refine calling_ind P (fun _ _ => .kept (fun _ => .rfl) ?_) fun _ _ => .failed (fun _ => .rfl) rfl
    cases claiming with
    | whenGenerated => exact (List.reverse_perm _).map Node.state
    | whenTaken => exact .refl _

theorem Stage.expanded_step (p : Problem ω S M) (claiming : Claiming) (n : Node S M)
    (shared : Shared ω S M F) (stage : Stage S M) :
    (stage.step p claiming n shared).2.expanded = shared.expanded + (stage.counted n).length := by
  cases stage with
  | claim | test | list | apply | screen | price | estimate | report =>
    exact calling_ind (fun result => result.2.expanded = shared.expanded) (fun _ _ => rfl) fun _ _ => rfl
  | claimBy query | screenBy _ _ _ query =>
    cases query with
    | answer known => cases known <;> rfl
    | _ => rfl
  | drop | count | lookAtFlag | lookAtStop | generate | discard => rfl

theorem Stage.expandedNodes_event (p : Problem ω S M) (claiming : Claiming) (n : Node S M)
    (shared : Shared ω S M F) (stage : Stage S M) (index : Nat) :
    History.expandedNodes ((stage.event? n (stage.step p claiming n shared).1).map
      fun event => (index, event)).toList = stage.counted n := by
  cases stage with
  | count => rfl
  | _ =>
    generalize Prod.fst _ = progress
    cases progress <;> rfl

/-- A task fails only if one of its calls does. -/
theorem Stage.Formed.isFailed_step {q : PureProblem S M} (h : stage.Formed claiming n)
    (shared : Shared ω S M F) : (stage.step q.toProblem claiming n shared).1.isFailed = false := by
  cases stage with
  | claimBy query =>
    obtain ⟨-, rfl | ⟨known, rfl⟩⟩ := h
    · rfl
    · cases known <;> rfl
  | test tries =>
    show (if q.isGoal n.state then Progress.goal else .onward (.list tries)).isFailed = _
    split <;> rfl
  | lookAtFlag | lookAtStop =>
    simp only [Stage.step]
    split <;> rfl
  | screenBy sweep m t query =>
    rcases h with hquery | ⟨known, rfl⟩
    · cases claiming with
      | whenGenerated =>
        obtain rfl : query = .record t := hquery
        rfl
      | whenTaken =>
        obtain rfl : query = .lookUp t := hquery
        rfl
    · cases known <;> rfl
  | price sweep m t => cases claiming <;> rfl
  | _ => rfl

/-- A task goes on with a state that it has claimed until it comes to an end, and it gives up only a
state that somebody else has claimed. -/
theorem Stage.Formed.claims (h : stage.Formed claiming n) (shared : Shared ω S M F) :
    match (stage.step p claiming n shared).1 with
    | .onward stage' => stage.hasClaimed = true → stage'.hasClaimed = true
    | .goal | .children _ => stage.hasClaimed = true
    | .skipped => stage = .drop
    | .failed _ => True := by
  let P : Progress S M × Shared ω S M F → Prop := fun result => match result.1 with
    | .onward stage' => stage.hasClaimed = true → stage'.hasClaimed = true
    | .goal | .children _ => stage.hasClaimed = true
    | .skipped => stage = .drop
    | .failed _ => True
  cases stage with
  | claim => exact calling_ind P (fun _ _ => nofun) fun _ _ => trivial
  | claimBy query =>
    obtain ⟨-, rfl | ⟨known, rfl⟩⟩ := h
    · nofun
    · cases known
      · exact fun _ => rfl
      · nofun
  | drop => exact rfl
  | count | generate => exact fun _ => by cases claiming <;> rfl
  | test tries =>
    refine calling_ind P (fun reached _ => ?_) fun _ _ => trivial
    cases reached
    · exact fun _ => rfl
    · exact rfl
  | list => exact calling_ind P (fun _ _ _ => Sweep.hasClaimed_next _) fun _ _ => trivial
  | lookAtFlag =>
    simp only [Stage.step]
    cases shared.slot.flag <;> exact fun _ => rfl
  | lookAtStop =>
    simp only [Stage.step]
    cases shared.stopped <;> exact fun _ => rfl
  | apply | screen => exact calling_ind P (fun _ _ _ => rfl) fun _ _ => trivial
  | screenBy sweep m t query =>
    rcases h with hquery | ⟨known, rfl⟩
    · cases claiming with
      | whenGenerated =>
        obtain rfl : query = .record t := hquery
        exact fun _ => rfl
      | whenTaken =>
        obtain rfl : query = .lookUp t := hquery
        exact fun _ => rfl
    · cases known <;> exact fun _ => rfl
  | discard => exact fun _ => Sweep.hasClaimed_next _
  | price =>
    refine calling_ind P (fun _ _ => ?_) fun _ _ => trivial
    cases claiming with
    | whenGenerated => exact fun _ => Sweep.hasClaimed_next _
    | whenTaken => exact fun _ => rfl
  | estimate => exact calling_ind P (fun _ _ _ => Sweep.hasClaimed_next _) fun _ _ => trivial
  | report => exact calling_ind P (fun _ _ => rfl) fun _ _ => trivial

theorem Stage.Fits.mem_seen {rules : Rules S M} {seen : Std.HashSet S}
    (h : stage.Fits rules claiming seen n) (hc : stage.hasClaimed = true) : n.state ∈ seen := by
  cases stage with
  | claim | drop => cases hc
  | claimBy query =>
    obtain ⟨-, rfl | ⟨known, rfl, hs⟩⟩ := h
    · cases hc
    · exact hs
  | count | test => exact h
  | list => exact h.1
  | lookAtFlag | lookAtStop | apply | generate | discard | report => exact Covers.own h
  | screen | estimate => exact h.2.own
  | screenBy | price => exact h.1.own

/-- After a step of its task a node is still to be claimed, or its state is seen. -/
theorem Phase.Fits.mem_opened_or_seen {rules : Rules S M} {seen : Std.HashSet S}
    {progress : Progress S M} (h : (Pool.afterTask n progress).Fits rules claiming seen)
    (hne : progress.isFailed = false) (hskipped : progress = .skipped → n.state ∈ seen) :
    n ∈ (Pool.afterTask n progress).opened ∨ n.state ∈ seen := by
  cases progress with
  | onward stage =>
    cases hc : stage.hasClaimed with
    | false => exact .inl (Phase.mem_opened_working.2 ⟨hc, rfl⟩)
    | true => exact .inr (Stage.Fits.mem_seen h hc)
  | goal => exact .inr h
  | children nodes => exact .inr (Covers.own h)
  | skipped => exact .inr (hskipped rfl)
  | failed => cases hne

namespace Pool

variable [Frontier F (Node S M)] [LawfulFrontier F (Node S M)] {pool next : Pool ω S M F ρ}
  {actor : Actor} {past : History S M} {shared shared' : Shared ω S M F}
  {before after : List (Worker S M ρ)} {w w' : Worker S M ρ} {waiting : Waiting S M}

/-- The states that are seen and wait to be expanded. -/
def awaiting (claiming : Claiming) (pool : Pool ω S M F ρ) : List S :=
  claiming.states (nodes pool.shared.queue.frontier) ++
    pool.workers.flatMap fun worker => worker.phase.awaiting claiming

theorem count_awaiting_middle (s : S) :
    (awaiting claiming ⟨shared, before ++ w :: after, waiting⟩).count s =
      (claiming.states (nodes shared.queue.frontier)).count s + (w.phase.awaiting claiming).count s +
        ((before ++ after).flatMap fun worker => worker.phase.awaiting claiming).count s := by
  simp only [awaiting, List.flatMap_append, List.flatMap_cons, List.count_append]
  omega

/-- No state was expanded twice, and none that waits to be expanded was expanded. -/
structure Charted (claiming : Claiming) (past : History S M) (pool : Pool ω S M F ρ) : Prop where
  formed : ∀ w ∈ pool.workers, w.phase.Formed claiming
  balanced : Balanced pool.shared.seen (past.expansions ++ pool.awaiting claiming) []
  expanded : pool.shared.expanded = past.expandedNodes.length

namespace Charted

variable {news : History S M}

theorem replace (h : Charted claiming past ⟨shared, before ++ w :: after, waiting⟩)
    (fresh dropped : List S) (hformed : w'.phase.Formed claiming) (hnodup : fresh.Nodup)
    (hfresh : ∀ s ∈ fresh, s ∉ shared.seen)
    (hseen : ∀ s, s ∈ shared'.seen ↔ s ∈ fresh ∨ s ∈ shared.seen)
    (hawaiting : (news.expansions ++ (claiming.states (nodes shared'.queue.frontier) ++
        w'.phase.awaiting claiming) ++ dropped).Perm
      (fresh ++ (claiming.states (nodes shared.queue.frontier) ++ w.phase.awaiting claiming)))
    (hexpanded : shared'.expanded = shared.expanded + news.expandedNodes.length) :
    Charted claiming (past ++ news) ⟨shared', before ++ w' :: after, waiting⟩ := by
  refine ⟨forall_mem_replace h.formed (fun _ h => h) hformed, ?_, ?_⟩
  · have hperm : ((past ++ news).expansions ++
        awaiting claiming ⟨shared', before ++ w' :: after, waiting⟩ ++ (dropped ++ [])).Perm
        (fresh ++ (past.expansions ++
          awaiting claiming ⟨shared, before ++ w :: after, waiting⟩)) := by
      refine List.perm_iff_count.2 fun s => ?_
      have hcount := hawaiting.count_eq s
      simp only [History.expansions_append, List.count_append, List.count_nil,
        count_awaiting_middle] at hcount ⊢
      omega
    exact h.balanced.move hnodup hfresh hseen hperm
  · rw [History.expandedNodes_append, List.length_append, ← h.expanded]
    exact hexpanded

/-- A worker who expands nothing. It may hand over states to the queue, or drop them. -/
theorem pass (h : Charted claiming past ⟨shared, before ++ w :: after, waiting⟩)
    (dropped : List S) (hformed : w'.phase.Formed claiming) (hseen : shared'.seen = shared.seen)
    (hnews : news.expandedNodes = [])
    (hawaiting : (claiming.states (nodes shared'.queue.frontier) ++ w'.phase.awaiting claiming ++
        dropped).Perm
      (claiming.states (nodes shared.queue.frontier) ++ w.phase.awaiting claiming))
    (hexpanded : shared'.expanded = shared.expanded) :
    Charted claiming (past ++ news) ⟨shared', before ++ w' :: after, waiting⟩ := by
  refine h.replace [] dropped hformed List.nodup_nil (by simp)
    (by simp [hseen]) ?_ ?_
  · rw [History.expansions, hnews]
    exact hawaiting
  · rw [hnews]
    exact hexpanded

theorem of_isFresh {root : Node S M} (h : pool.IsFresh root)
    (hexpanded : pool.shared.expanded = 0)
    (hseen : ∀ s ∈ claiming.states [root], s ∈ pool.shared.seen) : Charted claiming [] pool := by
  have hworkers : pool.workers.flatMap (fun worker => worker.phase.awaiting claiming) = [] := by
    refine List.flatMap_eq_nil_iff.2 fun w hw => ?_
    rw [h.idle w hw]
    rfl
  have hawaiting : pool.awaiting claiming = claiming.states [root] := by
    rw [awaiting, h.nodes, hworkers, List.append_nil]
  refine ⟨fun w hw => ?_, ?_, hexpanded⟩
  · rw [h.idle w hw]
    trivial
  · show Balanced _ ([] ++ pool.awaiting claiming) []
    rw [List.nil_append, hawaiting]
    refine ⟨?_, hseen, fun _ _ => List.not_mem_nil, fun s hs => absurd hs List.not_mem_nil⟩
    cases claiming with
    | whenGenerated => exact List.nodup_singleton _
    | whenTaken => exact List.nodup_nil

theorem task [Coin ρ] (h : Charted claiming past ⟨shared, before ++ w :: after, waiting⟩)
    (hplain : p.Plain) {progress : Progress S M} (hw : w.phase = .working n stage)
    (hw' : w'.phase = afterTask n progress) (ht : stage.step p claiming n shared = (progress, shared')) :
    Charted claiming
      (past ++ ((stage.event? n progress).map fun event => (before.length, event)).toList)
      ⟨shared', before ++ w' :: after, waiting⟩ := by
  have hformed : stage.Formed claiming n := by
    have := h.formed w (by simp)
    rwa [hw] at this
  have hqueue := (Stage.frame_of_step_eq ht).queue
  have hformed' := hformed.step hplain shared
  have hledger := hformed.ledger hplain shared
  have hexpanded := Stage.expanded_step p claiming n shared stage
  have hnews := Stage.expandedNodes_event p claiming n shared stage before.length
  rw [ht] at hformed' hledger hexpanded hnews
  simp only at hformed' hledger hexpanded hnews
  rw [← hw'] at hformed'
  cases hledger with
  | kept hs ha =>
    refine h.replace [] [] hformed' List.nodup_nil (by simp) (by simp [hs]) ?_
      (hnews ▸ hexpanded)
    rw [History.expansions, hnews, hqueue, hw, hw']
    refine List.perm_iff_count.2 fun s => ?_
    have hcount := ha.count_eq s
    simp only [List.count_append, List.count_nil, Phase.awaiting] at hcount ⊢
    omega
  | @recorded _ s hfresh hs ha =>
    refine h.replace [s] [] hformed' (List.nodup_singleton s)
      (by simpa using hfresh) (by simpa using hs) ?_ (hnews ▸ hexpanded)
    rw [History.expansions, hnews, hqueue, hw, hw']
    refine List.perm_iff_count.2 fun t => ?_
    have hcount := ha.count_eq t
    simp only [List.count_append, List.count_cons, List.count_nil, Phase.awaiting] at hcount ⊢
    omega
  | failed hs hc =>
    refine h.replace [] (stage.awaiting n claiming) hformed' List.nodup_nil
      (by simp) (by simp [hs]) ?_ (hnews ▸ hexpanded)
    rw [History.expansions, hnews, hc, hqueue, hw, hw']
    exact .of_eq (by simp [afterTask, Phase.awaiting])

variable [Coin ρ]

omit [LawfulFrontier F (Node S M)] in
theorem expandedNodes_eventOf (index : Nat) (hw : w.phase.isWorking = false) :
    History.expandedNodes ((eventOf p claiming shared w).map fun event => (index, event)).toList = [] := by
  unfold eventOf
  cases hph : w.phase with
  | working n stage =>
    rw [hph] at hw
    cases hw
  | idle | complete =>
    simp only
    split <;> rfl
  | announce =>
    simp only
    split <;> rfl
  | _ => rfl

theorem step (hplain : p.Plain) (hsound : Sound pool.shared.queue.frontier)
    (h : Charted claiming past pool) (hs : pool.step p claiming actor = some next) :
    Charted claiming (past ++ pool.events p claiming actor) next := by
  rcases step_cases hs with ⟨before, w, after, w', shared', rfl, hw, hacts, rfl⟩ |
    ⟨waiting', shared', rfl, hwaits, rfl⟩ | ⟨rfl, rfl⟩
  · obtain ⟨shared, workers, waiting⟩ := pool
    obtain rfl : workers = _ := hw
    replace hacts : Acts p claiming before.length shared w.coin w.phase w' shared' := hacts
    rw [events_middle]
    generalize hph : w.phase = phase at hacts
    have hnews : phase.isWorking = false → History.expandedNodes
        ((eventOf p claiming shared w).map fun event => (before.length, event)).toList = [] :=
      fun hidle => expandedNodes_eventOf _ (by rw [hph]; exact hidle)
    cases hacts with
    | task ht =>
      simp only [eventOf, hph, ht]
      exact h.task hplain hph rfl ht
    | refused | tooLate | announced | won | beaten | closed | kept | blamed | exhausted =>
      refine h.pass [] trivial rfl (hnews rfl) ?_ rfl
      rw [hph]
      exact .of_eq (by simp [Phase.awaiting, Shared.addFault, WorkQueue.close])
    | @taken n queue ht =>
      obtain ⟨-, -, frontier, hpop, rfl, -⟩ := WorkQueue.take_eq_taken ht
      have hnodes := claiming.states_perm (nodes_pop hsound hpop)
      have hstage : (claiming.begin S M).Formed claiming n ∧
          claiming.states (n :: nodes frontier) =
            (claiming.begin S M).awaiting n claiming ++ claiming.states (nodes frontier) := by
        cases claiming
        · exact ⟨trivial, rfl⟩
        · exact ⟨rfl, rfl⟩
      refine h.pass [] hstage.1 rfl (hnews rfl) ?_ rfl
      rw [hph, List.append_nil]
      rw [hstage.2] at hnodes
      exact List.perm_append_comm.trans (hnodes.symm.trans (.of_eq (List.append_nil _).symm))
    | @forgone n children hf =>
      refine h.pass (claiming.states children) trivial rfl (hnews rfl) ?_ rfl
      rw [hph]
      exact .of_eq (by simp [Phase.awaiting])
    | @judged n children =>
      cases shared'.stopped with
      | true =>
        refine h.pass (claiming.states children) trivial rfl (hnews rfl) ?_ rfl
        rw [hph]
        exact .of_eq (by simp [Phase.awaiting])
      | false =>
        refine h.pass [] trivial rfl (hnews rfl) ?_ rfl
        rw [hph]
        exact .of_eq (List.append_nil _)
    | @completed n children exhausted queue coin' hc =>
      obtain ⟨-, hnodes, -⟩ := WorkQueue.complete_eq_ok hsound hc
      have hnodes := claiming.states_perm hnodes
      rw [claiming.states_append] at hnodes
      have hfree : (if exhausted then Phase.exhaust else .idle : Phase S M).awaiting claiming = [] ∧
          (if exhausted then Phase.exhaust else .idle : Phase S M).Formed claiming := by
        cases exhausted <;> exact ⟨rfl, trivial⟩
      refine h.pass [] hfree.2 rfl (hnews rfl) ?_ rfl
      rw [hph, hfree.1, List.append_nil, List.append_nil]
      exact hnodes.trans List.perm_append_comm
    | @broke n children error hc =>
      refine h.pass (claiming.states children) trivial rfl (hnews rfl) ?_ rfl
      rw [hph]
      exact .of_eq (by simp [Phase.awaiting])
  · obtain ⟨shared, workers, waiting⟩ := pool
    rw [show events p claiming _ .waiter = [] from rfl, List.append_nil]
    obtain ⟨hformed, hbalanced, hexpanded⟩ := h
    cases hwaits <;> exact ⟨hformed, hbalanced, hexpanded⟩
  · rw [show events p claiming _ .outsider = [] from rfl, List.append_nil]
    exact ⟨h.formed, h.balanced, h.expanded⟩

end Charted

/-! ### Nothing is missed -/

variable {q : PureProblem S M}

/-- The node waits, or is in the hands of a worker who has not claimed its state. -/
def Coming (pool : Pool ω S M F ρ) (n : Node S M) : Prop :=
  n ∈ nodes pool.shared.queue.frontier ∨ ∃ w ∈ pool.workers, n ∈ w.phase.opened

theorem coming_middle : Coming ⟨shared, before ++ w :: after, waiting⟩ n ↔
    (n ∈ nodes shared.queue.frontier ∨ n ∈ w.phase.opened) ∨
      ∃ v ∈ before ++ after, n ∈ v.phase.opened := by
  unfold Coming
  rw [exists_mem_middle, or_assoc]

/-- When nothing is left to do, no node is on its way. -/
theorem not_coming (hnodes : nodes pool.shared.queue.frontier = []) (hheld : held pool.workers = []) :
    ¬ pool.Coming n := by
  rintro (hn | ⟨w, hw, hn⟩)
  · rw [hnodes] at hn
    cases hn
  · exact held_ne_nil hw hn hheld

theorem mem_awaiting_middle {s : S} :
    s ∈ awaiting claiming ⟨shared, before ++ w :: after, waiting⟩ ↔
      (s ∈ claiming.states (nodes shared.queue.frontier) ∨ s ∈ w.phase.awaiting claiming) ∨
        ∃ v ∈ before ++ after, s ∈ v.phase.awaiting claiming := by
  unfold awaiting
  rw [List.mem_append, List.mem_flatMap, exists_mem_middle, or_assoc]

/-- What is seen is expanded or waits for that, and what is expanded is being worked on, or its successors
are seen or on their way. This is so while no goal has been found and nobody asked for a stop. -/
structure Surveyed (q : PureProblem S M) (claiming : Claiming) (past : History S M)
    (pool : Pool ω S M F ρ) : Prop where
  fits : ∀ w ∈ pool.workers, w.phase.Fits q.rules claiming pool.shared.seen
  initial : q.initial ∈ pool.shared.seen ∨ ∃ n, pool.Coming n ∧ n.state = q.initial
  recorded : ∀ s ∈ pool.shared.seen, s ∈ past.expansions ∨ s ∈ pool.awaiting claiming
  followed : ∀ n ∈ past.expandedNodes,
    (∃ w ∈ pool.workers, n ∈ w.phase.claimed) ∨ Done q pool.shared.seen pool.Coming n

namespace Surveyed

variable {news : History S M}

theorem replace (h : Surveyed q claiming past ⟨shared, before ++ w :: after, waiting⟩)
    (hfits : w'.phase.Fits q.rules claiming shared'.seen) (hseen : ∀ s ∈ shared.seen, s ∈ shared'.seen)
    (hcoming : ∀ c, c ∈ nodes shared.queue.frontier ∨ c ∈ w.phase.opened →
      (c ∈ nodes shared'.queue.frontier ∨ c ∈ w'.phase.opened) ∨ c.state ∈ shared'.seen)
    (hrecorded : ∀ s, (s ∈ shared'.seen ∧ s ∉ shared.seen) ∨
      s ∈ claiming.states (nodes shared.queue.frontier) ∨ s ∈ w.phase.awaiting claiming →
        s ∈ news.expansions ∨ s ∈ claiming.states (nodes shared'.queue.frontier) ∨
          s ∈ w'.phase.awaiting claiming)
    (hfollowed : ∀ n ∈ w.phase.claimed, n ∈ w'.phase.claimed ∨
      Done q shared'.seen (Coming ⟨shared', before ++ w' :: after, waiting⟩) n)
    (hnews : ∀ n ∈ news.expandedNodes, n ∈ w'.phase.claimed) :
    Surveyed q claiming (past ++ news) ⟨shared', before ++ w' :: after, waiting⟩ := by
  have hmove : ∀ c, Coming ⟨shared, before ++ w :: after, waiting⟩ c →
      Coming ⟨shared', before ++ w' :: after, waiting⟩ c ∨ c.state ∈ shared'.seen := by
    intro c hc
    rw [coming_middle] at hc ⊢
    rcases hc with hc | hc
    · exact (hcoming c hc).imp_left .inl
    · exact .inl (.inr hc)
  refine ⟨forall_mem_replace h.fits (fun _ h => h.mono hseen) hfits, ?_, fun s hs => ?_, fun n hn => ?_⟩
  · rcases h.initial with hs | ⟨n, hn, hstate⟩
    · exact .inl (hseen _ hs)
    · rcases hmove n hn with hn | hs
      · exact .inr ⟨n, hn, hstate⟩
      · exact .inl (hstate ▸ hs)
  · rw [History.expansions_append, List.mem_append, mem_awaiting_middle]
    by_cases hold : s ∈ shared.seen
    · rcases h.recorded s hold with hs | hs
      · exact .inl (.inl hs)
      · rw [mem_awaiting_middle] at hs
        rcases hs with hs | hs
        · rcases hrecorded s (.inr hs) with hs | hs
          · exact .inl (.inr hs)
          · exact .inr (.inl hs)
        · exact .inr (.inr hs)
    · rcases hrecorded s (.inl ⟨hs, hold⟩) with hs | hs
      · exact .inl (.inr hs)
      · exact .inr (.inl hs)
  · rw [exists_mem_middle]
    rw [History.expandedNodes_append] at hn
    rcases List.mem_append.1 hn with hn | hn
    · rcases h.followed n hn with hn | hn
      · rw [exists_mem_middle] at hn
        rcases hn with hn | hn
        · exact (hfollowed n hn).imp_left .inl
        · exact .inl (.inr hn)
      · exact .inr (hn.mono hseen hmove)
    · exact .inl (.inl (hnews n hn))

/-- A worker who expands nothing, and loses none of the nodes and states that it has. -/
theorem pass (h : Surveyed q claiming past ⟨shared, before ++ w :: after, waiting⟩)
    (hfits : w'.phase.Fits q.rules claiming shared.seen) (hseen : shared'.seen = shared.seen)
    (hopened : ∀ c, c ∈ nodes shared.queue.frontier ∨ c ∈ w.phase.opened →
      (c ∈ nodes shared'.queue.frontier ∨ c ∈ w'.phase.opened) ∨ c.state ∈ shared.seen)
    (hawaiting : ∀ s, s ∈ claiming.states (nodes shared.queue.frontier) ∨ s ∈ w.phase.awaiting claiming →
      s ∈ claiming.states (nodes shared'.queue.frontier) ∨ s ∈ w'.phase.awaiting claiming)
    (hclaimed : ∀ n ∈ w.phase.claimed, n ∈ w'.phase.claimed) (hnews : news.expandedNodes = []) :
    Surveyed q claiming (past ++ news) ⟨shared', before ++ w' :: after, waiting⟩ := by
  refine h.replace (hseen ▸ hfits) (by rw [hseen]; exact fun _ hs => hs) (by rwa [hseen]) ?_
    (fun n hn => .inl (hclaimed n hn)) (by rw [hnews]; simp)
  rw [hseen]
  rintro s (⟨hs, hnot⟩ | hs)
  · exact absurd hs hnot
  · exact .inr (hawaiting s hs)

theorem task [Coin ρ] (h : Surveyed q claiming past ⟨shared, before ++ w :: after, waiting⟩)
    (hrecord : q.alreadySeen = .record) (hformed : stage.Formed claiming n)
    (hcarries : stage.Carries (q.toProblem : Problem ω S M) q.rules claiming n)
    (hflag : shared.slot.flag = false) (hstop : shared.stopped = false) {progress : Progress S M}
    (hw : w.phase = .working n stage) (hw' : w'.phase = afterTask n progress)
    (ht : stage.step q.toProblem claiming n shared = (progress, shared')) :
    Surveyed q claiming
      (past ++ ((stage.event? n progress).map fun event => (before.length, event)).toList)
      ⟨shared', before ++ w' :: after, waiting⟩ := by
  have hplain : (q.toProblem : Problem ω S M).Plain := PureProblem.plain_toProblem hrecord
  have hframe := Stage.frame_of_step_eq ht
  have hqueue := hframe.queue
  have hfits := h.fits w (by simp)
  rw [hw] at hfits
  have hfits' := Stage.Fits.step (q.follows_rules (ω := ω)).respects hplain hcarries hfits hflag hstop
  have hclaims := hformed.claims (p := (q.toProblem : Problem ω S M)) shared
  have hledger := hformed.ledger hplain shared
  have hne := hformed.isFailed_step (q := q) shared
  have hnews := Stage.expandedNodes_event q.toProblem claiming n shared stage before.length
  rw [ht] at hfits' hclaims hledger hne hnews
  simp only at hfits' hclaims hledger hne hnews
  rw [← hw'] at hfits'
  refine h.replace hfits' hframe.seen ?_ ?_ ?_ ?_
  · rw [hqueue, hw, hw']
    rintro c (hc | hc)
    · exact .inl (.inl hc)
    · obtain ⟨-, rfl⟩ := Phase.mem_opened_working.1 hc
      rw [hw'] at hfits'
      refine (Phase.Fits.mem_opened_or_seen hfits' hne ?_).imp_left .inr
      rintro rfl
      obtain rfl : stage = .drop := hclaims
      exact hframe.seen _ hfits.2
  · rw [History.expansions, hnews, hqueue, hw, hw']
    have hmem := fun s => hledger.mem_awaiting hne (s := s)
    rintro s (hs | hs | hs)
    · exact (List.mem_append.1 (hmem s (.inl hs))).imp_right .inr
    · exact .inr (.inl hs)
    · exact (List.mem_append.1 (hmem s (.inr hs))).imp_right .inr
  · rw [hw]
    intro n' hn'
    obtain ⟨hc, rfl⟩ := Phase.mem_claimed_working.1 hn'
    rw [hw'] at hfits'
    cases progress with
    | onward stage' =>
      rw [hw']
      exact .inl (Phase.mem_claimed_working.2 ⟨hclaims hc, rfl⟩)
    | goal =>
      rw [hw']
      exact .inl (List.mem_singleton_self _)
    | children nodes =>
      refine .inr (.of_covers hfits' fun c hc => ?_)
      exact coming_middle.2 (.inl (.inr (hw' ▸ hc)))
    | skipped =>
      obtain rfl : stage = .drop := hclaims
      cases hc
    | failed fault => cases hne
  · rw [hnews, hw']
    intro n' hn'
    cases stage with
    | count =>
      cases ht
      exact hn'
    | _ => cases hn'

theorem taken (h : Surveyed q claiming past ⟨shared, before ++ w :: after, waiting⟩)
    (hcharted : Charted claiming past ⟨shared, before ++ w :: after, waiting⟩)
    (hsound : Sound shared.queue.frontier) {queue : WorkQueue F} (hw : w.phase = .idle)
    (hw' : w'.phase = .working n (claiming.begin S M))
    (ht : shared.queue.take shared.stopped = .taken n queue) (hnews : news.expandedNodes = []) :
    Surveyed q claiming (past ++ news) ⟨{ shared with queue }, before ++ w' :: after, waiting⟩ := by
  obtain ⟨-, -, frontier, hpop, rfl, -⟩ := WorkQueue.take_eq_taken ht
  have hnodes := nodes_pop hsound hpop
  have hmem := fun c => hnodes.mem_iff (a := c)
  have hin := (hmem n).2 (List.mem_cons_self ..)
  -- If states are claimed when they are generated, then the state of a node that waits is seen.
  have hown : claiming = .whenGenerated → n.state ∈ shared.seen := by
    rintro rfl
    refine hcharted.balanced.recorded _ (List.mem_append_right _ ?_)
    exact mem_awaiting_middle.2 (.inl (.inl (List.mem_map_of_mem hin)))
  refine h.pass ?_ rfl ?_ ?_ (by rw [hw]; exact List.forall_mem_nil _) hnews
  · rw [hw']
    cases claiming with
    | whenGenerated => exact hown rfl
    | whenTaken => exact rfl
  · rw [hw, hw']
    rintro c (hc | hc)
    · rcases List.mem_cons.1 ((hmem c).1 hc) with rfl | hc
      · cases claiming with
        | whenGenerated => exact .inr (hown rfl)
        | whenTaken => exact .inl (.inr (List.mem_singleton_self _))
      · exact .inl (.inl hc)
    · cases hc
  · rw [hw, hw']
    rintro s (hs | hs)
    · cases claiming with
      | whenGenerated =>
        obtain ⟨c, hc, rfl⟩ := List.mem_map.1 hs
        rcases List.mem_cons.1 ((hmem c).1 hc) with rfl | hc
        · exact .inr (List.mem_singleton_self _)
        · exact .inl (List.mem_map_of_mem hc)
      | whenTaken => cases hs
    · cases hs

theorem completed [Coin ρ] (h : Surveyed q claiming past ⟨shared, before ++ w :: after, waiting⟩)
    (hsound : Sound shared.queue.frontier) {children : List (Node S M)} {exhausted : Bool}
    {queue : WorkQueue F} {coin coin' : ρ} (hw : w.phase = .complete n children)
    (hw' : w'.phase = if exhausted then .exhaust else .idle)
    (hc : shared.queue.complete children coin = .ok (exhausted, queue, coin'))
    (hnews : news.expandedNodes = []) :
    Surveyed q claiming (past ++ news) ⟨{ shared with queue }, before ++ w' :: after, waiting⟩ := by
  obtain ⟨-, hnodes, -⟩ := WorkQueue.complete_eq_ok hsound hc
  have hstates := claiming.states_perm hnodes
  rw [claiming.states_append] at hstates
  refine h.pass ?_ rfl ?_ ?_ (by rw [hw]; exact List.forall_mem_nil _) hnews
  · rw [hw']
    cases exhausted <;> trivial
  · rw [hw]
    exact fun c hc => .inl (.inl (hnodes.mem_iff.2 (List.mem_append.2 hc.symm)))
  · rw [hw]
    exact fun s hs => .inl (hstates.mem_iff.2 (List.mem_append.2 hs.symm))

variable [Coin ρ]

theorem step (hrecord : q.alreadySeen = .record) (ho : pool.Orderly)
    {I : Node S M → Prop} (hcarries : pool.Carries (q.toProblem : Problem ω S M) q.rules I claiming)
    (hcharted : Charted claiming past pool) (h : Surveyed q claiming past pool)
    (hs : pool.step q.toProblem claiming actor = some next) (hflag : next.shared.slot.flag = false)
    (hstop : next.shared.stopped = false) :
    Surveyed q claiming (past ++ pool.events q.toProblem claiming actor) next := by
  have honext := ho.step hs
  rcases step_cases hs with ⟨before, w, after, w', shared', rfl, hw, hacts, rfl⟩ |
    ⟨waiting', shared', rfl, hwaits, rfl⟩ | ⟨rfl, rfl⟩
  · obtain ⟨shared, workers, waiting⟩ := pool
    obtain rfl : workers = _ := hw
    replace hacts : Acts q.toProblem claiming before.length shared w.coin w.phase w' shared' := hacts
    replace hflag : shared'.slot.flag = false := hflag
    replace hstop : shared'.stopped = false := hstop
    have hfits := h.fits w (by simp)
    rw [events_middle]
    generalize hph : w.phase = phase at hacts hfits
    have hnews : phase.isWorking = false → History.expandedNodes
        ((eventOf q.toProblem claiming shared w).map fun event => (before.length, event)).toList = [] :=
      fun hidle => Charted.expandedNodes_eventOf _ (by rw [hph]; exact hidle)
    cases hacts with
    | @task n stage progress _ ht =>
      have hframe := Stage.frame_of_step_eq ht
      have hcarried := hcarries.workers w (by simp)
      have hformed := hcharted.formed w (by simp)
      rw [hph] at hcarried hformed
      simp only [eventOf, hph, ht]
      exact h.task hrecord hformed hcarried.2 (hframe.slot ▸ hflag) (hframe.unstopped hstop) hph rfl ht
    | taken ht => exact h.taken hcharted ho.sound hph rfl ht (hnews rfl)
    | completed hc => exact h.completed ho.sound hph rfl hc (hnews rfl)
    | tooLate hf | forgone hf => exact absurd (hflag.symm.trans hf) Bool.false_ne_true
    | won => cases hflag
    | beaten hb => exact absurd (ho.content_of_flag hflag (by simp) (congrArg Phase.node? hph)) hb
    | closed =>
      have hpending := ho.content_of_flag hflag (by simp) (congrArg Phase.node? hph)
      exact absurd hpending (ho.closing w (by simp) _ hph)
    | refused | blamed | exhausted =>
      refine h.pass trivial rfl ?_ ?_ (by rw [hph]; exact List.forall_mem_nil _) (hnews rfl)
      · rw [hph]
        exact fun c hc => .inl hc
      · rw [hph]
        exact fun s hs => hs.imp_right fun hs => absurd hs List.not_mem_nil
    | announced =>
      refine h.pass hfits rfl ?_ ?_ ?_ (hnews rfl)
      · rw [hph]
        exact fun c hc => .inl hc
      · rw [hph]
        exact fun s hs => hs
      · rw [hph]
        exact fun n hn => hn
    | kept =>
      refine h.pass trivial rfl ?_ ?_ (by rw [hph]; exact List.forall_mem_nil _) (hnews rfl)
      · rw [hph]
        exact fun c hc => .inl hc
      · rw [hph]
        exact fun s hs => hs
    | judged =>
      refine h.pass trivial rfl ?_ ?_ (by rw [hph]; exact List.forall_mem_nil _) (hnews rfl)
      · rw [hph, hstop]
        exact fun c hc => .inl hc
      · rw [hph, hstop]
        exact fun s hs => hs
    | broke =>
      exact absurd rfl (honext.unbroken _ (List.mem_append_right _ (List.mem_cons_self ..)) _ _)
  · obtain ⟨shared, workers, waiting⟩ := pool
    rw [show events q.toProblem claiming _ .waiter = [] from rfl, List.append_nil]
    obtain ⟨hfits, hinitial, hrecorded, hfollowed⟩ := h
    cases hwaits <;> exact ⟨hfits, hinitial, hrecorded, hfollowed⟩
  · cases hstop

omit [Coin ρ] in
theorem of_isFresh {root : Node S M} (h : pool.IsFresh root) (hroot : root.state = q.initial)
    (hseen : ∀ s ∈ pool.shared.seen, s ∈ claiming.states [root]) : Surveyed q claiming [] pool := by
  have hin : root ∈ nodes pool.shared.queue.frontier := by
    rw [h.nodes]
    exact List.mem_singleton_self _
  refine ⟨fun w hw => ?_, .inr ⟨root, .inl hin, hroot⟩, fun s hs => .inr ?_, fun n hn => ?_⟩
  · rw [h.idle w hw]
    trivial
  · refine List.mem_append_left _ ?_
    rw [h.nodes]
    exact hseen s hs
  · cases hn

omit [Coin ρ] in
/-- When nothing is left to do, every state that can be reached has been expanded, and none is a goal. -/
theorem of_drained (h : Surveyed q claiming past pool)
    (hnodes : nodes pool.shared.queue.frontier = []) (hheld : held pool.workers = [])
    {s : S} (hs : q.Reachable s) : s ∈ past.expansions ∧ q.isGoal s = false := by
  have hnone : ∀ w ∈ pool.workers, w.phase.claimed = [] ∧ w.phase.awaiting claiming = [] := by
    intro w hw
    have hnode := List.filterMap_eq_nil_iff.1 hheld w hw
    cases hph : w.phase <;> rw [hph] at hnode <;> first | exact ⟨rfl, rfl⟩ | cases hnode
  have hcoming := fun c => not_coming (n := c) hnodes hheld
  have hexpanded : ∀ s ∈ pool.shared.seen, s ∈ past.expansions := by
    intro s hs
    refine (h.recorded s hs).resolve_right fun hs => ?_
    rw [awaiting, hnodes, Claiming.states_nil, List.nil_append, List.mem_flatMap] at hs
    obtain ⟨w, hw, hs⟩ := hs
    rw [(hnone w hw).2] at hs
    cases hs
  have hdone : ∀ n ∈ past.expandedNodes, Done q pool.shared.seen pool.Coming n := by
    intro n hn
    refine (h.followed n hn).resolve_left ?_
    rintro ⟨w, hw, hn⟩
    rw [(hnone w hw).1] at hn
    cases hn
  -- So the states that were expanded are closed under moves.
  have hreach : ∀ ms s c, q.rules.Route q.initial ms s c → s ∈ past.expansions := by
    intro ms s c route
    induction route with
    | stay =>
      rcases h.initial with hs | ⟨n, hn, -⟩
      · exact hexpanded _ hs
      · exact absurd hn (hcoming n)
    | snoc _ step ih =>
      obtain ⟨hm, rfl, rfl⟩ := PureProblem.step_rules_iff.1 step
      obtain ⟨n, hn, rfl⟩ := List.mem_map.1 ih
      rcases (hdone n hn).move _ hm with hs | ⟨c, hc, -⟩
      · exact hexpanded _ hs
      · exact absurd hc (hcoming c)
  obtain ⟨ms, c, route⟩ := hs
  have hs := hreach ms s c route
  obtain ⟨n, hn, rfl⟩ := List.mem_map.1 hs
  exact ⟨hs, (hdone n hn).isGoal⟩

end Surveyed

/-! ### Runs -/

variable [Coin ρ]

omit [LawfulFrontier F (Node S M)] in
/-- Some worker is about to expand the node. -/
theorem exists_working_of_expanded (hn : n ∈ (pool.events p claiming actor).expandedNodes) :
    ∃ w ∈ pool.workers, w.phase = .working n .count := by
  cases actor with
  | waiter | outsider => cases hn
  | worker index =>
    simp only [events] at hn
    cases hw : pool.workers[index]? with
    | none =>
      rw [hw] at hn
      cases hn
    | some w =>
      rw [hw, Option.bind_some] at hn
      refine ⟨w, List.mem_of_getElem? hw, ?_⟩
      by_cases hworking : w.phase.isWorking = true
      · cases hph : w.phase with
        | working n' stage =>
          simp only [eventOf, hph] at hn
          rw [Stage.expandedNodes_event] at hn
          cases stage with
          | count => rw [List.mem_singleton.1 hn]
          | _ => cases hn
        | _ =>
          rw [hph] at hworking
          cases hworking
      · rw [Charted.expandedNodes_eventOf index (eq_false_of_ne_true hworking)] at hn
        cases hn

/-- What is known of a pool, and of what happened so far, if no call fails. -/
structure Watched (q : PureProblem S M) (claiming : Claiming) (past : History S M)
    (pool : Pool ω S M F ρ) : Prop where
  orderly : pool.Orderly
  carries : pool.Carries (q.toProblem : Problem ω S M) q.rules (Node.Genuine q.rules) claiming
  charted : pool.Charted claiming past
  surveyed : pool.shared.slot.flag = false → pool.shared.stopped = false →
    pool.Surveyed q claiming past
  reachable : ∀ n ∈ past.expandedNodes, q.Reachable n.state

omit [LawfulFrontier F (Node S M)] in
/-- Nobody takes the flag down. -/
theorem flag_of_step (hs : pool.step p claiming actor = some next)
    (hflag : next.shared.slot.flag = false) : pool.shared.slot.flag = false := by
  rcases step_cases hs with ⟨before, w, after, w', shared', -, -, hacts, rfl⟩ |
    ⟨waiting', shared', -, hwaits, rfl⟩ | ⟨-, rfl⟩
  · generalize w.phase = phase at hacts
    cases hacts with
    | task ht => exact (Stage.frame_of_step_eq ht).slot ▸ hflag
    | won => cases hflag
    | exhausted =>
      simp only [Slot.markExhausted] at hflag
      split at hflag <;> exact hflag
    | _ => exact hflag
  · generalize pool.waiting = waiting at hwaits
    cases hwaits <;> exact hflag
  · exact hflag

namespace Watched

theorem step (hrecord : q.alreadySeen = .record) (h : Watched q claiming past pool)
    (hs : pool.step q.toProblem claiming actor = some next) :
    Watched q claiming (past ++ pool.events q.toProblem claiming actor) next := by
  have hrespects := q.follows_rules (ω := ω).respects
  refine ⟨h.orderly.step hs, h.carries.step hrespects (inherited_genuine _ _ _) hs, ?_, ?_, ?_⟩
  · exact h.charted.step (PureProblem.plain_toProblem hrecord) h.orderly.sound hs
  · intro hflag hstop
    have hsurveyed := h.surveyed (flag_of_step hs hflag) (unstopped_of_step hs hstop)
    exact hsurveyed.step hrecord h.orderly h.carries h.charted hs hflag hstop
  · intro n hn
    rw [History.expandedNodes_append] at hn
    rcases List.mem_append.1 hn with hn | hn
    · exact h.reachable n hn
    · obtain ⟨w, hw, hph⟩ := exists_working_of_expanded hn
      have hcarried := h.carries.workers w hw
      rw [hph] at hcarried
      exact ⟨_, _, hcarried.1⟩

omit [Coin ρ] in
theorem of_isFresh {remaining : Cost} (h : pool.IsFresh (.root q.initial remaining))
    (hexpanded : pool.shared.expanded = 0)
    (hseen : ∀ s, s ∈ pool.shared.seen ↔
      s ∈ claiming.states [(.root q.initial remaining : Node S M)]) : Watched q claiming [] pool :=
  ⟨h.orderly, h.carries (.root remaining), .of_isFresh h hexpanded fun s => (hseen s).2,
    fun _ _ => .of_isFresh h rfl fun s => (hseen s).1, fun _ hn => absurd hn List.not_mem_nil⟩

theorem follow (hrecord : q.alreadySeen = .record) (h : Watched q claiming [] pool)
    (actors : List Actor) : Watched q claiming (pool.history q.toProblem claiming actors)
      (pool.follow q.toProblem claiming actors) :=
  history_induction (fun _ _ _ _ h hs => h.step hrecord hs) h actors

omit [Coin ρ] in
/-- A pool that has ended without a goal, and not because somebody stopped it, has expanded everything that can
be reached, and nothing of it is a goal. -/
theorem complete (h : Watched q claiming past pool) (hout : pool.outcome? = some none)
    (hstop : pool.shared.stopped = false) :
    ¬ q.Solvable ∧ ∀ s, s ∈ past.expansions ↔ q.Reachable s := by
  -- Nobody could say that there is no goal before everything was done.
  have hexhausted : pool.shared.slot.content = .exhausted := h.orderly.content_of_outcome? hstop hout
  have hflag : pool.shared.slot.flag = false := by
    rw [← Bool.not_eq_true, h.orderly.flag, hexhausted]
    rintro ⟨n, ⟨⟩⟩
  obtain ⟨hnodes, hheld⟩ := h.orderly.drained (.inl hexhausted)
  have hall := fun s (hs : q.Reachable s) => (h.surveyed hflag hstop).of_drained hnodes hheld hs
  constructor
  · rintro ⟨s, hs, hgoal⟩
    exact absurd (hgoal.symm.trans (hall s hs).2).symm Bool.false_ne_true
  · intro s
    refine ⟨fun hs => ?_, fun hs => (hall s hs).1⟩
    obtain ⟨n, hn, rfl⟩ := List.mem_map.1 hs
    exact h.reachable n hn

omit [Coin ρ] in
/-- A pool that has ended, and not because somebody stopped it, has found a goal if and only if one can be
reached. -/
theorem isSome_iff {goal : Option (Node S M)} (h : Watched q claiming past pool)
    (hout : pool.outcome? = some goal) (hstop : pool.shared.stopped = false) :
    goal.isSome = true ↔ q.Solvable := by
  cases goal with
  | none => exact iff_of_false Bool.false_ne_true (h.complete hout hstop).1
  | some n =>
    obtain ⟨hgenuine, hgoal⟩ := h.carries.of_outcome? hout
    exact iff_of_true rfl ⟨n.state, ⟨_, _, hgenuine⟩, Except.ok.inj hgoal⟩

end Watched

end Pool

/-! ### The searches -/

namespace PoolSearch

open Act

variable [Coin ρ] {q : PureProblem S M} {plan : Plan ρ}

/-- What is known of the states that are expanded in a run of the pool by these actors, and of the result
that is read off in the end. -/
structure Thorough [Frontier F (Node S M)] (q : PureProblem S M) (claiming : Claiming)
    (pool : Pool ω S M F ρ) (arena : Arena ω) (actors : List Actor) : Prop where
  nodup : (pool.history q.toProblem claiming actors).expansions.Nodup
  counted : (pool.follow q.toProblem claiming actors).shared.expanded =
    (pool.history q.toProblem claiming actors).expansions.length
  /-- A search that ends without a goal, and not because somebody stopped it, has expanded what can be
  reached, and the number of these states is the number of expansions that it tells. -/
  complete : (pool.follow q.toProblem claiming actors).outcome? = some none →
    (pool.follow q.toProblem claiming actors).shared.stopped = false →
    ¬ q.Solvable ∧
    (∀ s, s ∈ (pool.history q.toProblem claiming actors).expansions ↔ q.Reachable s) ∧
    {s | q.Reachable s}.Finite ∧
    ∃ after, finish q.toProblem (pool.follow q.toProblem claiming actors) none arena = .ok none after ∧
      after.stats.expanded = {s | q.Reachable s}.ncard

theorem thorough_of_watched [Frontier F (Node S M)] [LawfulFrontier F (Node S M)]
    {pool : Pool ω S M F ρ} {arena : Arena ω} (hrecord : q.alreadySeen = .record)
    (h : pool.Watched q claiming []) (actors : List Actor) :
    Thorough q claiming pool arena actors := by
  have hend := h.follow hrecord actors
  generalize hpast : pool.history q.toProblem claiming actors = past at hend
  have hnodup : past.expansions.Nodup := (List.nodup_append.1 hend.charted.balanced.nodup).1
  have hcounted : (pool.follow q.toProblem claiming actors).shared.expanded = past.expansions.length := by
    rw [hend.charted.expanded, History.expansions, List.length_map]
  rw [← hpast] at hnodup hcounted
  refine ⟨hnodup, hcounted, fun hout hstop => ?_⟩
  rw [hpast] at hnodup hcounted ⊢
  obtain ⟨hno, hiff⟩ := hend.complete hout hstop
  have hset : {s | q.Reachable s} = (past.expansions.toFinset : Set S) := by
    ext s
    rw [Set.mem_ofPred_eq, List.coe_toFinset, Set.mem_ofPred_eq, hiff]
  refine ⟨hno, hiff, ?_, ?_⟩
  · rw [hset]
    exact Finset.finite_toSet _
  · refine ⟨_, rfl, ?_⟩
    rw [hset, Set.ncard_coe_finset, List.toFinset_card_of_nodup hnodup]
    exact hcounted

/-- In whatever order the steps are taken, neither search with workers expands a state twice, and when it
ends without a goal, it has expanded every state that can be reached. The one finds this for every way of
placing the nodes, the other for every heuristic. -/
theorem thorough (hrecord : q.alreadySeen = .record) :
    (∀ {placement} {arena middle : Arena ω} {pool : Pool ω S M (BiasedDeque S M) ρ},
      prepareConcurrent q.toProblem placement plan arena = .ok pool middle →
        ∀ actors, Thorough q .whenGenerated pool middle actors) ∧
    ∀ {arena middle : Arena ω} {pool : Pool ω S M (OpenList S M) ρ},
      prepareAStar q.toProblem plan arena = .ok pool middle →
        ∀ actors, Thorough q .whenTaken pool middle actors := by
  constructor
  · intro placement arena middle pool hprepare actors
    have hplain : (q.toProblem : Problem ω S M).Plain := PureProblem.plain_toProblem hrecord
    obtain ⟨hfresh, hseen⟩ :=
      fresh_of_prepareConcurrent (q.follows_rules (ω := ω)).respects hplain hprepare
    have hexpanded : pool.shared.expanded = 0 := by
      obtain ⟨_, _, -, h⟩ := of_bind_eq_ok hprepare
      cases h
      rfl
    refine thorough_of_watched hrecord (.of_isFresh hfresh hexpanded fun s => ?_) actors
    rw [hseen]
    exact List.mem_singleton.symm
  · intro arena middle pool hprepare actors
    obtain ⟨remaining, world, -, hfresh, hseen⟩ := isFresh_of_prepareAStar hprepare
    have hexpanded : pool.shared.expanded = 0 := by
      obtain ⟨_, _, -, h⟩ := of_bind_eq_ok hprepare
      cases h
      rfl
    refine thorough_of_watched hrecord (.of_isFresh hfresh hexpanded fun s => ?_) actors
    rw [hseen]
    exact ⟨fun hs => absurd hs Std.HashSet.not_mem_empty, fun hs => absurd hs List.not_mem_nil⟩

end PoolSearch

namespace Junction

/-- The junctions, and nowhere to go. -/
def stroll : PureProblem Junction Junction := { detour with isGoal := fun _ => false }

/-- Both searches visit the four junctions, each of them once, and say that there is no goal. -/
theorem thorough_stroll :
    stroll.alreadySeen = .record ∧
    (PoolSearch.prepareConcurrent stroll.toProblem .tail ⟨(), [(), ()]⟩ { world := () } =
        .ok levels { world := () } ∧
      PoolSearch.Thorough stroll .whenGenerated levels { world := () } turns) ∧
    (PoolSearch.prepareAStar stroll.toProblem ⟨(), [(), ()]⟩ { world := () } =
        .ok unordered { world := () } ∧
      PoolSearch.Thorough stroll .whenTaken unordered { world := () } turns) ∧
    ((levels.follow stroll.toProblem .whenGenerated turns).outcome?.map Option.isNone = some true ∧
      (levels.follow stroll.toProblem .whenGenerated turns).shared.stopped = false ∧
      (levels.history stroll.toProblem .whenGenerated turns).expansions =
        [start, bypass, middle, finish]) ∧
    (unordered.follow stroll.toProblem .whenTaken turns).outcome?.map Option.isNone = some true ∧
      (unordered.follow stroll.toProblem .whenTaken turns).shared.stopped = false ∧
      (unordered.history stroll.toProblem .whenTaken turns).expansions =
        [start, middle, bypass, finish] := by
  have hlevels : PoolSearch.prepareConcurrent stroll.toProblem .tail ⟨(), [(), ()]⟩ { world := () } =
      .ok levels { world := () } := rfl
  have hunordered : PoolSearch.prepareAStar stroll.toProblem ⟨(), [(), ()]⟩ { world := () } =
      .ok unordered { world := () } := rfl
  have hconcurrent := (PoolSearch.thorough (q := stroll) rfl).1 hlevels turns
  have haStar := (PoolSearch.thorough (q := stroll) rfl).2 hunordered turns
  refine ⟨rfl, ⟨hlevels, hconcurrent⟩, ⟨hunordered, haStar⟩, by decide +kernel, ?_⟩
  rw [OpenList.frontier_eq_listed]
  decide +kernel

end Junction

end StateSearch
