import StateSearch.Proofs.Route
import StateSearch.Search.Arena

/-!
# What acts achieve

`wp act post err arena` says what is left when `act` is done in `arena`: a value and an arena with
`post`, or a fault and an arena with `err`. The lemmas take acts apart, one step of a search after the
other, and need to be told only about the calls of the problem.
-/

namespace StateSearch

theorem SeenQuery.run_record {S : Type} [DecidableEq S] [Hashable S] (s : S) (seen : Std.HashSet S) :
    (SeenQuery.record s).run seen = (.ok (seen.contains s), seen.insert s) := by
  simp [record, run, SeenSet.insert]

/-- Some counter cannot be incremented any more. -/
def Stats.IsFull (stats : Stats) : Prop :=
  counterLimit ≤ stats.expanded + 1 ∨ counterLimit ≤ stats.generated + 1 ∨
    counterLimit ≤ stats.duplicates + 1

/-- A counter was to be incremented that cannot be. -/
def Overflow {ω : Type} (fault : Fault) (arena : Arena ω) : Prop :=
  fault = .sumOutOfRange ∧ arena.stats.IsFull

theorem Stats.increment_eq_error {count : Nat} {fault : Fault} (h : increment count = .error fault) :
    fault = .sumOutOfRange ∧ counterLimit ≤ count + 1 := by
  unfold increment at h
  split at h
  · cases h
  · cases h
    exact ⟨rfl, by omega⟩

namespace Act

variable {ω S M σ α β : Type} {post post' : α → Arena ω → Prop} {err : Fault → Arena ω → Prop}
  {arena : Arena ω}

/-- The act ends with `post`, or fails with `err`. -/
def wp (act : Act ω α) (post : α → Arena ω → Prop) (err : Fault → Arena ω → Prop)
    (arena : Arena ω) : Prop :=
  match act arena with
  | .ok value after => post value after
  | .error fault after => err fault after

theorem wp.mono {act : Act ω α} (h : wp act post err arena)
    (hp : ∀ value after, post value after → post' value after) : wp act post' err arena := by
  unfold wp at *
  split at h
  · exact hp _ _ h
  · exact h

theorem wp.mono_error {act : Act ω α} {err' : Fault → Arena ω → Prop} (h : wp act post err arena)
    (he : ∀ fault after, err fault after → err' fault after) : wp act post err' arena := by
  unfold wp at *
  split at h
  · exact h
  · exact he _ _ h

theorem wp.of_eq_ok {act : Act ω α} (h : wp act post err arena) {value : α} {after : Arena ω}
    (hr : act arena = .ok value after) : post value after := by
  unfold wp at h
  rwa [hr] at h

/-- What an act comes to is what it comes to. -/
theorem wp.with_eq {act : Act ω α} (h : wp act post err arena) :
    wp act (fun value after => act arena = .ok value after ∧ post value after) err arena := by
  unfold wp at *
  split at h
  · exact ⟨‹_›, h⟩
  · exact h

theorem wp_of_forall_ok {act : Act ω α}
    (h : ∀ value after, act arena = .ok value after → post value after) :
    wp act post (fun _ _ => True) arena := by
  unfold wp
  split
  · exact h _ _ ‹_›
  · trivial

@[simp] theorem wp_pure (value : α) : wp (pure value) post err arena ↔ post value arena := Iff.rfl

@[simp] theorem wp_bind (act : Act ω β) (next : β → Act ω α) :
    wp (act >>= next) post err arena ↔
      wp act (fun value after => wp (next value) post err after) err arena := by
  show wp (EStateM.bind act next) post err arena ↔ _
  unfold wp EStateM.bind
  split <;> rename_i h
  · split at h
    · rw [‹act arena = _›]; simp only; rw [h]
    · cases h
  · split at h
    · rw [‹act arena = _›]; simp only; rw [h]
    · cases h; rw [‹act arena = _›]

@[simp] theorem wp_isStopped {post : Bool → Arena ω → Prop} :
    wp isStopped post err arena ↔ post arena.stopped arena := Iff.rfl

/-- Nothing but what the act leaves alone need be known of the arena afterwards. -/
theorem Keeps.wp {γ : Type} {view : Arena ω → γ} {act : Act ω α} (h : Keeps view act)
    (hok : ∀ value after, view after = view arena → post value after)
    (herr : ∀ fault after, view after = view arena → err fault after) : wp act post err arena := by
  have hkeeps := h arena
  unfold Act.wp
  split <;> rename_i hr <;> rw [hr] at hkeeps
  · exact hok _ _ hkeeps
  · exact herr _ _ hkeeps

theorem isStopped_eq (h : arena.stopped = false) : isStopped arena = .ok false arena :=
  congrArg (EStateM.Result.ok · arena) h

theorem bind_eq {act : Act ω β} {next : β → Act ω α} {value : β} {after : Arena ω}
    (h : act arena = .ok value after) : (act >>= next) arena = next value after := by
  show EStateM.bind act next arena = _
  unfold EStateM.bind
  rw [h]

/-- What is done next is done to whatever the first act comes to. -/
theorem bind_eq_bind {act act' : Act ω β} {next : β → Act ω α} {arena' : Arena ω}
    (h : act arena = act' arena') : (act >>= next) arena = (act' >>= next) arena' := by
  show EStateM.bind act next arena = EStateM.bind act' next arena'
  unfold EStateM.bind
  rw [h]

/-- What is done next does not matter to what it leaves alone. -/
theorem Keeps.view_bind {γ : Type} {view : Arena ω → γ} {act : Act ω β} {next : β → Act ω α}
    (hnext : ∀ value, Keeps view (next value)) (arena : Arena ω) :
    view (arenaAfter ((act >>= next) arena)) = view (arenaAfter (act arena)) := by
  show view (arenaAfter (EStateM.bind act next arena)) = _
  unfold EStateM.bind
  split
  · rename_i h
    rw [h]
    exact hnext _ _
  · rename_i h
    rw [h]
    rfl

theorem Keeps.conclude {γ : Type} {view : Arena ω → γ} (p : Problem ω S M) (goal : Option (Node S M))
    (hcost : ∀ (arena : Arena ω) (cost : Option Cost),
      view { arena with stats := { arena.stats with cost } } = view arena)
    (hask : ∀ call : Call ω Unit, Keeps view (ask call)) : Keeps view (Act.conclude p goal) :=
  .bind (fun _ => hcost _ _) fun _ => .bind (fun _ => rfl) fun _ => .bind (hask _) fun _ => .pure _

theorem Keeps.conclude_expanded (p : Problem ω S M) (goal : Option (Node S M)) :
    Keeps (fun arena : Arena ω => arena.stats.expanded) (Act.conclude p goal) :=
  .conclude p goal (fun _ _ => rfl) fun _ => .of_stats _ (.ask_stats _)

theorem Keeps.conclude_faults (p : Problem ω S M) (goal : Option (Node S M)) :
    Keeps Arena.faults (Act.conclude p goal) := by
  refine .conclude p goal (fun _ _ => rfl) fun call arena => ?_
  unfold ask
  dsimp only
  split <;> rfl

/-! ### Calls -/

@[simp] theorem wp_ask_answer (value : α) :
    wp (ask (.answer value)) post err arena ↔ post value arena := by
  simp [wp, ask, Call.answer]

theorem ask_eq_ok {call : Call ω α} {value : α} {after : Arena ω}
    (h : ask call arena = .ok value after) : (call arena.world).result = .ok value := by
  unfold ask at h
  dsimp only at h
  split at h
  · cases h
    assumption
  · cases h

theorem of_inquire_eq_ok [SeenSet σ S] {p : Problem ω S M} {state : S} {seen seen' : σ} {known : Bool}
    {after : Arena ω} (h : inquire p state seen arena = .ok (known, seen') after) :
    ∃ query, ask (p.alreadySeen state) arena = .ok query after ∧
      query.run seen = (.ok known, seen') := by
  obtain ⟨query, between, hq, h⟩ := of_bind_eq_ok h
  rcases hr : query.run seen with ⟨_ | known₁, seen₁⟩ <;> rw [hr] at h <;> cases h
  exact ⟨query, hq, hr⟩

theorem inquire_eq_ok [SeenSet σ S] {p : Problem ω S M} {state : S} {seen seen' : σ} {known : Bool}
    {after : Arena ω} (h : inquire p state seen arena = .ok (known, seen') after) :
    ∃ query, (p.alreadySeen state arena.world).result = .ok query ∧
      query.run seen = (.ok known, seen') := by
  obtain ⟨query, hq, hrun⟩ := of_inquire_eq_ok h
  exact ⟨query, ask_eq_ok hq, hrun⟩

/-- The arena after a call that was answered in it. -/
theorem wp_ask (call : Call ω α)
    (hok : ∀ value world stopped, (call arena.world).result = .ok value →
      post value { arena with world, stopped })
    (herr : ∀ fault world stopped, (call arena.world).result = .error fault →
      err fault { arena with world, stopped }) : wp (ask call) post err arena := by
  unfold wp ask
  cases h : (call arena.world).result with
  | ok value => simpa [h] using hok value _ _ h
  | error fault => simpa [h] using herr fault _ _ h

/-- A record that one state is put into is asked in one go, whichever state that is. -/
theorem wp_inquire_of_eq [SeenSet σ S] (p : PureProblem S M) {state recorded : S}
    (hseen : p.alreadySeen state = .record recorded) (seen : σ) {post : Bool × σ → Arena ω → Prop} :
    wp (inquire p.toProblem state seen) post err arena ↔
      post (!(SeenSet.insert seen recorded).1, (SeenSet.insert seen recorded).2) arena := by
  unfold inquire
  simp only [PureProblem.toProblem, hseen, wp_bind, wp_ask_answer]
  rfl

/-- A record that is a plain set is asked in one go. -/
theorem wp_inquire_record [SeenSet σ S] (p : PureProblem S M) (hseen : p.alreadySeen = .record)
    (state : S) (seen : σ) {post : Bool × σ → Arena ω → Prop} :
    wp (inquire p.toProblem state seen) post err arena ↔
      post (!(SeenSet.insert seen state).1, (SeenSet.insert seen state).2) arena :=
  wp_inquire_of_eq p (congrFun hseen state) seen

/-! ### Counters -/

theorem wp_countExpanded {post : Nat → Arena ω → Prop}
    (hok : ∀ count, post count { arena with stats.expanded := count })
    (herr : Overflow .sumOutOfRange arena → err .sumOutOfRange arena) :
    wp countExpanded post err arena := by
  unfold wp countExpanded
  cases h : Stats.increment arena.stats.expanded with
  | ok count => exact hok count
  | error fault =>
    obtain ⟨rfl, hfull⟩ := Stats.increment_eq_error h
    exact herr ⟨rfl, .inl hfull⟩

theorem wp_countGenerated {post : Unit → Arena ω → Prop}
    (hok : ∀ count, post () { arena with stats.generated := count })
    (herr : Overflow .sumOutOfRange arena → err .sumOutOfRange arena) :
    wp countGenerated post err arena := by
  unfold wp countGenerated
  cases h : Stats.increment arena.stats.generated with
  | ok count => exact hok count
  | error fault =>
    obtain ⟨rfl, hfull⟩ := Stats.increment_eq_error h
    exact herr ⟨rfl, .inr (.inl hfull)⟩

theorem wp_countDuplicate {post : Unit → Arena ω → Prop}
    (hok : ∀ count, post () { arena with stats.duplicates := count })
    (herr : Overflow .sumOutOfRange arena → err .sumOutOfRange arena) :
    wp countDuplicate post err arena := by
  unfold wp countDuplicate
  cases h : Stats.increment arena.stats.duplicates with
  | ok count => exact hok count
  | error fault =>
    obtain ⟨rfl, hfull⟩ := Stats.increment_eq_error h
    exact herr ⟨rfl, .inr (.inr hfull)⟩

/-- Closing a search gives the path to the goal. -/
theorem wp_conclude (p : PureProblem S M) (goal : Option (Node S M))
    {post : Option (Path M) → Arena ω → Prop}
    (h : ∀ after, post (goal.map Node.toPath) after) :
    wp (conclude p.toProblem goal) post err arena := by
  unfold conclude
  rw [wp_bind]
  exact h _

end Act

end StateSearch
