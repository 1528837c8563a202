import StateSearch.Node
import StateSearch.Problem
import StateSearch.Stats

/-!
# The arena of a search

A search runs in an arena: the world its problem lives in, the flag that asks it to stop, its counters
and the faults of its workers. The arena outlives a failure, so what was counted before a call failed
can still be read. `Act` is the type of what is done in an arena.

The lemmas say which parts of the arena each act leaves alone (`Keeps`) and which counters it never
lowers (`Grows`); they compose by `Keeps.bind` and `Grows.bind`.
-/

namespace StateSearch

/-- What a search works on besides its own lists. -/
structure Arena (ω : Type) where
  world : ω
  stopped : Bool := false
  stats : Stats := {}
  /-- The faults of workers, in the order in which they were reported. -/
  faults : List WorkerFault := []

/-- Something done in an arena. It may fail; the arena stays. -/
abbrev Act (ω : Type) : Type → Type := EStateM Fault (Arena ω)

/-- The arena that is left at the end, whatever the result. -/
def arenaAfter {ω α : Type} : EStateM.Result Fault (Arena ω) α → Arena ω
  | .ok _ arena => arena
  | .error _ arena => arena

namespace Act

variable {ω S M σ α β : Type}

/-- Make a call to the problem. -/
def ask (call : Call ω α) : Act ω α := fun arena =>
  let reply := call arena.world
  let arena := { arena with
    world := reply.world, stopped := arena.stopped || reply.raisesStop }
  match reply.result with
  | .ok value => .ok value arena
  | .error fault => .error fault arena

/-- Find out from a record of seen states whether `state` counts as met before. -/
def inquire [SeenSet σ S] (p : Problem ω S M) (state : S) (seen : σ) : Act ω (Bool × σ) := do
  let query ← ask (p.alreadySeen state)
  match query.run seen with
  | (.ok known, seen) => return (known, seen)
  | (.error fault, _) => throw fault

/-- Whether the search was asked to stop. -/
def isStopped : Act ω Bool := fun arena => .ok arena.stopped arena

/-- Count an expansion. The answer is the new count. -/
def countExpanded : Act ω Nat := fun arena =>
  match Stats.increment arena.stats.expanded with
  | .ok count => .ok count { arena with stats.expanded := count }
  | .error fault => .error fault arena

/-- Count a generated state. -/
def countGenerated : Act ω Unit := fun arena =>
  match Stats.increment arena.stats.generated with
  | .ok count => .ok () { arena with stats.generated := count }
  | .error fault => .error fault arena

/-- Count a state that was dropped. -/
def countDuplicate : Act ω Unit := fun arena =>
  match Stats.increment arena.stats.duplicates with
  | .ok count => .ok () { arena with stats.duplicates := count }
  | .error fault => .error fault arena

/-- Close a search: note the cost of the path to `goal`, tell the problem, and give the path. -/
def conclude (p : Problem ω S M) (goal : Option (Node S M)) : Act ω (Option (Path M)) := do
  let path := goal.map Node.toPath
  modify fun arena => { arena with stats.cost := path.map Path.cost }
  let expanded := (← get).stats.expanded
  ask (p.onFinished path (goal.elim p.initial Node.state) expanded)
  return path

/-! ### What acts leave alone -/

/-- Whatever `act` comes to, `view` of the arena is the same before and after. -/
def Keeps (view : Arena ω → β) (act : Act ω α) : Prop :=
  ∀ arena, view (arenaAfter (act arena)) = view arena

/-- Where two acts in a row succeed, each of them does. -/
theorem of_bind_eq_ok {act : Act ω α} {next : α → Act ω β} {arena arena' : Arena ω} {value : β}
    (h : (act >>= next) arena = .ok value arena') :
    ∃ between middle, act arena = .ok between middle ∧ next between middle = .ok value arena' := by
  change EStateM.bind act next arena = _ at h
  unfold EStateM.bind at h
  split at h
  · exact ⟨_, _, ‹_›, h⟩
  · simp at h

namespace Keeps

variable {γ : Type} {view : Arena ω → γ}

theorem of_eq_ok {act : Act ω α} (h : Keeps view act) {arena arena' : Arena ω} {value : α}
    (hr : act arena = .ok value arena') : view arena' = view arena := by
  simpa [hr, arenaAfter] using h arena

theorem pure (value : α) : Keeps view (Pure.pure value : Act ω α) := fun _ => rfl

theorem throw (fault : Fault) : Keeps view (MonadExcept.throw fault : Act ω α) := fun _ => rfl

theorem bind {act : Act ω α} {next : α → Act ω β} (h : Keeps view act)
    (hn : ∀ value, Keeps view (next value)) : Keeps view (act >>= next) := by
  intro arena
  have ha := h arena
  show view (arenaAfter (EStateM.bind act next arena)) = view arena
  unfold EStateM.bind
  split <;> rename_i hr <;> rw [hr] at ha
  · exact (hn _ _).trans ha
  · exact ha

theorem ask_stats (call : Call ω α) : Keeps Arena.stats (Act.ask call) := by
  intro arena
  unfold Act.ask
  dsimp only
  split <;> rfl

theorem inquire_stats [SeenSet σ S] (p : Problem ω S M) (state : S) (seen : σ) :
    Keeps Arena.stats (Act.inquire p state seen) := by
  refine bind (ask_stats _) fun query => ?_
  split
  · exact pure _
  · exact throw _

theorem of_stats {act : Act ω α} (f : Stats → γ) (h : Keeps Arena.stats act) :
    Keeps (fun arena => f arena.stats) act := fun arena => congrArg f (h arena)

theorem countGenerated_expanded : Keeps (fun arena : Arena ω => arena.stats.expanded)
    Act.countGenerated := by
  intro arena
  unfold Act.countGenerated
  split <;> rfl

theorem countDuplicate_expanded : Keeps (fun arena : Arena ω => arena.stats.expanded)
    Act.countDuplicate := by
  intro arena
  unfold Act.countDuplicate
  split <;> rfl

end Keeps

/-- Whatever `act` comes to, it does not lower `count`. -/
def Grows (count : Arena ω → Nat) (act : Act ω α) : Prop :=
  ∀ arena, count arena ≤ count (arenaAfter (act arena))

theorem Keeps.grows {count : Arena ω → Nat} {act : Act ω α} (h : Keeps count act) :
    Grows count act := fun arena => Nat.le_of_eq (h arena).symm

namespace Grows

variable {count : Arena ω → Nat}

theorem pure (value : α) : Grows count (Pure.pure value : Act ω α) := fun _ => Nat.le_refl _

theorem bind {act : Act ω α} {next : α → Act ω β} (h : Grows count act)
    (hn : ∀ value, Grows count (next value)) : Grows count (act >>= next) := by
  intro arena
  have ha := h arena
  show count arena ≤ count (arenaAfter (EStateM.bind act next arena))
  unfold EStateM.bind
  split <;> rename_i hr <;> rw [hr] at ha
  · exact Nat.le_trans ha (hn _ _)
  · exact ha

theorem countDuplicate : Grows (fun arena : Arena ω => arena.stats.duplicates)
    Act.countDuplicate := by
  intro arena
  unfold Act.countDuplicate
  split
  · rename_i hi
    exact Nat.le_of_lt (by simp [arenaAfter, (Stats.increment_eq_ok hi).1])
  · exact Nat.le_refl _

theorem countGenerated : Grows (fun arena : Arena ω => arena.stats.duplicates)
    Act.countGenerated := by
  intro arena
  unfold Act.countGenerated
  split <;> exact Nat.le_refl _

theorem countExpanded : Grows (fun arena : Arena ω => arena.stats.duplicates)
    Act.countExpanded := by
  intro arena
  unfold Act.countExpanded
  split <;> exact Nat.le_refl _

end Grows

/-- An act that first counts an expansion and then leaves that counter alone has counted one. -/
theorem increment_of_countExpanded {next : Nat → Act ω α} {arena arena' : Arena ω} {value : α}
    (hn : ∀ count, Keeps (fun arena : Arena ω => arena.stats.expanded) (next count))
    (h : (countExpanded >>= next) arena = .ok value arena') :
    Stats.increment arena.stats.expanded = .ok arena'.stats.expanded := by
  change EStateM.bind countExpanded next arena = _ at h
  unfold EStateM.bind countExpanded at h
  cases hi : Stats.increment arena.stats.expanded with
  | error fault => simp [hi] at h
  | ok count =>
    simp only [hi] at h
    have hk := hn count { arena with stats.expanded := count }
    rw [h] at hk
    exact congrArg _ hk.symm

end Act

end StateSearch
