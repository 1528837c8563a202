import StateSearch.Proofs.Act

/-!
# Observers

An observer is told what a search reports, and does to the world what it likes. Whatever a problem of pure
functions is asked, and whoever observes it, its calls never fail and never ask for a stop
(`PureProblem.observed`).
-/

namespace StateSearch

variable {ω S M : Type}

/-- What the reports of a search do to the world. -/
structure Observer (ω S M : Type) where
  progress : S → Nat → ω → ω
  finished : Option (Path M) → S → Nat → ω → ω

/-- Nobody listens. -/
def Observer.deaf : Observer ω S M := ⟨fun _ _ world => world, fun _ _ _ world => world⟩

namespace PureProblem

/-- The problem that answers as the functions say and reports to the observer. -/
def observed (p : PureProblem S M) (o : Observer ω S M) : Problem ω S M :=
  { (p.toProblem : Problem ω S M) with
    onProgress := fun state tries world => ⟨o.progress state tries world, false, .ok ()⟩
    onFinished := fun path state tries world => ⟨o.finished path state tries world, false, .ok ()⟩ }

theorem observed_deaf (p : PureProblem S M) : p.observed (.deaf : Observer ω S M) = p.toProblem := rfl

theorem respects_observed (p : PureProblem S M) (o : Observer ω S M) : (p.observed o).Respects p.rules where
  initial := rfl
  isGoal h := h
  legalMoves h := h
  applyMove h := h
  moveCost h := h

end PureProblem

/-- The arena in which more has been counted. -/
def Arena.tally (expanded generated duplicates : Nat) (arena : Arena ω) : Arena ω :=
  { arena with stats := { arena.stats with
      expanded := arena.stats.expanded + expanded
      generated := arena.stats.generated + generated
      duplicates := arena.stats.duplicates + duplicates } }

theorem Arena.tally_tally (arena : Arena ω) (e g d e' g' d' : Nat) :
    (arena.tally e g d).tally e' g' d' = arena.tally (e + e') (g + g') (d + d') := by
  simp only [tally, Nat.add_assoc]

/-- The arena after the observer was told of the expansion of `s`. -/
def Arena.reported (o : Observer ω S M) (s : S) (tries : Nat) (arena : Arena ω) : Arena ω :=
  { arena with world := o.progress s tries arena.world }

namespace Act

variable {α : Type} {p : PureProblem S M} {o : Observer ω S M} {arena : Arena ω} {err : Fault → Arena ω → Prop}

theorem ask_answer (value : α) : ask (.answer value) arena = .ok value arena := by
  simp [ask, Call.answer]

theorem ask_progress (s : S) (tries : Nat) :
    ask ((p.observed o).onProgress s tries) arena = .ok () (arena.reported o s tries) := by
  simp [ask, PureProblem.observed, Arena.reported]

theorem wp_ask_progress {s : S} {tries : Nat} {post : Unit → Arena ω → Prop} :
    wp (ask ((p.observed o).onProgress s tries)) post err arena ↔ post () (arena.reported o s tries) := by
  unfold wp
  rw [ask_progress]

theorem wp_inquire_observed {σ : Type} [SeenSet σ S] (hrecord : p.alreadySeen = .record) (s : S) (seen : σ)
    {post : Bool × σ → Arena ω → Prop} :
    wp (inquire (p.observed o) s seen) post err arena ↔
      post (!(SeenSet.insert seen s).1, (SeenSet.insert seen s).2) arena :=
  wp_inquire_record p hrecord s seen

/-! ### What exactly is counted -/

theorem wp_countExpanded_tally {post : Nat → Arena ω → Prop}
    (hok : post (arena.stats.expanded + 1) (arena.tally 1 0 0))
    (herr : Overflow .sumOutOfRange arena → err .sumOutOfRange arena) :
    wp countExpanded post err arena := by
  unfold wp countExpanded
  cases h : Stats.increment arena.stats.expanded with
  | ok count =>
    obtain ⟨rfl, -⟩ := Stats.increment_eq_ok h
    exact hok
  | error fault =>
    obtain ⟨rfl, hfull⟩ := Stats.increment_eq_error h
    exact herr ⟨rfl, .inl hfull⟩

theorem wp_countGenerated_tally {post : Unit → Arena ω → Prop} (hok : post () (arena.tally 0 1 0))
    (herr : Overflow .sumOutOfRange arena → err .sumOutOfRange arena) :
    wp countGenerated post err arena := by
  unfold wp countGenerated
  cases h : Stats.increment arena.stats.generated with
  | ok count =>
    obtain ⟨rfl, -⟩ := Stats.increment_eq_ok h
    exact hok
  | error fault =>
    obtain ⟨rfl, hfull⟩ := Stats.increment_eq_error h
    exact herr ⟨rfl, .inr (.inl hfull)⟩

theorem wp_countDuplicate_tally {post : Unit → Arena ω → Prop} (hok : post () (arena.tally 0 0 1))
    (herr : Overflow .sumOutOfRange arena → err .sumOutOfRange arena) :
    wp countDuplicate post err arena := by
  unfold wp countDuplicate
  cases h : Stats.increment arena.stats.duplicates with
  | ok count =>
    obtain ⟨rfl, -⟩ := Stats.increment_eq_ok h
    exact hok
  | error fault =>
    obtain ⟨rfl, hfull⟩ := Stats.increment_eq_error h
    exact herr ⟨rfl, .inr (.inr hfull)⟩

end Act

end StateSearch
