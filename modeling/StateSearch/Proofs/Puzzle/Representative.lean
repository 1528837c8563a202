import StateSearch.Proofs.Puzzle.BridgeStates

/-!
# The representative decides which states are the same

Of two states, `canonical` makes one if and only if the torch is on the same side and of each speed equally many
people are across. It does so whether or not everybody in the states exists; for states of people who do, what
the puzzle asks about a state it may as well ask about the representative (`Bridge.StandsFor`). States that are
asked for one after the other (`PureProblem.answersInTurn`) are therefore known just when one like them came
before.
-/

namespace StateSearch

/-! ### Asking for states in turn -/

namespace PureProblem

variable {S M : Type} [DecidableEq S] [Hashable S] {p : PureProblem S M} {rep : S → S}

/-- What a problem answers when it is asked for these states, one after the other and with one set. -/
def answersInTurn (p : PureProblem S M) : List S → Std.HashSet S → List (Except Fault Bool)
  | [], _ => []
  | s :: rest, seen =>
    let (answer, seen) := (p.alreadySeen s).run seen
    answer :: p.answersInTurn rest seen

/-- A state is known if the one that is recorded for it was there, or was recorded for an earlier state. -/
theorem exists_getElem?_answersInTurn (hrep : ∀ s, p.alreadySeen s = .record (rep s)) (earlier later : List S)
    (s : S) (seen : Std.HashSet S) : ∃ known,
      (p.answersInTurn (earlier ++ s :: later) seen)[earlier.length]? = some (.ok known) ∧
        (known = true ↔ rep s ∈ seen ∨ ∃ t ∈ earlier, rep t = rep s) := by
  induction earlier generalizing seen with
  | nil =>
    refine ⟨seen.contains (rep s), ?_, by simp⟩
    simp [answersInTurn, hrep, SeenQuery.run_record]
  | cons t earlier ih =>
    obtain ⟨known, hanswer, hknown⟩ := ih (seen.insert (rep t))
    refine ⟨known, ?_, hknown.trans ?_⟩
    · simpa [answersInTurn, hrep, SeenQuery.run_record] using hanswer
    · simp only [Std.HashSet.mem_insert, beq_iff_eq, List.mem_cons, exists_eq_or_imp]
      tauto

end PureProblem

namespace Puzzle.Bridge

variable {bridge : Bridge} {s t state : BridgeState}

/-! ### States that are the same -/

/-- The torch is on the same side, and of each speed equally many people are across. -/
def Equivalent (bridge : Bridge) (s t : BridgeState) : Prop :=
  s.torchFar = t.torchFar ∧ bridge.Alike s.far t.far

/-- The one state is what is recorded for the other, and nothing is lost by it. -/
structure StandsFor (bridge : Bridge) (rep state : BridgeState) : Prop where
  peopled : bridge.Peopled rep
  canonical : bridge.canonical rep = rep
  equivalent : bridge.Equivalent rep state
  isGoal : bridge.problem.isGoal rep = bridge.problem.isGoal state
  heuristic : bridge.problem.heuristic rep = bridge.problem.heuristic state
  count : rep.far.count = state.far.count

theorem Peopled.standsFor (hstate : bridge.Peopled state) : bridge.StandsFor (bridge.canonical state) state := by
  have hpeopled := bridge.peopled_canonical state
  have halike := bridge.alike_canonical state
  refine ⟨hpeopled, bridge.canonical_canonical state, ⟨rfl, halike⟩, halike.isGoal_eq hpeopled hstate, ?_, ?_⟩
  · exact (halike.near hpeopled hstate).slowest_eq
  · rw [People.count_eq_card, People.count_eq_card]
    exact halike.card_eq hpeopled hstate

/-- States have the same representative just when they are equivalent. So with folding, a state is known just
when an equivalent one was asked for before. -/
theorem folding_decides_equivalence (bridge : Bridge) :
    (∀ s t, bridge.canonical s = bridge.canonical t ↔ bridge.Equivalent s t) ∧
    (∀ state, bridge.Peopled state → bridge.StandsFor (bridge.canonical state) state) ∧
    (bridge.folds = true → ∀ earlier state later, ∃ known,
      (bridge.problem.answersInTurn (earlier ++ state :: later) ∅)[earlier.length]? = some (.ok known) ∧
        (known = true ↔ ∃ s ∈ earlier, bridge.Equivalent s state)) := by
  refine ⟨fun s t => canonical_eq_iff, fun _ => Peopled.standsFor, fun hfolds earlier state later => ?_⟩
  have hrecord : ∀ s, bridge.problem.alreadySeen s = .record (bridge.canonical s) := by
    intro s
    rw [alreadySeen_problem, hfolds]
    rfl
  obtain ⟨known, hanswer, hknown⟩ :=
    PureProblem.exists_getElem?_answersInTurn hrecord earlier later state ∅
  refine ⟨known, hanswer, hknown.trans ?_⟩
  simp only [Std.HashSet.not_mem_empty, false_or, canonical_eq_iff]
  rfl

/-- Five people of two speeds, who take turns in the list. -/
def quintet : Bridge where
  speeds := [5, 2, 5, 2, 5]
  capacity := 2
  folds := true
  speeds_length := by decide
  capacity_pos := by decide

/-- Two of the slow people are as good as two others of them, but not as good as two of the fast ones. -/
theorem folding_quintet :
    quintet.Peopled ⟨0b10100, true⟩ ∧ quintet.StandsFor ⟨0b00101, true⟩ ⟨0b10100, true⟩ ∧ quintet.folds = true ∧
    ∀ later, (quintet.problem.answersInTurn (⟨0b10100, true⟩ :: ⟨0b10001, true⟩ :: later) ∅)[1]? =
        some (.ok true) ∧
      (quintet.problem.answersInTurn (⟨0b10100, true⟩ :: ⟨0b01010, true⟩ :: later) ∅)[1]? =
        some (.ok false) := by
  have hpeopled : quintet.Peopled ⟨0b10100, true⟩ := by
    unfold Peopled
    decide +kernel
  obtain ⟨hsame, hstands, hturn⟩ := folding_decides_equivalence quintet
  have hcanonical : quintet.canonical ⟨0b10100, true⟩ = ⟨0b00101, true⟩ := by decide +kernel
  refine ⟨hpeopled, hcanonical ▸ hstands _ hpeopled, rfl, fun later => ⟨?_, ?_⟩⟩
  · obtain ⟨known, hanswer, hknown⟩ := hturn rfl [⟨0b10100, true⟩] ⟨0b10001, true⟩ later
    have hequivalent : quintet.Equivalent ⟨0b10100, true⟩ ⟨0b10001, true⟩ := (hsame _ _).1 (by decide +kernel)
    rw [hknown.2 ⟨_, List.mem_singleton_self _, hequivalent⟩] at hanswer
    exact hanswer
  · obtain ⟨known, hanswer, hknown⟩ := hturn rfl [⟨0b10100, true⟩] ⟨0b01010, true⟩ later
    have hnew : known = false := by
      refine Bool.eq_false_iff.2 fun htrue => ?_
      obtain ⟨s, hs, hequivalent⟩ := hknown.1 htrue
      obtain rfl := List.mem_singleton.1 hs
      exact absurd ((hsame _ _).2 hequivalent) (by decide +kernel)
    rw [hnew] at hanswer
    exact hanswer

end Puzzle.Bridge

end StateSearch
