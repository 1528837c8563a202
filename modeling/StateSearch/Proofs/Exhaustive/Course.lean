import Mathlib.Algebra.BigOperators.Group.Finset.Basic
import Mathlib.Data.Set.Card
import StateSearch.Proofs.Pool.Expansions
import StateSearch.Proofs.Pool.Lockstep
import StateSearch.Proofs.Tally

/-!
# Exhaustive search expands every state once

States are recorded when they are generated and expanded much later, in the order of a stack or of a queue.
`Course` is the whole search of a problem of pure functions, as if its counters had no limit: which nodes are
expanded one after the other, and what is left at the end. As long as no counter reaches its limit the search
is its course (`Course.run_eq`).

Between two turns the `Ledger` balances: what is recorded is what was expanded and what waits, each once, and
whatever a move reaches from an expanded state is recorded. So no state is expanded twice, each expansion
uses up one of the states that can be reached, and the course ends (`Ledger.exists_course`). If nothing waits
any more, what was expanded is closed under moves, and that is everything (`Ledger.exists_done`).

States may be folded: `rep` says which state is recorded for a state.
-/

namespace StateSearch

variable {ω S M : Type}

theorem Deque.toList_pushAll {α : Type} (queue : Deque α) (entries : List α) :
    (entries.foldl Deque.pushBack queue).toList = queue.toList ++ entries := by
  induction entries generalizing queue with
  | nil => exact (List.append_nil _).symm
  | cons entry entries ih =>
    rw [List.foldl_cons, ih, toList_pushBack, List.append_assoc]
    rfl

variable [DecidableEq S] [Hashable S]

namespace Exhaustive

open Act

/-! ### The course of a search -/

section

variable (p : PureProblem S M) (rep : S → S) (o : Observer ω S M) (d : Discipline)

/-- The nodes that an expansion of `n` with these moves lets wait, and the states that are recorded then. -/
def sprouts (n : Node S M) : List M → Std.HashSet S → List (Node S M) × Std.HashSet S
  | [], seen => ([], seen)
  | m :: moves, seen =>
    let next := rep (p.applyMove n.state m)
    let later := sprouts n moves (seen.insert next)
    if seen.contains next then later else (sprout p n m :: later.1, later.2)

/-- The arena after an expansion of `n` that lets so many nodes wait. -/
def swept (n : Node S M) (made : Nat) (arena : Arena ω) : Arena ω :=
  let moves := p.legalMoves n.state
  (arena.tally 1 moves.length (moves.length - made)).reported o n.state (arena.stats.expanded + 1)

/-- With these states recorded and these nodes waiting, the search expands these nodes one after the other,
finds this goal, or none, and leaves this arena behind. -/
inductive Course : Std.HashSet S → Deque (Node S M) → Arena ω → List (Node S M) → Option (Node S M) →
    Arena ω → Prop
  | exhausted {seen : Std.HashSet S} {waiting : Deque (Node S M)} {arena : Arena ω}
      (empty : d.take? waiting = none) : Course seen waiting arena [] none arena
  | found {seen : Std.HashSet S} {waiting rest : Deque (Node S M)} {arena : Arena ω} {n : Node S M}
      (taken : d.take? waiting = some (n, rest)) (goal : p.isGoal n.state = true) :
    Course seen waiting arena [n] (some n) (arena.tally 1 0 0)
  | expanded {seen seen' : Std.HashSet S} {waiting rest : Deque (Node S M)} {arena after : Arena ω}
      {n : Node S M} {made ns : List (Node S M)} {goal : Option (Node S M)}
      (taken : d.take? waiting = some (n, rest)) (no_goal : p.isGoal n.state = false)
      (grown : sprouts p rep n (p.legalMoves n.state) seen = (made, seen'))
      (next : Course seen' (made.foldl Deque.pushBack rest) (swept p o n made.length arena) ns goal after) :
    Course seen waiting arena (n :: ns) goal after

/-- The record that a search starts with. -/
def record : Std.HashSet S := (∅ : Std.HashSet S).insert (rep p.initial)

omit [DecidableEq S] [Hashable S] in
/-- The queue that a search starts with. -/
def seedling : Deque (Node S M) := Deque.empty.pushBack (.root p.initial 0)

end

variable {p : PureProblem S M} {rep : S → S} {o : Observer ω S M} {d : Discipline}
  {seen seen' : Std.HashSet S} {waiting : Deque (Node S M)} {arena after : Arena ω} {n : Node S M}
  {made ns : List (Node S M)} {moves : List M} {goal : Option (Node S M)}

/-! ### What an expansion makes -/

theorem grown_sprouts (p : PureProblem S M) (rep : S → S) (n : Node S M) (moves : List M)
    (seen : Std.HashSet S) :
    Grown p rep n moves seen (sprouts p rep n moves seen).2 (sprouts p rep n moves seen).1 := by
  induction moves generalizing seen with
  | nil => exact .nil p rep n seen
  | cons m moves ih =>
    simp only [sprouts]
    split
    · exact (ih _).skip (Std.HashSet.contains_iff_mem.1 ‹_›)
    · exact (ih _).cons

theorem Grown.of_sprouts (h : sprouts p rep n moves seen = (made, seen')) :
    Grown p rep n moves seen seen' made := by
  have hgrown := grown_sprouts p rep n moves seen
  rwa [h] at hgrown

/-- The nodes that are made are for different states, which were not recorded before. -/
theorem fresh_sprouts (p : PureProblem S M) (rep : S → S) (n : Node S M) (moves : List M)
    (seen : Std.HashSet S) : ((sprouts p rep n moves seen).1.map fun c => rep c.state).Nodup ∧
      ∀ c ∈ (sprouts p rep n moves seen).1, rep c.state ∉ seen := by
  induction moves generalizing seen with
  | nil => exact ⟨List.nodup_nil, fun c hc => absurd hc List.not_mem_nil⟩
  | cons m moves ih =>
    obtain ⟨hnodup, hfresh⟩ := ih (seen.insert (rep (p.applyMove n.state m)))
    have hnew : ∀ c ∈ (sprouts p rep n moves (seen.insert (rep (p.applyMove n.state m)))).1,
        rep c.state ≠ rep (p.applyMove n.state m) ∧ rep c.state ∉ seen := by
      intro c hc
      have hc := hfresh c hc
      rw [Std.HashSet.mem_insert, not_or] at hc
      exact ⟨fun heq => hc.1 (beq_iff_eq.2 heq.symm), hc.2⟩
    simp only [sprouts]
    split
    · exact ⟨hnodup, fun c hc => (hnew c hc).2⟩
    · rename_i hunknown
      refine ⟨List.nodup_cons.2 ⟨fun hm => ?_, hnodup⟩, List.forall_mem_cons.2 ⟨?_, fun c hc => (hnew c hc).2⟩⟩
      · obtain ⟨c, hc, heq⟩ := List.mem_map.1 hm
        exact (hnew c hc).1 heq
      · exact fun hm => hunknown (Std.HashSet.contains_iff_mem.2 hm)

theorem length_sprouts_le (p : PureProblem S M) (rep : S → S) (n : Node S M) (moves : List M)
    (seen : Std.HashSet S) : (sprouts p rep n moves seen).1.length ≤ moves.length := by
  induction moves generalizing seen with
  | nil => exact Nat.le_refl _
  | cons m moves ih =>
    have hle := ih (seen.insert (rep (p.applyMove n.state m)))
    simp only [sprouts]
    split
    · exact Nat.le_succ_of_le hle
    · exact Nat.succ_le_succ hle

theorem explore_eq (hrecord : ∀ s, p.alreadySeen s = .record (rep s))
    (hgrown : sprouts p rep n moves seen = (made, seen'))
    (hfits : (arena.tally 0 moves.length (moves.length - made.length)).stats.Fits) :
    explore (p.observed o) n moves seen waiting arena =
      .ok (seen', made.foldl Deque.pushBack waiting)
        (arena.tally 0 moves.length (moves.length - made.length)) := by
  induction moves generalizing seen waiting arena made with
  | nil =>
    cases hgrown
    rfl
  | cons m moves ih =>
    have hle := length_sprouts_le p rep n moves (seen.insert (rep (p.applyMove n.state m)))
    have hgenerated : (arena.tally 0 1 0).stats.Fits :=
      Arena.fits_of_le hfits (Nat.le_refl _) (by simp) (Nat.zero_le _)
    have hinquire : inquire (p.observed o) (p.applyMove n.state m) seen (arena.tally 0 1 0) =
        .ok (seen.contains (rep (p.applyMove n.state m)), seen.insert (rep (p.applyMove n.state m)))
          (arena.tally 0 1 0) :=
      inquire_eq (by rw [hrecord, SeenQuery.run_record])
    refine (bind_eq (ask_answer _)).trans ((bind_eq (countGenerated_eq hgenerated)).trans ?_)
    refine (bind_eq hinquire).trans ?_
    simp only [sprouts] at hgrown
    cases hknown : seen.contains (rep (p.applyMove n.state m)) with
    | true =>
      rw [if_pos hknown] at hgrown
      simp only [hgrown] at hle
      have htally : arena.tally 0 (m :: moves).length ((m :: moves).length - made.length) =
          ((arena.tally 0 1 0).tally 0 0 1).tally 0 moves.length (moves.length - made.length) := by
        rw [Arena.tally_tally, Arena.tally_tally, List.length_cons]
        congr 1 <;> omega
      rw [htally] at hfits ⊢
      exact (bind_eq (countDuplicate_eq (Arena.fits_of_tally hfits))).trans (ih hgrown hfits)
    | false =>
      rw [if_neg (by simp [hknown])] at hgrown
      obtain ⟨rfl, rfl⟩ := Prod.mk.inj hgrown
      have htally : arena.tally 0 (m :: moves).length ((m :: moves).length -
          (sprout p n m :: (sprouts p rep n moves (seen.insert (rep (p.applyMove n.state m)))).1).length) =
            (arena.tally 0 1 0).tally 0 moves.length (moves.length -
              (sprouts p rep n moves (seen.insert (rep (p.applyMove n.state m)))).1.length) := by
        rw [Arena.tally_tally, List.length_cons, List.length_cons]
        congr 1 <;> omega
      rw [htally] at hfits ⊢
      exact (bind_eq (ask_answer _)).trans (ih rfl hfits)

/-! ### The search takes its course -/

namespace Course

/-- Counters grow along the course. -/
theorem fits (h : Course p rep o d seen waiting arena ns goal after) (hfits : after.stats.Fits) :
    arena.stats.Fits := by
  induction h with
  | exhausted => exact hfits
  | found => exact Arena.fits_of_tally hfits
  | expanded _ _ _ _ ih => exact Arena.fits_of_tally (ih hfits)

/-- The expansions of the course are those that are counted. -/
theorem expanded_eq (h : Course p rep o d seen waiting arena ns goal after) :
    after.stats.expanded = arena.stats.expanded + ns.length := by
  induction h with
  | exhausted => rfl
  | found => rfl
  | expanded _ _ _ _ ih =>
    rw [ih, List.length_cons]
    show _ + 1 + _ = _
    omega

/-- All moves of the states that are expanded are counted, but those of a goal. -/
theorem generated_eq (h : Course p rep o d seen waiting arena ns goal after) :
    after.stats.generated = arena.stats.generated +
      ((ns.filter (!p.isGoal ·.state)).map fun n => (p.legalMoves n.state).length).sum := by
  induction h with
  | exhausted => rfl
  | found _ hgoal =>
    rw [List.filter_cons_of_neg (by simp [hgoal])]
    rfl
  | expanded _ hno_goal _ _ ih =>
    rw [List.filter_cons_of_pos (by simp [hno_goal]), List.map_cons, List.sum_cons, ih]
    exact Nat.add_assoc _ _ _

/-- Not more duplicates are counted than moves. -/
theorem duplicates_le (h : Course p rep o d seen waiting arena ns goal after) :
    after.stats.duplicates ≤ arena.stats.duplicates +
      ((ns.filter (!p.isGoal ·.state)).map fun n => (p.legalMoves n.state).length).sum := by
  induction h with
  | exhausted => exact Nat.le_refl _
  | found => exact Nat.le_add_right _ _
  | @expanded seen seen' waiting rest arena after n made ns goal _ hno_goal _ _ ih =>
    rw [List.filter_cons_of_pos (by simp [hno_goal]), List.map_cons, List.sum_cons]
    refine Nat.le_trans ih ?_
    show arena.stats.duplicates + (_ - made.length) + _ ≤ _
    omega

/-- The expansions of the course are those that the problem is told of, and the goal. -/
theorem world_eq (h : Course p rep o d seen waiting arena ns goal after) :
    after.world = BestFirst.reports o arena.stats.expanded (ns.filter (!p.isGoal ·.state)) arena.world := by
  induction h with
  | exhausted => rfl
  | found _ hgoal =>
    rw [List.filter_cons_of_neg (by simp [hgoal])]
    rfl
  | expanded _ hno_goal _ _ ih =>
    rw [List.filter_cons_of_pos (by simp [hno_goal])]
    exact ih

theorem faults_eq (h : Course p rep o d seen waiting arena ns goal after) : after.faults = arena.faults := by
  induction h with
  | exhausted | found => rfl
  | expanded _ _ _ _ ih => exact ih

/-- The goal that is found is the last node that is expanded. -/
theorem getLast?_eq (h : Course p rep o d seen waiting arena ns goal after) (hgoal : goal = some n) :
    ns.getLast? = some n ∧ p.isGoal n.state = true := by
  induction h with
  | exhausted => cases hgoal
  | found _ hn =>
    cases hgoal
    exact ⟨rfl, hn⟩
  | expanded _ _ _ _ ih =>
    obtain ⟨hlast, hn⟩ := ih hgoal
    refine ⟨?_, hn⟩
    rw [List.getLast?_cons, hlast]
    rfl

/-- What holds of the nodes that wait, and is handed down to the nodes that moves make, holds of all that are
expanded. -/
theorem forall_of_waiting {I : Node S M → Prop}
    (hI : ∀ n, I n → ∀ m ∈ p.legalMoves n.state, I (sprout p n m))
    (h : Course p rep o d seen waiting arena ns goal after) (hwaiting : ∀ n ∈ waiting.toList, I n) :
    ∀ n ∈ ns, I n := by
  induction h with
  | exhausted => exact fun n hn => absurd hn List.not_mem_nil
  | found htaken _ =>
    simpa using hwaiting _ ((Discipline.toList_of_take? htaken).mem_iff.2 (List.mem_cons_self ..))
  | @expanded seen seen' waiting rest arena after n made ns goal htaken _ hgrown _ ih =>
    have hmem := fun c => (Discipline.toList_of_take? htaken).mem_iff (a := c)
    have hfirst := hwaiting n ((hmem n).2 (List.mem_cons_self ..))
    refine List.forall_mem_cons.2 ⟨hfirst, ih ?_⟩
    rw [Deque.toList_pushAll]
    refine List.forall_mem_append.2 ⟨fun c hc => hwaiting c ((hmem c).2 (List.mem_cons_of_mem _ hc)), ?_⟩
    intro c hc
    obtain ⟨m, hm, rfl⟩ := (Grown.of_sprouts hgrown).child c hc
    exact hI n hfirst m hm

/-- As long as its counters stay below their limit, the search takes its course. -/
theorem run_eq (hrecord : ∀ s, p.alreadySeen s = .record (rep s))
    (h : Course p rep o d seen waiting arena ns goal after) (hopen : arena.stopped = false)
    (hfits : after.stats.Fits) : run d (p.observed o) seen waiting arena = .ok goal after := by
  induction h with
  | exhausted hempty =>
    rw [Exhaustive.run_eq]
    simp only [turn, hempty]
    rfl
  | @found seen waiting rest arena n htaken hgoal =>
    have hturn : turn d (p.observed o) seen waiting arena = .ok (.found n) (arena.tally 1 0 0) := by
      simp only [turn, htaken]
      refine (bind_eq (isStopped_eq hopen)).trans ((bind_eq (countExpanded_eq hfits)).trans ?_)
      refine (bind_eq (ask_answer _)).trans ?_
      rw [hgoal]
      rfl
    rw [Exhaustive.run_eq, hturn]
  | @expanded seen seen' waiting rest arena after n made ns goal htaken hno_goal hgrown hnext ih =>
    have hswept := hnext.fits hfits
    have hturn : turn d (p.observed o) seen waiting arena =
        .ok (.onward seen' (made.foldl Deque.pushBack rest)) (swept p o n made.length arena) := by
      simp only [turn, htaken]
      have hcount : (arena.tally 1 0 0).stats.Fits :=
        ⟨hswept.expanded, Nat.lt_of_le_of_lt (Nat.le_add_right _ _) hswept.generated,
          Nat.lt_of_le_of_lt (Nat.le_add_right _ _) hswept.duplicates⟩
      refine (bind_eq (isStopped_eq hopen)).trans ((bind_eq (countExpanded_eq hcount)).trans ?_)
      refine (bind_eq (ask_answer _)).trans ?_
      rw [hno_goal]
      refine (bind_eq (ask_answer _)).trans ?_
      have hexplore : explore (p.observed o) n (p.legalMoves n.state) seen rest (arena.tally 1 0 0) =
          .ok _ _ :=
        explore_eq hrecord hgrown ⟨hswept.expanded, hswept.generated, hswept.duplicates⟩
      refine (bind_eq hexplore).trans ((bind_eq (ask_progress _ _)).trans ?_)
      rw [Arena.tally_tally, Nat.zero_add, Nat.zero_add]
      rfl
    rw [Exhaustive.run_eq, hturn]
    exact ih hopen hfits

/-- The search ends as its course does. -/
theorem solve_eq (hrecord : ∀ s, p.alreadySeen s = .record (rep s))
    (h : Course p rep o d (record p rep) (seedling p) arena ns goal after) (hopen : arena.stopped = false)
    (hfits : after.stats.Fits) : solve d (p.observed o) arena = conclude (p.observed o) goal after := by
  have hinquire : inquire (p.observed o) p.initial (∅ : Std.HashSet S) arena =
      .ok (false, record p rep) arena :=
    inquire_eq (by rw [hrecord, SeenQuery.run_record, Std.HashSet.contains_empty]; rfl)
  exact (bind_eq hinquire).trans (bind_eq (h.run_eq hrecord hopen hfits))

end Course

/-! ### The record between two turns -/

/-- What holds of the nodes that were expanded, the states that are recorded and the nodes that wait. -/
structure Ledger (p : PureProblem S M) (rep : S → S) (done : List (Node S M)) (seen : Std.HashSet S)
    (waiting : List (Node S M)) : Prop where
  genuine : ∀ n ∈ done ++ waiting, n.Genuine p.rules
  /-- No state is recorded for two nodes. -/
  nodup : ((done ++ waiting).map fun n => rep n.state).Nodup
  recorded : ∀ r, r ∈ seen ↔ r ∈ (done ++ waiting).map fun n => rep n.state
  initial : rep p.initial ∈ seen
  no_goal : ∀ n ∈ done, p.isGoal n.state = false
  /-- What a move reaches from a state that was expanded is recorded. -/
  move : ∀ n ∈ done, ∀ m ∈ p.legalMoves n.state, rep (p.applyMove n.state m) ∈ seen

namespace Ledger

variable {done rest entries entries' : List (Node S M)}

theorem start (p : PureProblem S M) (rep : S → S) :
    Ledger p rep [] (record p rep) (seedling p).toList where
  genuine n hn := by
    rw [List.mem_singleton.1 hn]
    exact .root _
  nodup := List.nodup_singleton _
  recorded r := by
    simp only [record, Std.HashSet.mem_insert, Std.HashSet.not_mem_empty, or_false, beq_iff_eq]
    exact eq_comm.trans List.mem_singleton.symm
  initial := Std.HashSet.mem_insert_self
  no_goal n hn := absurd hn List.not_mem_nil
  move n hn := absurd hn List.not_mem_nil

theorem of_perm (h : Ledger p rep done seen entries) (hperm : entries.Perm entries') :
    Ledger p rep done seen entries' where
  genuine n hn := h.genuine n ((hperm.append_left done).mem_iff.2 hn)
  nodup := ((hperm.append_left done).map _).nodup h.nodup
  recorded r := (h.recorded r).trans ((hperm.append_left done).map _).mem_iff
  initial := h.initial
  no_goal := h.no_goal
  move := h.move

/-- A node that is no goal can be expanded. -/
theorem expand (h : Ledger p rep done seen (n :: rest)) (hgoal : p.isGoal n.state = false)
    (hgrown : sprouts p rep n (p.legalMoves n.state) seen = (made, seen')) :
    Ledger p rep (done ++ [n]) seen' (rest ++ made) := by
  have hmade := Grown.of_sprouts hgrown
  have hfresh := fresh_sprouts p rep n (p.legalMoves n.state) seen
  rw [hgrown] at hfresh
  have hall : done ++ [n] ++ (rest ++ made) = done ++ n :: rest ++ made := by simp
  refine ⟨?_, ?_, ?_, hmade.known _ h.initial, ?_, ?_⟩
  · rw [hall]
    refine List.forall_mem_append.2 ⟨h.genuine, fun c hc => ?_⟩
    obtain ⟨m, hm, rfl⟩ := hmade.child c hc
    exact (h.genuine n (by simp)).child (PureProblem.step_of_mem hm) 0
  · rw [hall, List.map_append]
    refine List.nodup_append.2 ⟨h.nodup, hfresh.1, fun r hr r' hr' heq => ?_⟩
    obtain ⟨c, hc, rfl⟩ := List.mem_map.1 hr'
    exact hfresh.2 c hc ((h.recorded _).2 (heq ▸ hr))
  · intro r
    rw [hall, List.map_append, List.mem_append, ← h.recorded]
    constructor
    · exact fun hr => (hmade.recorded r hr).imp_right List.mem_map.2
    · rintro (hr | hr)
      · exact hmade.known r hr
      · obtain ⟨c, hc, rfl⟩ := List.mem_map.1 hr
        obtain ⟨m, hm, rfl⟩ := hmade.child c hc
        exact hmade.move m hm
  · exact List.forall_mem_append.2 ⟨h.no_goal, by simpa using hgoal⟩
  · refine List.forall_mem_append.2 ⟨fun c hc m hm => hmade.known _ (h.move c hc m hm), ?_⟩
    simpa using hmade.move

/-- When nothing waits any more, everything that can be reached was expanded. -/
theorem exists_done (h : Ledger p rep done seen []) (hfolds : p.Folds rep) {s : S} (hs : p.Reachable s) :
    ∃ n ∈ done, rep n.state = rep s := by
  have hdone : ∀ r ∈ seen, ∃ n ∈ done, rep n.state = r := by
    intro r hr
    have hr := (h.recorded r).1 hr
    rw [List.append_nil] at hr
    exact List.mem_map.1 hr
  obtain ⟨ms, c, route⟩ := hs
  induction route with
  | stay => exact hdone _ h.initial
  | @snoc ms t u m c cost route step ih =>
    obtain ⟨hm, rfl, -⟩ := PureProblem.step_rules_iff.1 step
    obtain ⟨n, hn, hrep⟩ := ih
    -- The state that was expanded for the class has a move into the same class.
    have hreachable : p.Reachable n.state := ⟨_, _, h.genuine n (List.mem_append_left _ hn)⟩
    obtain ⟨m', hm', hnext, -⟩ := hfolds.move t n.state ⟨_, _, route⟩ hreachable hrep.symm m hm
    exact hnext ▸ hdone _ (h.move n hn m' hm')

theorem not_solvable (h : Ledger p rep done seen []) (hfolds : p.Folds rep) : ¬ p.Solvable := by
  rintro ⟨s, hs, hgoal⟩
  obtain ⟨n, hn, hrep⟩ := h.exists_done hfolds hs
  have hreachable : p.Reachable n.state := ⟨_, _, h.genuine n (List.mem_append_left _ hn)⟩
  rw [hfolds.isGoal s n.state hs hreachable hrep.symm, h.no_goal n hn] at hgoal
  cases hgoal

theorem of_take? {rest : Deque (Node S M)} (h : Ledger p rep done seen waiting.toList)
    (htaken : d.take? waiting = some (n, rest)) : Ledger p rep done seen (n :: rest.toList) :=
  h.of_perm (Discipline.toList_of_take? htaken)

theorem expand_taken {rest : Deque (Node S M)} (h : Ledger p rep done seen waiting.toList)
    (htaken : d.take? waiting = some (n, rest)) (hgoal : p.isGoal n.state = false)
    (hgrown : sprouts p rep n (p.legalMoves n.state) seen = (made, seen')) :
    Ledger p rep (done ++ [n]) seen' (made.foldl Deque.pushBack rest).toList := by
  rw [Deque.toList_pushAll]
  exact (h.of_take? htaken).expand hgoal hgrown

/-- No more nodes were expanded, or wait, than there are classes. -/
theorem length_le (h : Ledger p rep done seen entries) {classes : Finset S}
    (hclasses : ∀ s, p.Reachable s → rep s ∈ classes) : (done ++ entries).length ≤ classes.card := by
  have hsub : ((done ++ entries).map fun c => rep c.state).toFinset ⊆ classes := by
    intro r hr
    obtain ⟨c, hc, rfl⟩ := List.mem_map.1 (List.mem_toFinset.1 hr)
    exact hclasses _ ⟨_, _, h.genuine c hc⟩
  have hcard := Finset.card_le_card hsub
  rwa [List.toFinset_card_of_nodup h.nodup, List.length_map] at hcard

/-! ### The course ends -/

/-- If finitely many states can be reached, the search comes to an end. -/
theorem exists_course (o : Observer ω S M) {classes : Finset S}
    (hclasses : ∀ s, p.Reachable s → rep s ∈ classes) (done : List (Node S M)) (seen : Std.HashSet S)
    (waiting : Deque (Node S M)) (I : Ledger p rep done seen waiting.toList) (arena : Arena ω) :
    ∃ ns goal after, Course p rep o d seen waiting arena ns goal after := by
  match ht : d.take? waiting with
  | none => exact ⟨[], none, arena, .exhausted ht⟩
  | some (n, rest) =>
    match hgoal : p.isGoal n.state with
    | true => exact ⟨[n], some n, _, .found ht hgoal⟩
    | false =>
      obtain ⟨ns, goal, after, hnext⟩ := exists_course o hclasses _ _ _ (I.expand_taken ht hgoal rfl)
        (swept p o n (sprouts p rep n (p.legalMoves n.state) seen).1.length arena)
      exact ⟨n :: ns, goal, after, .expanded ht hgoal rfl hnext⟩
-- One more of the states that can be reached has been expanded.
termination_by classes.card - done.length
decreasing_by
  have hle := (I.of_take? ht).length_le hclasses
  rw [List.length_append, List.length_cons] at hle
  rw [List.length_append, List.length_singleton]
  omega

/-! ### The nodes that are expanded -/

/-- No state is expanded twice. -/
theorem nodup_course (I : Ledger p rep done seen waiting.toList)
    (h : Course p rep o d seen waiting arena ns goal after) :
    ((done ++ ns).map fun n => rep n.state).Nodup := by
  induction h generalizing done with
  | exhausted =>
    rw [List.append_nil]
    exact (I.nodup.sublist ((List.sublist_append_left _ _).map _))
  | @found seen waiting rest arena n htaken _ =>
    have hsub : (done ++ [n]).Sublist (done ++ n :: rest.toList) :=
      (List.Sublist.refl done).append (List.singleton_sublist.2 List.mem_cons_self)
    exact (I.of_take? htaken).nodup.sublist (hsub.map _)
  | @expanded seen seen' waiting rest arena after n made ns goal htaken hno_goal hgrown _ ih =>
    have := ih (I.expand_taken htaken hno_goal hgrown)
    rwa [List.append_assoc, List.singleton_append] at this

theorem genuine_course (I : Ledger p rep done seen waiting.toList)
    (h : Course p rep o d seen waiting arena ns goal after) : ∀ n ∈ ns, n.Genuine p.rules :=
  h.forall_of_waiting (fun _ hn _ hm => hn.child (PureProblem.step_of_mem hm) 0) fun n hn =>
    I.genuine n (List.mem_append_right _ hn)

/-- If no goal is found, nothing is left to be expanded. -/
theorem exists_ledger (I : Ledger p rep done seen waiting.toList)
    (h : Course p rep o d seen waiting arena ns goal after) (hgoal : goal = none) :
    ∃ seen, Ledger p rep (done ++ ns) seen [] := by
  induction h generalizing done with
  | @exhausted seen waiting arena hempty =>
    rw [Discipline.toList_of_take?_eq_none hempty] at I
    exact ⟨seen, (List.append_nil done).symm ▸ I⟩
  | found => cases hgoal
  | @expanded seen seen' waiting rest arena after n made ns goal htaken hno_goal hgrown _ ih =>
    obtain ⟨last, hlast⟩ := ih (I.expand_taken htaken hno_goal hgrown) hgoal
    rw [List.append_assoc, List.singleton_append] at hlast
    exact ⟨last, hlast⟩

/-- A goal is found exactly if one can be reached. -/
theorem solvable_iff (I : Ledger p rep done seen waiting.toList) (hfolds : p.Folds rep)
    (h : Course p rep o d seen waiting arena ns goal after) : goal.isSome = true ↔ p.Solvable := by
  cases hgoal : goal with
  | none =>
    obtain ⟨last, hlast⟩ := I.exists_ledger h hgoal
    simpa using hlast.not_solvable hfolds
  | some n =>
    obtain ⟨hlast, hn⟩ := h.getLast?_eq hgoal
    exact iff_of_true rfl ⟨n.state, ⟨_, _, I.genuine_course h n (List.mem_of_getLast? hlast)⟩, hn⟩

/-- If no goal is found, the states that are expanded are those that can be reached. -/
theorem mem_course_iff (I : Ledger p id [] seen waiting.toList) (hrecord : p.alreadySeen = .record)
    (h : Course p id o d seen waiting arena ns goal after) (hgoal : goal = none) (s : S) :
    s ∈ ns.map Node.state ↔ p.Reachable s := by
  rw [List.mem_map]
  constructor
  · rintro ⟨n, hn, rfl⟩
    exact ⟨_, _, I.genuine_course h n hn⟩
  · intro hs
    obtain ⟨last, hlast⟩ := I.exists_ledger h hgoal
    exact hlast.exists_done (p.folds_id hrecord) hs

end Ledger

/-! ### The answer -/

/-- With any problem of few states, an exhaustive search finds a goal or finds out that there is none. It counts
each state once. -/
theorem exists_solve_eq {states : List S} (hfolds : p.Folds rep) (hstates : p.rules.Confines rep states)
    (hinitial : p.initial ∈ states) (hroom : p.rules.efforts states < Stats.counterLimit)
    (hopen : arena.stopped = false) (hstats : arena.stats.expanded = 0 ∧ arena.stats.generated = 0 ∧
      arena.stats.duplicates = 0) (d : Discipline) :
    ∃ path final, solve d p.toProblem arena = .ok path final ∧ final.faults = arena.faults ∧
      (path.isSome = true ↔ p.Solvable) ∧ p.CountsOnce rep final.stats.expanded := by
  have hmem : ∀ s, p.Reachable s → s ∈ states := fun s hs => hstates.mem_of_reachable hinitial hs
  have hfinite : (rep '' {s | p.Reachable s}).Finite :=
    ((List.finite_toSet states).subset fun s hs => hmem s hs).image rep
  have I := Ledger.start p rep
  obtain ⟨ns, goal, after, hcourse⟩ := I.exists_course (d := d) (.deaf : Observer ω S M)
    (fun s hs => hfinite.mem_toFinset.2 ⟨s, hs, rfl⟩) _ _ _ arena
  have hexpanded : ∀ n ∈ ns, n.state ∈ states := fun n hn => hmem _ ⟨_, _, I.genuine_course hcourse n hn⟩
  have hle := hstates.expansions_le hexpanded (I.nodup_course hcourse)
  have hsum : ((ns.filter (!p.isGoal ·.state)).map fun n => (p.legalMoves n.state).length).sum ≤
      (ns.map fun n => p.rules.choices n.state).sum :=
    (List.filter_sublist.map _).sum_le_sum fun _ _ => Nat.zero_le _
  obtain ⟨he, hg, hd⟩ := hstats
  have hduplicates := hcourse.duplicates_le
  have hfits : after.stats.Fits := by
    refine ⟨?_, ?_, ?_⟩
    · rw [hcourse.expanded_eq]
      omega
    · rw [hcourse.generated_eq]
      omega
    · omega
  obtain ⟨final, hconclude, -⟩ := exists_conclude_eq (p := p) (.deaf : Observer ω S M) goal after
  have hfaults : final.faults = after.faults := (Keeps.conclude_faults _ _).of_eq_ok hconclude
  have hcount : final.stats.expanded = ns.length := by
    rw [(Keeps.conclude_expanded _ _).of_eq_ok hconclude, hcourse.expanded_eq, he, Nat.zero_add]
  refine ⟨goal.map Node.toPath, final, ?_, hfaults.trans hcourse.faults_eq, ?_, ?_⟩
  · rw [← PureProblem.observed_deaf, hcourse.solve_eq hfolds.record hopen hfits]
    exact hconclude
  · rw [Option.isSome_map]
    exact I.solvable_iff hfolds hcourse
  · rw [hcount]
    exact .of_nodes (I.nodup_course hcourse) fun n hn => ⟨_, _, I.genuine_course hcourse n hn⟩

/-- In either order, exhaustive search ends if finitely many states can be reached. It expands no state twice,
and it finds a goal exactly if one can be reached. If none can be reached, it has expanded everything that can
be, and counted all moves of these states. The problem is told of all expansions but that of the goal. -/
theorem solve_exhaustive (p : PureProblem S M) (hseen : p.alreadySeen = .record)
    (hfinite : {s | p.Reachable s}.Finite) (d : Discipline) (o : Observer ω S M) (arena : Arena ω)
    (hopen : arena.stopped = false) :
    ∃ ns goal after, Course p id o d (record p id) (seedling p) arena ns goal after ∧
      (ns.map Node.state).Nodup ∧
      (goal.isSome = true ↔ p.Solvable) ∧
      after.stats.expanded = arena.stats.expanded + ns.length ∧
      (¬ p.Solvable → (∀ s, s ∈ ns.map Node.state ↔ p.Reachable s) ∧
        after.stats.expanded = arena.stats.expanded + {s | p.Reachable s}.ncard ∧
        after.stats.generated = arena.stats.generated + ∑ s ∈ hfinite.toFinset, (p.legalMoves s).length) ∧
      after.world =
        BestFirst.reports o arena.stats.expanded (ns.filter (!p.isGoal ·.state)) arena.world ∧
      (after.stats.Fits → ∃ final, solve d (p.observed o) arena = .ok (goal.map Node.toPath) final ∧
        final.stats = { after.stats with cost := goal.map Node.pathCost }) := by
  have hfolds := p.folds_id hseen
  have I := Ledger.start p id
  obtain ⟨ns, goal, after, hcourse⟩ := I.exists_course (d := d) o
    (fun s hs => hfinite.mem_toFinset.2 hs) _ _ _ arena
  have hnodup : (ns.map Node.state).Nodup := I.nodup_course hcourse
  have hsolvable := I.solvable_iff hfolds hcourse
  refine ⟨ns, goal, after, hcourse, hnodup, hsolvable, hcourse.expanded_eq, fun hno => ?_,
    hcourse.world_eq, fun hfits => ?_⟩
  · have hnone : goal = none := by
      rwa [← hsolvable, Option.not_isSome_iff_eq_none] at hno
    have hiff := I.mem_course_iff hseen hcourse hnone
    have hset : hfinite.toFinset = (ns.map Node.state).toFinset := by
      ext s
      rw [hfinite.mem_toFinset, List.mem_toFinset, hiff]
      rfl
    have hall : ns.filter (!p.isGoal ·.state) = ns := by
      refine List.filter_eq_self.2 fun n hn => ?_
      rw [Bool.not_eq_true', Bool.eq_false_iff]
      exact fun hgoal => hno ⟨n.state, (hiff _).1 (List.mem_map_of_mem hn), hgoal⟩
    refine ⟨hiff, ?_, ?_⟩
    · rw [hcourse.expanded_eq, Set.ncard_eq_toFinset_card _ hfinite, hset,
        List.toFinset_card_of_nodup hnodup, List.length_map]
    · rw [hcourse.generated_eq, hall, hset, List.sum_toFinset _ hnodup, List.map_map]
      rfl
  · rw [hcourse.solve_eq hfolds.record hopen hfits]
    exact exists_conclude_eq o goal after

end Exhaustive

/-! ### An example -/

namespace Junction

theorem finite_reachable_stroll : {s | stroll.Reachable s}.Finite :=
  (List.finite_toSet [start, bypass, middle, finish]).subset fun s _ => by cases s <;> simp

theorem solve_stroll_exhaustive :
    stroll.alreadySeen = .record ∧ ¬ stroll.Solvable ∧
    ∃ ns goal after, Exhaustive.Course stroll id .deaf .depthFirst (Exhaustive.record stroll id)
        (Exhaustive.seedling stroll) { world := () } ns goal after ∧
      (ns.map Node.state).Nodup ∧ goal.isSome = false ∧
      after.stats.expanded = {s | stroll.Reachable s}.ncard ∧
      after.stats.generated = ∑ s ∈ finite_reachable_stroll.toFinset, (stroll.legalMoves s).length := by
  have hno : ¬ stroll.Solvable := fun ⟨_, _, hgoal⟩ => Bool.false_ne_true hgoal
  obtain ⟨ns, goal, after, hcourse, hnodup, hgoal, -, hcounted, -, -⟩ :=
    Exhaustive.solve_exhaustive stroll rfl finite_reachable_stroll .depthFirst
      (.deaf : Observer Unit Junction Junction) { world := () } rfl
  obtain ⟨-, hexpanded, hgenerated⟩ := hcounted hno
  refine ⟨rfl, hno, ns, goal, after, hcourse, hnodup, Bool.eq_false_iff.2 fun h => hno (hgoal.1 h), ?_, ?_⟩
  · rw [hexpanded, Nat.zero_add]
  · rw [hgenerated, Nat.zero_add]

end Junction

end StateSearch
