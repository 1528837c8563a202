import StateSearch.Proofs.Likeness
import StateSearch.Proofs.Observer
import StateSearch.Proofs.Pool.SingleWorker
import StateSearch.Proofs.Soundness

/-!
# What a search tells its problem

A search reports its expansions to the problem while it goes on, and how it ended. `Problem.logged` is the
problem that also keeps a list of what it was told. Apart from this list, a search of it is a search of the
problem itself (`Problem.like_logged`).

`Reports` says what is in the list when a search has ended. Without workers the expansions are reported in
the order in which they are counted, each of them once, and only that of a goal is not
(`Exhaustive.reports_of_solve`, `BestFirst.reports_of_solve`).
-/

namespace StateSearch

open Act

variable {ω S M α β γ : Type}

/-- The report that the expansion with this number was one of this state. -/
def Notice.ofExpansion : S × Nat → Notice S M := fun (s, tries) => .progress s tries

/-- Make the call, and note these beside the world. -/
def Call.noting {N : Type} (notices : List N) (call : Call ω α) : Call (ω × List N) α := fun (world, log) =>
  ⟨((call world).world, log ++ notices), (call world).raisesStop, (call world).result⟩

theorem Call.like_noting {N : Type} (notices : List N) (call : Call ω α) :
    (call.noting notices).Like Prod.fst true call := fun _ => rfl

namespace Problem

/-- The problem with a list of what it was told, the earliest first. -/
def logged (p : Problem ω S M) : Problem (ω × List (Notice S M)) S M where
  initial := p.initial
  isGoal s := (p.isGoal s).noting []
  legalMoves s := (p.legalMoves s).noting []
  applyMove s m := (p.applyMove s m).noting []
  moveCost s m := (p.moveCost s m).noting []
  alreadySeen s := (p.alreadySeen s).noting []
  heuristic s := (p.heuristic s).noting []
  onProgress s tries := (p.onProgress s tries).noting [.progress s tries]
  onFinished path s tries := (p.onFinished path s tries).noting [.finished path s tries]
  pace := p.pace

theorem like_logged (p : Problem ω S M) : p.logged.Like Prod.fst true p where
  initial := rfl
  isGoal s := (p.isGoal s).like_noting _
  legalMoves s := (p.legalMoves s).like_noting _
  applyMove s m := (p.applyMove s m).like_noting _
  moveCost s m := (p.moveCost s m).like_noting _
  alreadySeen s := (p.alreadySeen s).like_noting _
  heuristic s := (p.heuristic s).like_noting _
  onProgress s tries := (p.onProgress s tries).like_noting _
  onFinished path s tries := (p.onFinished path s tries).like_noting _
  pace := rfl

theorem respects_logged {p : Problem ω S M} {rules : Rules S M} (hp : p.Respects rules) :
    p.logged.Respects rules where
  initial := hp.initial
  isGoal h := hp.isGoal h
  legalMoves h := hp.legalMoves h
  applyMove h := hp.applyMove h
  moveCost h := hp.moveCost h

/-- The problem may say that the state is a goal. -/
def Hails (p : Problem ω S M) (s : S) : Prop :=
  ∃ world, (p.isGoal s world).result = .ok true

/-- The state belongs to the path: it is the goal to which the path leads, or else the initial state. -/
def EndsAt (p : Problem ω S M) : Option (Path M) → S → Prop
  | none, last => last = p.initial
  | some path, last => p.Hails last ∧ ∀ rules, p.Respects rules →
      rules.Route rules.initial path.moves last path.cost ∧ rules.isGoal last = .ok true

/-- The node was found to be a goal. -/
structure Found (p : Problem ω S M) (n : Node S M) : Prop where
  hails : p.Hails n.state
  solves : ∀ rules, p.Respects rules → n.Solves rules

theorem endsAt_of_found {p : Problem ω S M} {goal : Option (Node S M)} (h : ∀ n ∈ goal, p.Found n) :
    p.EndsAt (goal.map Node.toPath) (goal.elim p.initial Node.state) := by
  cases goal with
  | none => rfl
  | some n =>
    have hfound := h n rfl
    exact ⟨hfound.hails, fun rules hp => ⟨(hfound.solves rules hp).genuine, (hfound.solves rules hp).isGoal⟩⟩

end Problem

/-- What a search has told that came to this path after so many expansions: of these expansions, and then, for
the first time, that it has finished. -/
def Reports (p : Problem ω S M) (told : List (S × Nat)) (path : Option (Path M)) (expanded : Nat)
    (log : List (Notice S M)) : Prop :=
  ∃ last, p.EndsAt path last ∧ log = told.map Notice.ofExpansion ++ [.finished path last expanded]

/-- Each expansion but that of the goal was reported, in the order in which they were counted. -/
structure InTurn (told : List (S × Nat)) (path : Option (Path M)) (expanded : Nat) : Prop where
  numbers : told.map Prod.snd = List.range' 1 told.length
  count : told.length + path.isSome.toNat = expanded

variable {p : Problem ω S M} {arena after : Arena (ω × List (Notice S M))}

/-! ### What acts tell -/

/-- What was told so far, and how many expansions were counted. -/
def Arena.told (arena : Arena (ω × List (Notice S M))) : List (Notice S M) × Nat :=
  (arena.world.2, arena.stats.expanded)

namespace Act

theorem Keeps.ask_told (call : Call ω α) :
    Keeps Arena.told (ask (call.noting ([] : List (Notice S M)))) := by
  intro arena
  simp only [ask, Call.noting]
  cases (call arena.world.1).result <;> simp [arenaAfter, Arena.told]

theorem Keeps.inquire_told {σ : Type} [SeenSet σ S] (p : Problem ω S M) (s : S) (seen : σ) :
    Keeps Arena.told (inquire p.logged s seen) := by
  refine .bind (.ask_told _) fun query => ?_
  split
  · exact .pure _
  · exact .throw _

theorem Keeps.countGenerated_told :
    Keeps (Arena.told (ω := ω) (S := S) (M := M)) Act.countGenerated := by
  intro arena
  unfold Act.countGenerated
  split <;> rfl

theorem Keeps.countDuplicate_told :
    Keeps (Arena.told (ω := ω) (S := S) (M := M)) Act.countDuplicate := by
  intro arena
  unfold Act.countDuplicate
  split <;> rfl

theorem wp_ask_noting {N : Type} {call : Call ω α} {notices : List N} {arena : Arena (ω × List N)}
    {post : α → Arena (ω × List N) → Prop}
    (hok : ∀ value world stopped, (call arena.world.1).result = .ok value →
      post value { arena with world := (world, arena.world.2 ++ notices), stopped }) :
    wp (ask (call.noting notices)) post (fun _ _ => True) arena := by
  unfold wp ask Call.noting
  cases h : (call arena.world.1).result with
  | ok value => simpa [h] using hok value _ _ h
  | error fault => simp [h]

theorem wp_conclude_logged (p : Problem ω S M) (goal : Option (Node S M)) :
    wp (conclude p.logged goal) (fun path after => path = goal.map Node.toPath ∧
      after.told = (arena.world.2 ++ [.finished path (goal.elim p.initial Node.state) arena.stats.expanded],
        arena.stats.expanded)) (fun _ _ => True) arena := by
  unfold conclude
  simp only [wp_bind]
  exact wp_ask_noting fun _ _ _ _ => ⟨rfl, rfl⟩

end Act

/-! ### One expansion after the other -/

/-- All expansions that were counted have been reported, one after the other, but for so many at the end. -/
def Arena.Consecutive (silent : Nat) (arena : Arena (ω × List (Notice S M))) : Prop :=
  ∃ told : List (S × Nat), arena.world.2 = told.map Notice.ofExpansion ∧
    told.map Prod.snd = List.range' 1 told.length ∧ told.length + silent = arena.stats.expanded

theorem Arena.Consecutive.of_told {silent : Nat} (h : arena.Consecutive silent) (hk : after.told = arena.told) :
    after.Consecutive silent := by
  obtain ⟨told, hlog, hnumbers, hcount⟩ := h
  obtain ⟨hworld, hexpanded⟩ := Prod.ext_iff.1 hk
  exact ⟨told, hworld.trans hlog, hnumbers, hcount.trans hexpanded.symm⟩

/-- What a turn knows of the goal that it found. -/
def Arena.Concluded (p : Problem ω S M) (goal : Option (Node S M)) (arena : Arena (ω × List (Notice S M))) : Prop :=
  arena.Consecutive goal.isSome.toNat ∧ ∀ n ∈ goal, p.Hails n.state

/-- An expansion whose moves are tried in a way that neither counts expansions nor reports any. -/
theorem Act.wp_expansion {s : S} {found : γ} {sweep : List M → Act (ω × List (Notice S M)) β} {onward : β → γ}
    {post : γ → Arena (ω × List (Notice S M)) → Prop} (hsweep : ∀ moves, Keeps Arena.told (sweep moves))
    (hfound : ∀ after, after.Consecutive 1 → p.Hails s → post found after)
    (honward : ∀ lists after, after.Consecutive 0 → post (onward lists) after) (h : arena.Consecutive 0) :
    wp (do
      let tries ← countExpanded
      if ← ask (p.logged.isGoal s) then
        return found
      else
        let moves ← ask (p.logged.legalMoves s)
        let lists ← sweep moves
        ask (p.logged.onProgress s tries)
        return onward lists) post (fun _ _ => True) arena := by
  obtain ⟨told, hlog, hnumbers, hcount⟩ := h
  rw [wp_bind]
  refine wp_countExpanded_tally ?_ fun _ => trivial
  rw [wp_bind]
  refine ((Keeps.ask_told _).wp (fun _ _ h => h) fun _ _ _ => trivial).with_eq.mono fun reached middle hmiddle => ?_
  obtain ⟨hasked, hmiddle⟩ := hmiddle
  have hcounted : (arena.tally 1 0 0).Consecutive 1 := ⟨told, hlog, hnumbers, congrArg (· + 1) hcount⟩
  cases reached with
  | true =>
    have hanswer := ask_eq_ok hasked
    exact hfound middle (hcounted.of_told hmiddle) ⟨arena.world.1, hanswer⟩
  | false =>
    simp only [Bool.false_eq_true, if_false, wp_bind]
    refine (Keeps.ask_told _).wp (fun moves middle' hm => ?_) fun _ _ _ => trivial
    refine (hsweep moves).wp (fun lists middle'' hs => ?_) fun _ _ _ => trivial
    obtain ⟨hworld, hexpanded⟩ := Prod.ext_iff.1 (hs.trans (hm.trans hmiddle))
    refine wp_ask_noting fun _ _ _ _ => honward lists _ ⟨told ++ [(s, arena.stats.expanded + 1)], ?_, ?_, ?_⟩
    · rw [List.map_append, ← hlog]
      exact congrArg (· ++ _) hworld
    · rw [List.map_append, hnumbers, List.length_append, List.length_singleton, List.range'_1_concat, ← hcount,
        Nat.add_comm 1]
      rfl
    · rw [List.length_append]
      exact (congrArg (· + 1) hcount).trans hexpanded.symm

/-- A search whose turns are done, and whose goal solves the problem, has told of everything at the end. -/
theorem Act.wp_conclude_concluded {goal : Option (Node S M)} (h : arena.Concluded p goal)
    (hsolves : ∀ rules, p.Respects rules → ∀ n ∈ goal, n.Solves rules) :
    wp (conclude p.logged goal) (fun path after => ∃ told, Reports p told path after.stats.expanded after.world.2 ∧
      InTurn told path after.stats.expanded) (fun _ _ => True) arena := by
  obtain ⟨⟨told, hlog, hnumbers, hcount⟩, hhails⟩ := h
  refine (wp_conclude_logged p goal).mono ?_
  rintro path after ⟨rfl, htold⟩
  obtain ⟨hworld, hexpanded⟩ := Prod.ext_iff.1 htold
  change after.world.2 = _ at hworld
  change after.stats.expanded = _ at hexpanded
  rw [hexpanded]
  refine ⟨told, ⟨_, Problem.endsAt_of_found fun n hn => ⟨hhails n hn, fun rules hp => hsolves rules hp n hn⟩, ?_⟩,
    hnumbers, ?_⟩
  · rw [hworld, hlog]
  · rw [Option.isSome_map]
    exact hcount

variable [DecidableEq S] [Hashable S]

/-! ### Exhaustive search -/

namespace Exhaustive

theorem keeps_explore_told (p : Problem ω S M) (n : Node S M) (moves : List M) (seen : Std.HashSet S)
    (waiting : Deque (Node S M)) : Keeps Arena.told (explore p.logged n moves seen waiting) := by
  induction moves generalizing seen waiting with
  | nil => exact .pure _
  | cons m rest ih =>
    refine .bind (.ask_told _) fun t => .bind .countGenerated_told fun _ => ?_
    refine .bind (.inquire_told _ _ _) fun (known, seen) => ?_
    cases known
    · exact .bind (.ask_told _) fun _ => ih _ _
    · exact .bind .countDuplicate_told fun _ => ih _ _

theorem wp_turn_told {d : Discipline} {seen : Std.HashSet S} {waiting : Deque (Node S M)}
    (h : arena.Consecutive 0) :
    wp (turn d p.logged seen waiting) (fun result after => result.Ends (fun _ _ after => after.Consecutive 0)
      (fun goal after => after.Concluded p goal) after) (fun _ _ => True) arena := by
  have hnone : arena.Concluded p (none : Option (Node S M)) := ⟨h, fun n hn => by cases hn⟩
  refine wp_turn_taken (fun _ => hnone) (fun _ => hnone) fun n rest _ _ => ?_
  refine wp_expansion (fun moves => keeps_explore_told p n moves _ _) (fun after hafter hhails => ?_)
    (fun lists after hafter => hafter) h
  exact ⟨hafter, fun n' hn' => by cases hn'; exact hhails⟩

/-- Exhaustive search reports its expansions in the order in which they are counted. -/
theorem reports_of_solve {d : Discipline} {path : Option (Path M)} (hlog : arena.told = ([], 0))
    (h : solve d p.logged arena = .ok path after) :
    ∃ told, Reports p told path after.stats.expanded after.world.2 ∧
      InTurn told path after.stats.expanded := by
  obtain ⟨⟨known, seen⟩, between, hinquire, h⟩ := of_bind_eq_ok h
  obtain ⟨goal, middle, hrun, h⟩ := of_bind_eq_ok h
  have hbetween : between.Consecutive 0 := by
    have htold := ((Keeps.inquire_told _ _ _).of_eq_ok hinquire).trans hlog
    obtain ⟨hworld, hexpanded⟩ := Prod.ext_iff.1 htold
    exact ⟨[], hworld, rfl, hexpanded.symm⟩
  have hgoal : middle.Concluded p goal := (wp_run (fun _ _ _ h => wp_turn_told h) hbetween).of_eq_ok hrun
  refine (wp_conclude_concluded hgoal fun rules hp => ?_).of_eq_ok h
  refine (wp_run_solves (Problem.respects_logged hp) fun c hc => ?_).of_eq_ok hrun
  rw [Deque.toList_pushBack, Deque.toList_empty, List.nil_append] at hc
  rw [List.mem_singleton.1 hc, (Problem.respects_logged hp).initial]
  exact .root 0

end Exhaustive

/-! ### Best-first search -/

namespace BestFirst

theorem keeps_explore_told (p : Problem ω S M) (n : Node S M) (closed : Std.HashMap S Cost) (moves : List M)
    (waiting : OpenList S M) : Keeps Arena.told (explore p.logged n closed moves waiting) := by
  induction moves generalizing waiting with
  | nil => exact .pure _
  | cons m rest ih =>
    refine .bind (.ask_told _) fun t => .bind .countGenerated_told fun _ => .bind (.ask_told _) fun c => ?_
    split
    · exact .bind .countDuplicate_told fun _ => ih _
    · exact .bind (.ask_told _) fun _ => ih _

theorem wp_turn_told {closed : Std.HashMap S Cost} {waiting : OpenList S M} (h : arena.Consecutive 0) :
    wp (turn p.logged closed waiting) (fun result after => result.Ends (fun _ _ after => after.Consecutive 0)
      (fun goal after => after.Concluded p goal) after) (fun _ _ => True) arena := by
  have hnone : arena.Concluded p (none : Option (Node S M)) := ⟨h, fun n hn => by cases hn⟩
  refine wp_turn_taken (fun _ => hnone) (fun _ => hnone) fun n rest _ _ => ?_
  rw [claim, wp_bind]
  refine (Keeps.inquire_told _ _ _).wp (fun result after hafter => ?_) fun _ _ _ => trivial
  obtain ⟨known, closed⟩ := result
  have hafter := h.of_told hafter
  cases known with
  | true =>
    simp only [if_true, wp_bind]
    exact Keeps.countDuplicate_told.wp (fun _ _ hk => hafter.of_told hk) fun _ _ _ => trivial
  | false =>
    simp only [Bool.false_eq_true, if_false]
    refine wp_expansion (fun moves => keeps_explore_told p n _ moves _) (fun after hafter hhails => ?_)
      (fun lists after hafter => hafter) hafter
    exact ⟨hafter, fun n' hn' => by cases hn'; exact hhails⟩

/-- Best-first search reports its expansions in the order in which they are counted. -/
theorem reports_of_solve {path : Option (Path M)} (hlog : arena.told = ([], 0))
    (h : solve p.logged arena = .ok path after) :
    ∃ told, Reports p told path after.stats.expanded after.world.2 ∧
      InTurn told path after.stats.expanded := by
  obtain ⟨remaining, between, hask, h⟩ := of_bind_eq_ok h
  obtain ⟨goal, middle, hrun, h⟩ := of_bind_eq_ok h
  have hbetween : between.Consecutive 0 := by
    have htold := ((Keeps.ask_told _).of_eq_ok hask).trans hlog
    obtain ⟨hworld, hexpanded⟩ := Prod.ext_iff.1 htold
    exact ⟨[], hworld, rfl, hexpanded.symm⟩
  have hgoal : middle.Concluded p goal := (wp_run (fun _ _ _ h => wp_turn_told h) hbetween).of_eq_ok hrun
  refine (wp_conclude_concluded hgoal fun rules hp => ?_).of_eq_ok h
  refine (wp_run (fun _ _ _ h => wp_turn_genuine (Problem.respects_logged hp) h) ?_).of_eq_ok hrun
  have hempty : Genuine rules (OpenList.empty : OpenList S M) :=
    ⟨.empty, fun n hn => by simp [OpenList.empty, OpenList.toList] at hn⟩
  rw [(Problem.respects_logged hp).initial]
  exact hempty.push (.root remaining)

end BestFirst

end StateSearch
