import StateSearch.Proofs.Likeness
import StateSearch.Proofs.Stopping

/-!
# Searches that others may cut short

The search shares its world with others, who may change the world and ask for a stop whenever the search makes a
call (`Problem.amid`). If the problem answers as it would without them, then all they can do is end the search
early: where it comes to a result without them, it comes to a result, has counted no more expansions, and no
fault is reported that would not be (`Exhaustive.solve_of_like`, `BestFirst.solve_of_like`).
-/

namespace StateSearch

open Act

variable {ω ω' S M σ α β : Type} {view : ω → ω'}

/-! ### Others -/

/-- The call is answered as it would be without anybody else, but meanwhile others have changed the world, and
perhaps asked for a stop. -/
def Call.amid (others : ω → ω × Bool) (call : Call Unit α) : Call ω α := fun world =>
  ⟨(others world).1, (others world).2, (call ()).result⟩

/-- The same problem, asked in a world in which there are others. -/
def Problem.amid (others : ω → ω × Bool) (p : Problem Unit S M) : Problem ω S M where
  initial := p.initial
  isGoal s := (p.isGoal s).amid others
  legalMoves s := (p.legalMoves s).amid others
  applyMove s m := (p.applyMove s m).amid others
  moveCost s m := (p.moveCost s m).amid others
  alreadySeen s := (p.alreadySeen s).amid others
  heuristic s := (p.heuristic s).amid others
  onProgress s tries := (p.onProgress s tries).amid others
  onFinished path s tries := (p.onFinished path s tries).amid others
  pace := p.pace

theorem Call.like_amid (others : ω → ω × Bool) (call : Call Unit α) :
    (call.amid others).Like (fun _ => ()) false call.hushed := fun _ => rfl

/-- If neither the world nor the flag is looked at, then the others cannot be seen. -/
theorem Problem.like_amid (others : ω → ω × Bool) (p : Problem Unit S M) :
    (p.amid others).Like (fun _ => ()) false p.hushed where
  initial := rfl
  isGoal s := (p.isGoal s).like_amid others
  legalMoves s := (p.legalMoves s).like_amid others
  applyMove s m := (p.applyMove s m).like_amid others
  moveCost s m := (p.moveCost s m).like_amid others
  alreadySeen s := (p.alreadySeen s).like_amid others
  heuristic s := (p.heuristic s).like_amid others
  onProgress s tries := (p.onProgress s tries).like_amid others
  onFinished path s tries := (p.onFinished path s tries).like_amid others
  pace := rfl

/-! ### Counting on -/

/-- No fewer expansions have been counted, and the workers have reported the same faults. -/
structure Arena.Later (arena after : Arena ω) : Prop where
  expanded : arena.stats.expanded ≤ after.stats.expanded
  faults : after.faults = arena.faults

theorem Arena.Later.refl (arena : Arena ω) : arena.Later arena := ⟨Nat.le_refl _, rfl⟩

theorem Arena.Later.trans {arena middle after : Arena ω} (h : arena.Later middle) (h' : middle.Later after) :
    arena.Later after :=
  ⟨Nat.le_trans h.expanded h'.expanded, h'.faults.trans h.faults⟩

namespace Act

/-- Whatever the act comes to, it takes nothing back. -/
def Forward (act : Act ω α) : Prop := ∀ arena : Arena ω, arena.Later (arenaAfter (act arena))

namespace Forward

theorem of_eq_ok {act : Act ω α} (h : act.Forward) {arena after : Arena ω} {value : α}
    (hr : act arena = .ok value after) : arena.Later after := by
  simpa [hr, arenaAfter] using h arena

theorem pure (value : α) : Forward (Pure.pure value : Act ω α) := Arena.Later.refl

theorem throw (fault : Fault) : Forward (MonadExcept.throw fault : Act ω α) := Arena.Later.refl

theorem bind {act : Act ω α} {next : α → Act ω β} (h : act.Forward) (hn : ∀ value, (next value).Forward) :
    (act >>= next).Forward := by
  intro arena
  have ha := h arena
  show arena.Later (arenaAfter (EStateM.bind act next arena))
  unfold EStateM.bind
  split <;> rename_i hr <;> rw [hr] at ha
  · exact ha.trans (hn _ _)
  · exact ha

theorem ask (call : Call ω α) : (Act.ask call).Forward := by
  intro arena
  unfold Act.ask
  dsimp only
  split <;> exact ⟨Nat.le_refl _, rfl⟩

theorem inquire [SeenSet σ S] (p : Problem ω S M) (s : S) (seen : σ) : (Act.inquire p s seen).Forward := by
  refine bind (ask _) fun query => ?_
  split
  · exact pure _
  · exact throw _

theorem isStopped : (Act.isStopped : Act ω Bool).Forward := Arena.Later.refl

theorem countExpanded : (Act.countExpanded : Act ω Nat).Forward := by
  intro arena
  unfold Act.countExpanded
  split
  · rename_i hi
    exact ⟨Nat.le_of_lt (by simp [arenaAfter, (Stats.increment_eq_ok hi).1]), rfl⟩
  · exact .refl _

theorem countGenerated : (Act.countGenerated : Act ω Unit).Forward := by
  intro arena
  unfold Act.countGenerated
  split <;> exact ⟨Nat.le_refl _, rfl⟩

theorem countDuplicate : (Act.countDuplicate : Act ω Unit).Forward := by
  intro arena
  unfold Act.countDuplicate
  split <;> exact ⟨Nat.le_refl _, rfl⟩

end Forward

/-- The last report leaves counters and faults alone, and the search fails there only if the report does. -/
theorem exists_conclude (p : Problem ω S M)
    (hfinished : ∀ path s tries world, (p.onFinished path s tries world).result = .ok ())
    (goal : Option (Node S M)) (arena : Arena ω) :
    ∃ after, conclude p goal arena = .ok (goal.map Node.toPath) after ∧
      after.stats.expanded = arena.stats.expanded ∧ after.faults = arena.faults := by
  have hconclude : wp (conclude p goal) (fun path after => path = goal.map Node.toPath ∧
      after.stats.expanded = arena.stats.expanded ∧ after.faults = arena.faults) (fun _ _ => False) arena := by
    unfold conclude
    simp only [wp_bind]
    refine wp_ask _ (fun _ _ _ _ => ⟨rfl, rfl, rfl⟩) fun fault _ _ h => ?_
    rw [hfinished] at h
    cases h
  unfold wp at hconclude
  cases hr : conclude p goal arena with
  | ok path after =>
    rw [hr] at hconclude
    obtain ⟨rfl, hstats, hfaults⟩ := hconclude
    exact ⟨after, rfl, hstats, hfaults⟩
  | error fault after =>
    rw [hr] at hconclude
    exact hconclude.elim

end Act

variable {p : Problem ω S M} {p' : Problem ω' S M} {arena : Arena ω} {after' : Arena ω'}

/-- What a search comes to that others may cut short, if it would otherwise leave this arena behind. -/
def Act.CutShort (act : Act ω α) (arena : Arena ω) (after' : Arena ω') : Prop :=
  ∃ value after, act arena = .ok value after ∧ after.stats.expanded ≤ after'.stats.expanded ∧
    after.faults = after'.faults

/-- The last report does not spoil the result. -/
theorem Act.CutShort.conclude {act : Act ω (Option (Node S M))} {ran' : Arena ω'} (h : act.CutShort arena ran')
    (hfinished : ∀ path s tries world, (p.onFinished path s tries world).result = .ok ())
    {goal' : Option (Node S M)} {path' : Option (Path M)} (hconclude : conclude p' goal' ran' = .ok path' after') :
    (act >>= Act.conclude p).CutShort arena after' := by
  obtain ⟨goal, ran, hact, hexpanded, hfaults⟩ := h
  obtain ⟨after, hlast, hexpanded', hfaults'⟩ := exists_conclude p hfinished goal ran
  refine ⟨goal.map Node.toPath, after, (bind_eq hact).trans hlast, ?_, ?_⟩
  · exact hexpanded' ▸ (Keeps.conclude_expanded p' goal').of_eq_ok hconclude ▸ hexpanded
  · exact hfaults'.trans (hfaults.trans ((Keeps.conclude_faults p' goal').of_eq_ok hconclude).symm)

/-! ### Searches that take turns -/

namespace TurnTaking

variable {τ : Type} {search : TurnTaking p σ τ} {search' : TurnTaking p' σ τ} {lists : σ} {ran' : Arena ω'}

theorem turn_forward (hhand : ∀ n lists, (search.hand n lists).Forward) (lists : σ) :
    (search.turn lists).Forward := by
  rw [search.turn_eq, takeTurn]
  cases search.take? lists with
  | none => exact .pure _
  | some taken =>
    refine .bind .isStopped fun stopped => ?_
    cases stopped
    · exact hhand _ _
    · exact .pure _

theorem run_forward (hhand : ∀ n lists, (search.hand n lists).Forward) {goal : Option (Node S M)}
    {after : Arena ω} (h : search.run lists arena = .ok goal after) : arena.Later after := by
  have hrun : wp (search.run lists) (fun _ after => arena.Later after) (fun _ _ => True) arena := by
    refine search.wp_run (I := fun _ middle => arena.Later middle) (fun lists middle hmiddle => ?_) (.refl arena)
    refine wp_of_forall_ok fun result after hr => ?_
    have hafter := hmiddle.trans ((turn_forward hhand lists).of_eq_ok hr)
    cases search.next result <;> exact hafter
  exact hrun.of_eq_ok h

theorem faults_of_solve (hstart : search.start.Forward) (hhand : ∀ n lists, (search.hand n lists).Forward)
    {path : Option (Path M)} {final : Arena ω} (h : search.solve arena = .ok path final) :
    final.faults = arena.faults := by
  rw [search.solve_eq] at h
  obtain ⟨_, begun, hbegin, h⟩ := of_bind_eq_ok h
  obtain ⟨goal, ran, hrun, hconclude⟩ := of_bind_eq_ok h
  calc final.faults
    _ = ran.faults := (Keeps.conclude_faults p goal).of_eq_ok hconclude
    _ = begun.faults := (run_forward hhand hrun).faults
    _ = arena.faults := (hstart.of_eq_ok hbegin).faults

/-- As long as nobody has asked for a stop, a turn does the same whether or not the flag is looked at. -/
theorem turn_of_like (h : search.Like view false search') (hopen : arena.stopped = false) (lists : σ) :
    through view false (search.turn lists arena) = search'.turn lists (arena.through view false) := by
  have htake : search'.take? lists = search.take? lists := congrFun h.take? lists
  cases ht : search.take? lists with
  | none =>
    rw [turn_of_none ht, turn_of_none (htake.trans ht), h.exhausted]
    rfl
  | some taken =>
    rw [turn_of_take? ht hopen, turn_of_take? (htake.trans ht) rfl]
    exact h.hand taken.1 taken.2 arena

variable (h : search.Like view false search') (hhand : ∀ n lists, (search'.hand n lists).Forward)
include h hhand

theorem run_of_like {goal' : Option (Node S M)}
    (hrun : search'.run lists (arena.through view false) = .ok goal' ran') :
    (search.run lists).CutShort arena ran' := by
  induction hr : search.room arena using Nat.strongRecOn generalizing lists arena with
  | _ _ ih =>
    cases hstopped : arena.stopped with
    | true =>
      have hlater := run_forward hhand hrun
      exact ⟨none, arena, run_of_stopped hstopped, hlater.expanded, hlater.faults.symm⟩
    | false =>
      have hturn := turn_of_like h hstopped lists
      cases ht : search.turn lists arena with
      | error fault after =>
        rw [ht] at hturn
        cases (run_of_turn_error hturn.symm).symm.trans hrun
      | ok result after =>
        rw [ht] at hturn
        rw [run_of_turn hturn.symm, h.next] at hrun
        unfold CutShort
        rw [run_of_turn ht]
        cases hnext : search.next result with
        | inl goal =>
          rw [hnext] at hrun
          cases hrun
          exact ⟨_, _, rfl, Nat.le_refl _, rfl⟩
        | inr rest =>
          rw [hnext] at hrun
          exact ih _ (hr ▸ search.room_of_turn ht hnext) hrun rfl

/-- A search comes to a result if it does so when nobody else is there. -/
theorem solve_of_like {path' : Option (Path M)}
    (hfinished : ∀ path s tries world, (p.onFinished path s tries world).result = .ok ())
    (hsolve : search'.solve (arena.through view false) = .ok path' after') :
    search.solve.CutShort arena after' := by
  rw [search'.solve_eq] at hsolve
  obtain ⟨lists, asked', hstart', hsolve⟩ := of_bind_eq_ok hsolve
  obtain ⟨goal', ran', hrun', hconclude'⟩ := of_bind_eq_ok hsolve
  obtain ⟨asked, hstart, rfl⟩ := through_eq_ok ((h.start arena).trans hstart')
  obtain ⟨path, after, hrest, hlater⟩ := (run_of_like h hhand hrun').conclude hfinished hconclude'
  rw [search.solve_eq]
  exact ⟨path, after, (bind_eq hstart).trans hrest, hlater⟩

end TurnTaking

variable [DecidableEq S] [Hashable S]

namespace Exhaustive

theorem explore_forward (p : Problem ω S M) (n : Node S M) (moves : List M) (seen : Std.HashSet S)
    (waiting : Deque (Node S M)) : (explore p n moves seen waiting).Forward := by
  induction moves generalizing seen waiting with
  | nil => exact .pure _
  | cons m rest ih =>
    refine .bind (.ask _) fun t => .bind .countGenerated fun _ => .bind (.inquire _ _ _) fun (known, seen) => ?_
    cases known
    · exact .bind (.ask _) fun c => ih _ _
    · exact .bind .countDuplicate fun _ => ih _ _

theorem expand_forward (p : Problem ω S M) (n : Node S M) (lists : Std.HashSet S × Deque (Node S M)) :
    (expand p n lists.1 lists.2).Forward := by
  refine .bind .countExpanded fun tries => .bind (.ask _) fun reached => ?_
  cases reached
  · refine .bind (.ask _) fun moves => .bind (explore_forward _ _ _ _ _) fun lists => ?_
    exact .bind (.ask _) fun _ => .pure _
  · exact .pure _

theorem solve_of_like {d : Discipline} (h : p.Like view false p') {path' : Option (Path M)}
    (hfinished : ∀ path s tries world, (p.onFinished path s tries world).result = .ok ())
    (hsolve : solve d p' (arena.through view false) = .ok path' after') : (solve d p).CutShort arena after' :=
  TurnTaking.solve_of_like (turnTaking_like h d) (expand_forward p') hfinished hsolve

end Exhaustive

namespace BestFirst

theorem explore_forward (p : Problem ω S M) (n : Node S M) (closed : Std.HashMap S Cost) (moves : List M)
    (waiting : OpenList S M) : (explore p n closed moves waiting).Forward := by
  induction moves generalizing waiting with
  | nil => exact .pure _
  | cons m rest ih =>
    refine .bind (.ask _) fun t => .bind .countGenerated fun _ => .bind (.ask _) fun c => ?_
    split
    · exact .bind .countDuplicate fun _ => ih _
    · exact .bind (.ask _) fun _ => ih _

theorem claim_forward (p : Problem ω S M) (n : Node S M) (lists : Std.HashMap S Cost × OpenList S M) :
    (claim p n lists.1 lists.2).Forward := by
  refine .bind (.inquire _ _ _) fun (known, closed) => ?_
  cases known
  · refine .bind .countExpanded fun tries => .bind (.ask _) fun reached => ?_
    cases reached
    · refine .bind (.ask _) fun moves => .bind (explore_forward _ _ _ _ _) fun waiting => ?_
      exact .bind (.ask _) fun _ => .pure _
    · exact .pure _
  · exact .bind .countDuplicate fun _ => .pure _

theorem faults_of_solve {path : Option (Path M)} {final : Arena ω} (h : solve p arena = .ok path final) :
    final.faults = arena.faults :=
  (turnTaking p).faults_of_solve (.bind (.ask _) fun _ => .pure _) (claim_forward p) h

theorem solve_of_like (h : p.Like view false p') {path' : Option (Path M)}
    (hfinished : ∀ path s tries world, (p.onFinished path s tries world).result = .ok ())
    (hsolve : solve p' (arena.through view false) = .ok path' after') : (solve p).CutShort arena after' :=
  TurnTaking.solve_of_like (turnTaking_like h) (claim_forward p') hfinished hsolve

end BestFirst

end StateSearch
