import Mathlib.Algebra.Order.BigOperators.Group.List
import StateSearch.Proofs.Agreement
import StateSearch.Proofs.Tally
import StateSearch.Puzzle.Pouring

/-!
# Pouring never fails

A transfer fails if its target holds more than it can. This never comes up: what can be reached fits into
the containers (`Pouring.Level`), so to a search pouring is a problem of functions (`Pouring.agrees_tame`).

Each pour leaves one of the containers empty or full. So of all that fits little can be reached, and a search
will not have to count far (`Pouring.efforts_states_le`).
-/

namespace StateSearch.Puzzle.Pouring

variable {jugs : Pouring} {contents : Contents}

/-! ### What can be reached -/

/-- The amounts fit into the containers, one of which is empty or full. -/
structure Level (jugs : Pouring) (contents : Contents) : Prop where
  first : contents.1 ≤ jugs.first
  second : contents.2 ≤ jugs.second
  edge : contents.1 = 0 ∨ contents.1 = jugs.first ∨ contents.2 = 0 ∨ contents.2 = jugs.second

/-- A transfer of what is there, or of what there is room for, does not go around zero. -/
theorem toNat_transfer (source : UInt32) {target capacity : UInt32} (hfits : target ≤ capacity) :
    (source - min source (capacity - target)).toNat =
        source.toNat - min source.toNat (capacity.toNat - target.toNat) ∧
      (target + min source (capacity - target)).toNat =
        target.toNat + min source.toNat (capacity.toNat - target.toNat) := by
  have hroom := UInt32.toNat_sub_of_le _ _ hfits
  have hsource := source.toNat_lt
  have hcapacity := capacity.toNat_lt
  rw [UInt32.le_iff_toNat_le] at hfits
  have hmin : (min source (capacity - target)).toNat = min source.toNat (capacity.toNat - target.toNat) := by
    rw [← hroom]
    show (if source ≤ capacity - target then source else capacity - target).toNat = _
    simp only [UInt32.le_iff_toNat_le]
    split <;> omega
  simp only [UInt32.toNat_add, UInt32.toNat_sub, hmin]
  omega

/-- A transfer ends when there is nothing left, or no room. -/
theorem transfer_level (source : UInt32) {target capacity : UInt32} (hfits : target ≤ capacity) :
    source - min source (capacity - target) ≤ source ∧ target + min source (capacity - target) ≤ capacity ∧
      (source - min source (capacity - target) = 0 ∨ target + min source (capacity - target) = capacity) := by
  obtain ⟨hless, hmore⟩ := toNat_transfer source hfits
  simp only [UInt32.le_iff_toNat_le, ← UInt32.toNat_inj, hless, hmore, UInt32.toNat_zero] at hfits ⊢
  omega

theorem Level.pour (h : jugs.Level contents) (move : Pour) :
    ∃ next, jugs.pour contents move = .ok next ∧ jugs.Level next := by
  obtain ⟨hfirst, hsecond, -⟩ := h
  have hzero : ∀ capacity : UInt32, 0 ≤ capacity := fun _ => UInt32.zero_le
  cases move with
  | fillFirst => exact ⟨_, rfl, UInt32.le_refl _, hsecond, .inr (.inl rfl)⟩
  | fillSecond => exact ⟨_, rfl, hfirst, UInt32.le_refl _, .inr (.inr (.inr rfl))⟩
  | emptyFirst => exact ⟨_, rfl, hzero _, hsecond, .inl rfl⟩
  | emptySecond => exact ⟨_, rfl, hfirst, hzero _, .inr (.inr (.inl rfl))⟩
  | firstIntoSecond =>
    obtain ⟨hless, hmore, hedge⟩ := transfer_level contents.1 hsecond
    refine ⟨(_, _), ?_, UInt32.le_trans hless hfirst, hmore, ?_⟩
    · simp only [Pouring.pour, room, if_pos hsecond]
      rfl
    · exact hedge.imp id fun hfull => .inr (.inr hfull)
  | secondIntoFirst =>
    obtain ⟨hless, hmore, hedge⟩ := transfer_level contents.2 hfirst
    refine ⟨(_, _), ?_, hmore, UInt32.le_trans hless hsecond, ?_⟩
    · simp only [Pouring.pour, room, if_pos hfirst]
      rfl
    · exact hedge.symm.elim (fun hfull => .inr (.inl hfull)) fun hnone => .inr (.inr (.inl hnone))

theorem filterM_eq_ok {ε α : Type} {test : α → Except ε Bool} {passes : α → Bool} {l : List α}
    (htest : ∀ a ∈ l, test a = .ok (passes a)) : l.filterM test = .ok (l.filter passes) := by
  have haux : ∀ acc, l.filterAuxM test acc = .ok ((l.filter passes).reverse ++ acc) := by
    induction l with
    | nil => exact fun acc => rfl
    | cons a l ih =>
      obtain ⟨ha, hl⟩ := List.forall_mem_cons.1 htest
      intro acc
      rw [List.filterAuxM, ha]
      refine (ih hl _).trans ?_
      cases hpasses : passes a <;> simp [hpasses]
  unfold List.filterM
  rw [haux, List.append_nil]
  exact congrArg Except.ok (List.reverse_reverse _)

/-- Pouring where nothing can be done if a pour would fail. -/
def tame (jugs : Pouring) : PureProblem Contents Pour where
  initial := (0, 0)
  isGoal := jugs.isGoal
  legalMoves contents := (jugs.pours contents).toOption.getD []
  applyMove contents move := (jugs.pour contents move).toOption.getD contents
  heuristic contents := if jugs.isGoal contents then 0 else 1

theorem Level.pour_eq (h : jugs.Level contents) (move : Pour) :
    jugs.pour contents move = .ok (jugs.tame.applyMove contents move) := by
  obtain ⟨next, hnext, -⟩ := h.pour move
  simp only [tame, hnext]
  rfl

theorem Level.applyMove (h : jugs.Level contents) (move : Pour) :
    jugs.Level (jugs.tame.applyMove contents move) := by
  obtain ⟨next, hnext, hlevel⟩ := h.pour move
  rw [h.pour_eq] at hnext
  cases hnext
  exact hlevel

theorem Level.pours_eq (h : jugs.Level contents) : jugs.pours contents =
    .ok (Pour.all.filter fun move => jugs.tame.applyMove contents move ≠ contents) :=
  filterM_eq_ok fun move _ => by
    rw [h.pour_eq move]
    rfl

theorem Level.legalMoves_eq (h : jugs.Level contents) : jugs.tame.legalMoves contents =
    Pour.all.filter fun move => jugs.tame.applyMove contents move ≠ contents := by
  show (jugs.pours contents).toOption.getD [] = _
  rw [h.pours_eq]
  rfl

theorem level_of_reachable (h : jugs.tame.Reachable contents) : jugs.Level contents := by
  obtain ⟨moves, c, route⟩ := h
  induction route with
  | stay => exact ⟨UInt32.zero_le, UInt32.zero_le, .inl rfl⟩
  | snoc _ step ih =>
    obtain ⟨-, rfl, -⟩ := PureProblem.step_rules_iff.1 step
    exact ih.applyMove _

/-- Where a search can get, no pour fails. -/
theorem agrees_tame {ω : Type} (jugs : Pouring) : (jugs.problem : Problem ω _ _).Agrees jugs.tame where
  initial := rfl
  isGoal _ _ := rfl
  legalMoves contents hcontents := by
    have hlevel := level_of_reachable hcontents
    show Call.ofExcept (jugs.pours contents) = _
    rw [hlevel.pours_eq, hlevel.legalMoves_eq]
    rfl
  applyMove contents hcontents move _ := by
    show Call.ofExcept (jugs.pour contents move) = _
    rw [(level_of_reachable hcontents).pour_eq]
    rfl
  moveCost _ _ _ _ := rfl
  alreadySeen _ _ := rfl
  heuristic _ _ := rfl
  onProgress _ _ _ := rfl
  onFinished _ _ _ := rfl
  pace := rfl

theorem heuristic_le (jugs : Pouring) (contents : Contents) : (jugs.tame.heuristic contents).toNat ≤ 1 := by
  show (if jugs.isGoal contents then (0 : Cost) else 1).toNat ≤ 1
  split <;> decide

theorem consistent_tame (jugs : Pouring) : jugs.tame.Consistent where
  goal _ _ hgoal := if_pos hgoal
  move contents _ _ _ := Nat.le_trans (jugs.heuristic_le contents) (Nat.le_add_right _ _)

/-! ### How much can be reached -/

/-- All there is. -/
def amounts : List UInt32 := (List.range UInt32.size).map UInt32.ofNat

theorem mem_amounts (amount : UInt32) : amount ∈ amounts :=
  List.mem_map.2 ⟨amount.toNat, List.mem_range.2 amount.toNat_lt, UInt32.ofNat_toNat⟩

/-- All amounts that fit, where one container is empty or full. -/
noncomputable def states (jugs : Pouring) : List Contents :=
  open Classical in
  (amounts.flatMap fun amount => [(0, amount), (jugs.first, amount), (amount, 0), (amount, jugs.second)]).filter
    fun contents => jugs.Level contents

theorem mem_states : contents ∈ jugs.states ↔ jugs.Level contents := by
  simp only [states, List.mem_filter, List.mem_flatMap, decide_eq_true_eq, and_iff_right_iff_imp]
  intro h
  obtain ⟨first, second⟩ := contents
  rcases h.edge with rfl | rfl | rfl | rfl
  · exact ⟨second, mem_amounts _, by simp⟩
  · exact ⟨second, mem_amounts _, by simp⟩
  · exact ⟨first, mem_amounts _, by simp⟩
  · exact ⟨first, mem_amounts _, by simp⟩

theorem length_states_le (jugs : Pouring) : jugs.states.length ≤ 2 ^ 34 := by
  refine Nat.le_trans (List.length_filter_le _ _) ?_
  have hamounts : amounts.length = 2 ^ 32 := by rw [amounts, List.length_map, List.length_range]; rfl
  rw [List.length_flatMap]
  refine Nat.le_trans (List.sum_le_card_nsmul _ 4 fun length hlength => ?_) ?_
  · obtain ⟨amount, -, rfl⟩ := List.mem_map.1 hlength
    exact Nat.le_refl 4
  · rw [List.length_map, hamounts]
    decide

theorem Level.effort_le (h : jugs.Level contents) : jugs.tame.rules.effort contents ≤ 57 := by
  have hlength : (jugs.tame.legalMoves contents).length ≤ 6 := by
    rw [h.legalMoves_eq]
    exact List.length_filter_le _ Pour.all
  show 8 * (jugs.tame.legalMoves contents).length + 9 ≤ 57
  omega

theorem efforts_states_le (jugs : Pouring) : jugs.tame.rules.efforts jugs.states ≤ 2 ^ 34 * 57 := by
  refine Nat.le_trans (List.sum_le_card_nsmul _ 57 fun effort heffort => ?_) ?_
  · obtain ⟨contents, hcontents, rfl⟩ := List.mem_map.1 heffort
    exact (mem_states.1 hcontents).effort_le
  · rw [List.length_map]
    exact Nat.mul_le_mul_right _ jugs.length_states_le

theorem confines_states (jugs : Pouring) : jugs.tame.rules.Confines id jugs.states where
  closed contents hcontents move next _ hnext := by
    cases hnext
    exact mem_states.2 ((mem_states.1 hcontents).applyMove move)
  rep_mem _ hcontents := hcontents
  choices _ _ := Nat.le_refl _

theorem initial_mem_states (jugs : Pouring) : jugs.tame.initial ∈ jugs.states :=
  mem_states.2 (level_of_reachable ⟨_, _, .stay⟩)

/-- No amounts are expanded twice. -/
theorem nodup_course {ω : Type} {o : Observer ω Contents Pour} {arena after : Arena ω}
    {ns : List (Node Contents Pour)} {goal : Option (Node Contents Pour)}
    (h : BestFirst.Course jugs.tame o ∅ (BestFirst.seedling jugs.tame) arena ns goal after) :
    (ns.map fun n => id n.state).Nodup := by
  have I := BestFirst.Inv.start jugs.tame
  have hfair := h.fair I.sound I.fair
  have hmost : ∀ contents move, (jugs.tame.moveCost contents move).toNat ≤ 1 := fun _ _ => Nat.le_refl 1
  have hzero : ∀ n ∈ (BestFirst.seedling jugs.tame).toList, n.pathCost = 0 := by
    intro n hn
    rw [BestFirst.toList_seedling, List.mem_singleton] at hn
    subst hn
    rfl
  have hstates : ∀ n ∈ ns, id n.state ∈ jugs.states := fun n hn =>
    mem_states.2 (level_of_reachable (hfair n hn).reachable)
  have hbudget : jugs.states.length * 1 + 1 < Cost.largest.toNat := by
    have hlength := jugs.length_states_le
    have hlargest : Cost.largest.toNat = 2 ^ 64 - 1 := rfl
    omega
  exact h.nodup_of_budget (jugs.tame.folds_id rfl) jugs.consistent_tame.steady hmost jugs.heuristic_le I.sound
    I.fair hzero hstates hbudget

end StateSearch.Puzzle.Pouring
