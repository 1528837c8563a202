import StateSearch.Proofs.Puzzle.BridgeStates

/-!
# Who gets across the bridge

Everybody gets across if the bridge holds two: the first person takes the others over one by one and goes back
for the next one with the torch (`Bridge.reachable_range`). If it holds one, only somebody who is alone gets
across, for whoever brings the torch leaves nobody there (`Bridge.eq_initial_or_card_eq_one`). Main statement:
`Bridge.solvable_iff_crossable`.
-/

namespace StateSearch.Puzzle.Bridge

variable {bridge : Bridge} {state : BridgeState} {far team : Finset Nat}

/-- There is at most one person to take over, or the bridge holds two. -/
def Crossable (bridge : Bridge) : Prop := bridge.speeds.length ≤ 1 ∨ 2 ≤ bridge.capacity

instance : Decidable bridge.Crossable := inferInstanceAs (Decidable (_ ∨ _))

/-! ### There and back -/

theorem stateOf_toFinset (hstate : bridge.Peopled state) :
    bridge.stateOf state.far.toFinset state.torchFar = state := by
  have hfar : state.far.toFinset ⊆ Finset.range bridge.size := bridge.toFinset_everyone ▸ hstate
  exact (BridgeState.mk.injEq ..).mpr ⟨People.toFinset_inj.1 (toFinset_far_stateOf hfar true), rfl⟩

theorem toFinset_atTorch_stateOf (hfar : far ⊆ Finset.range bridge.size) (torchFar : Bool) :
    (bridge.atTorch (bridge.stateOf far torchFar)).toFinset =
      if torchFar then far else Finset.range bridge.size \ far := by
  unfold atTorch
  cases torchFar with
  | true => exact toFinset_far_stateOf hfar true
  | false =>
    show (bridge.everyone &&& ~~~(bridge.stateOf far false).far).toFinset = _
    rw [People.toFinset_and_not, toFinset_everyone, toFinset_far_stateOf hfar]
    rfl

/-- Whoever is where the torch is can cross with it, if the bridge holds them. -/
theorem reachable_cross (hfar : far ⊆ Finset.range bridge.size) {torchFar : Bool}
    (hstate : bridge.problem.Reachable (bridge.stateOf far torchFar))
    (hteam : team ⊆ if torchFar then far else Finset.range bridge.size \ far) (hne : team.Nonempty)
    (hcapacity : team.card ≤ bridge.capacity) :
    bridge.problem.Reachable (bridge.stateOf (if torchFar then far \ team else far ∪ team) !torchFar) := by
  have hexist : team ⊆ Finset.range bridge.size := by
    cases torchFar
    · exact hteam.trans Finset.sdiff_subset
    · exact hteam.trans hfar
  have hgroup : (bridge.stateOf team torchFar).far.toFinset = team := toFinset_far_stateOf hexist _
  have hcross : ⟨(bridge.stateOf team torchFar).far, !torchFar⟩ ∈
      bridge.crossings (bridge.stateOf far torchFar) := by
    refine mem_crossings.2 ⟨rfl, fun hzero => ?_, ?_, ?_⟩
    · rw [← People.toFinset_eq_empty, hgroup] at hzero
      exact hne.ne_empty hzero
    · rwa [hgroup, toFinset_atTorch_stateOf hfar]
    · rwa [hgroup]
  have hnext := hstate.step hcross
  have hsame := stateOf_toFinset (peopled_of_reachable hnext)
  have hmoved : bridge.problem.applyMove (bridge.stateOf far torchFar) ⟨(bridge.stateOf team torchFar).far,
      !torchFar⟩ = bridge.stateOf (if torchFar then far \ team else far ∪ team) !torchFar := by
    rw [← hsame]
    show bridge.stateOf ((bridge.stateOf far torchFar).cross _).far.toFinset
      ((bridge.stateOf far torchFar).cross _).torchFar = _
    rw [cross_eq hcross]
    cases torchFar with
    | true =>
      show bridge.stateOf ((bridge.stateOf far true).far &&& ~~~(bridge.stateOf team true).far).toFinset _ = _
      rw [People.toFinset_and_not, toFinset_far_stateOf hfar, hgroup]
      rfl
    | false =>
      show bridge.stateOf ((bridge.stateOf far false).far ||| (bridge.stateOf team false).far).toFinset _ = _
      rw [People.toFinset_or, toFinset_far_stateOf hfar, hgroup]
      rfl
  rwa [hmoved] at hnext

theorem reachable_start (bridge : Bridge) : bridge.problem.Reachable (bridge.stateOf ∅ false) := by
  have hinitial : bridge.stateOf ∅ false = bridge.problem.initial := by
    have hsame : bridge.stateOf bridge.problem.initial.far.toFinset bridge.problem.initial.torchFar =
        bridge.problem.initial := stateOf_toFinset (peopled_of_reachable ⟨_, _, .stay⟩)
    exact People.toFinset_zero ▸ hsame
  exact hinitial ▸ ⟨_, _, .stay⟩

/-! ### The shuttle -/

/-- The first person alone, or the first people together, if the bridge holds two. -/
theorem reachable_range {k : Nat} (hk : k < bridge.size) (hcapacity : k = 0 ∨ 2 ≤ bridge.capacity) :
    bridge.problem.Reachable (bridge.stateOf (Finset.range (k + 1)) true) := by
  induction k with
  | zero =>
    have hteam : {0} ⊆ Finset.range bridge.size \ ∅ := by simpa using hk
    have hover := reachable_cross (Finset.empty_subset _) bridge.reachable_start hteam ⟨0, by simp⟩
      bridge.capacity_pos
    exact hover
  | succ k ih =>
    have hcapacity : 2 ≤ bridge.capacity := hcapacity.resolve_left (Nat.succ_ne_zero k)
    have hfar : Finset.range (k + 1) ⊆ Finset.range bridge.size := Finset.range_subset_range.2 (by omega)
    -- The first person goes back and takes the next one over.
    have hfirst : {0} ⊆ Finset.range (k + 1) := by simp
    have hback := reachable_cross hfar (ih (by omega) (.inr hcapacity)) hfirst ⟨0, by simp⟩ bridge.capacity_pos
    have hteam : {0, k + 1} ⊆ Finset.range bridge.size \ (Finset.range (k + 1) \ {0}) := by
      intro person hperson
      simp only [Finset.mem_insert, Finset.mem_singleton, Finset.mem_sdiff, Finset.mem_range] at hperson ⊢
      omega
    have hover := reachable_cross (Finset.sdiff_subset.trans hfar) hback hteam ⟨0, by simp⟩
      (Nat.le_trans Finset.card_le_two hcapacity)
    have hall : Finset.range (k + 1) \ {0} ∪ {0, k + 1} = Finset.range (k + 2) := by
      ext person
      simp only [Finset.mem_union, Finset.mem_insert, Finset.mem_singleton, Finset.mem_sdiff, Finset.mem_range]
      omega
    exact hall ▸ hover

theorem isGoal_stateOf (bridge : Bridge) (torchFar : Bool) :
    bridge.problem.isGoal (bridge.stateOf (Finset.range bridge.size) torchFar) = true := by
  show ((bridge.stateOf _ torchFar).far == bridge.everyone) = true
  rw [beq_iff_eq, ← People.toFinset_inj, toFinset_everyone, toFinset_far_stateOf (Finset.Subset.refl _)]

/-- Everybody can get across if the bridge holds two, or if there is nobody else. -/
theorem solvable_iff_crossable (bridge : Bridge) : bridge.problem.Solvable ↔ bridge.Crossable := by
  constructor
  · rintro ⟨state, hstate, hgoal⟩
    by_contra hno
    obtain ⟨hsize, hcapacity⟩ := not_or.1 hno
    have hone : bridge.capacity = 1 := by
      have hpos := bridge.capacity_pos
      omega
    have hfar : state.far.toFinset.card = bridge.size := by
      rw [show state.far = bridge.everyone from beq_iff_eq.1 hgoal, toFinset_everyone, Finset.card_range]
    rcases eq_initial_or_card_eq_one hone hstate with rfl | ⟨-, hcard⟩
    · have hzero : bridge.size = 0 := hfar.symm.trans (congrArg Finset.card People.toFinset_zero)
      exact hsize (Nat.le_trans (Nat.le_of_eq hzero) (Nat.zero_le 1))
    · exact hsize (Nat.le_of_eq (hfar.symm.trans hcard))
  · intro hcrossable
    cases hsize : bridge.size with
    | zero =>
      refine ⟨_, bridge.reachable_start, ?_⟩
      have hgoal := bridge.isGoal_stateOf false
      rwa [hsize] at hgoal
    | succ k =>
      have hk : k = 0 ∨ 2 ≤ bridge.capacity := hcrossable.imp_left fun hlength => by
        have : bridge.size ≤ 1 := hlength
        omega
      refine ⟨_, reachable_range (by omega) hk, ?_⟩
      rw [← hsize]
      exact bridge.isGoal_stateOf true

end StateSearch.Puzzle.Bridge
