import Mathlib.Algebra.BigOperators.Ring.Finset
import StateSearch.Proofs.Puzzle.Bridge
import StateSearch.Proofs.Tally

/-!
# How many states a bridge has

People who exist and a torch: these are all states there are (`Bridge.states`). In a state, any group of those
at the torch may be chosen, so all in all there are at most twice `3 ^ 31` crossings to look at
(`Bridge.efforts_states_le`). How many there are in a state only depends on how many people are at the torch,
and so folding does not change it (`Bridge.choices_canonical`).

On a bridge that holds one person at a time whoever crosses has to come back. Then nothing but the start, and
what can be reached from it in one crossing, is ever expanded (`Bridge.nodup_of_single_file`).
-/

namespace StateSearch.Puzzle

/-! ### How many groups there are -/

namespace People

variable {l l' : List Nat} {capacity : Nat}

theorem length_choose_le (capacity : Nat) (l : List Nat) : (choose capacity l).length ≤ 2 ^ l.length := by
  induction l generalizing capacity with
  | nil => exact Nat.le_refl 1
  | cons person l ih =>
    cases capacity with
    | zero => exact Nat.one_le_two_pow
    | succ capacity =>
      have hwith := ih capacity
      have hwithout := ih (capacity + 1)
      simp only [choose, List.length_append, List.length_map, List.length_cons, Nat.pow_succ]
      omega

theorem length_groups_le (capacity : Nat) (people : People) :
    (groups capacity people).length ≤ 2 ^ people.toFinset.card := by
  calc (groups capacity people).length
    _ ≤ (choose capacity people.members.reverse).length := by
      rw [groups_eq]
      exact List.length_filter_le _ _
    _ ≤ 2 ^ people.members.reverse.length := length_choose_le _ _
    _ = 2 ^ people.toFinset.card := by rw [List.length_reverse, ← count_eq_card, count]

theorem single_or_ne_zero {person : Nat} (hlt : person < 32) (g : People) : single person ||| g ≠ 0 := by
  intro hzero
  have := congrArg (has · person) hzero
  simp [has_single hlt] at this

theorem length_choose_congr (capacity : Nat) (hlength : l.length = l'.length) :
    (choose capacity l).length = (choose capacity l').length := by
  induction l generalizing l' capacity with
  | nil =>
    obtain rfl := List.length_eq_zero_iff.1 hlength.symm
    rfl
  | cons person l ih =>
    cases l' with
    | nil => cases hlength
    | cons person' l' =>
      cases capacity with
      | zero => rfl
      | succ capacity =>
        have hlength := Nat.succ.inj hlength
        simp only [choose, List.length_append, List.length_map, ih capacity hlength,
          ih (capacity + 1) hlength]

theorem length_filter_choose_congr (capacity : Nat) (hl : ∀ i ∈ l, i < 32) (hl' : ∀ i ∈ l', i < 32)
    (hlength : l.length = l'.length) : ((choose capacity l).filter (· ≠ 0)).length =
      ((choose capacity l').filter (· ≠ 0)).length := by
  -- All groups that somebody has joined are left.
  have hjoined : ∀ (person : Nat) (groups : List People), person < 32 →
      (groups.map (single person ||| ·)).filter (· ≠ 0) = groups.map (single person ||| ·) := by
    intro person groups hlt
    refine List.filter_eq_self.2 fun g hg => ?_
    obtain ⟨h, -, rfl⟩ := List.mem_map.1 hg
    exact decide_eq_true (single_or_ne_zero hlt h)
  induction l generalizing l' capacity with
  | nil =>
    obtain rfl := List.length_eq_zero_iff.1 hlength.symm
    rfl
  | cons person l ih =>
    cases l' with
    | nil => cases hlength
    | cons person' l' =>
      obtain ⟨hperson, hl⟩ := List.forall_mem_cons.1 hl
      obtain ⟨hperson', hl'⟩ := List.forall_mem_cons.1 hl'
      have hlength := Nat.succ.inj hlength
      cases capacity with
      | zero => rfl
      | succ capacity =>
        simp only [choose, List.filter_append, List.length_append, hjoined _ _ hperson, hjoined _ _ hperson',
          List.length_map, length_choose_congr capacity hlength, ih (capacity + 1) hl hl' hlength]

/-- How many groups there are only depends on how many people there are to choose from. -/
theorem length_groups_congr {people people' : People} (capacity : Nat)
    (hcard : people.toFinset.card = people'.toFinset.card) :
    (groups capacity people).length = (groups capacity people').length := by
  have hlt : ∀ people : People, ∀ i ∈ people.members.reverse, i < 32 := fun people i hi =>
    List.mem_range.1 (List.mem_filter.1 (List.mem_reverse.1 hi)).1
  rw [groups_eq, groups_eq]
  refine length_filter_choose_congr capacity (hlt _) (hlt _) ?_
  rw [List.length_reverse, List.length_reverse]
  rwa [← count_eq_card, ← count_eq_card] at hcard

end People

namespace Bridge

variable {bridge : Bridge} {state : BridgeState} {crossing : Crossing}

/-! ### All states -/

/-- The state in which these people are on the far side. -/
def stateOf (bridge : Bridge) (far : Finset Nat) (torchFar : Bool) : BridgeState :=
  ⟨.such bridge.size (decide <| · ∈ far), torchFar⟩

/-- Everybody who exists may be on either side, and so may the torch. -/
noncomputable def states (bridge : Bridge) : List BridgeState :=
  ((Finset.range bridge.size).powerset ×ˢ Finset.univ).toList.map fun far => bridge.stateOf far.1 far.2

theorem toFinset_far_stateOf {far : Finset Nat} (hfar : far ⊆ Finset.range bridge.size) (torchFar : Bool) :
    (bridge.stateOf far torchFar).far.toFinset = far := by
  unfold stateOf
  rw [People.toFinset_such bridge.size_le]
  ext person
  simp only [Finset.mem_filter, decide_eq_true_eq]
  exact ⟨And.right, fun h => ⟨hfar h, h⟩⟩

theorem mem_states : state ∈ bridge.states ↔ bridge.Peopled state := by
  unfold Peopled
  rw [toFinset_everyone]
  simp only [states, List.mem_map, Finset.mem_toList, Finset.mem_product, Finset.mem_powerset,
    Finset.mem_univ, and_true, Prod.exists]
  constructor
  · rintro ⟨far, torchFar, hfar, rfl⟩
    rw [toFinset_far_stateOf hfar]
    exact hfar
  · intro hfar
    refine ⟨_, state.torchFar, hfar, ?_⟩
    have hsame : (bridge.stateOf state.far.toFinset state.torchFar).far = state.far :=
      People.toFinset_inj.1 (toFinset_far_stateOf hfar _)
    exact (BridgeState.mk.injEq ..).mpr ⟨hsame, rfl⟩

theorem effort_le (bridge : Bridge) (state : BridgeState) :
    bridge.problem.rules.effort state ≤ 8 * 2 ^ (bridge.atTorch state).toFinset.card + 9 := by
  have hgroups := People.length_groups_le bridge.capacity (bridge.atTorch state)
  show 8 * (bridge.crossings state).length + 9 ≤ _
  rw [crossings, List.length_map]
  omega

theorem effort_stateOf_le {far : Finset Nat} (hfar : far ⊆ Finset.range bridge.size) :
    bridge.problem.rules.effort (bridge.stateOf far true) + bridge.problem.rules.effort (bridge.stateOf far false) ≤
      8 * 2 ^ far.card + 8 * 2 ^ (bridge.size - far.card) + 18 := by
  have htrue := bridge.effort_le (bridge.stateOf far true)
  have hfalse := bridge.effort_le (bridge.stateOf far false)
  have hthere : (bridge.atTorch (bridge.stateOf far true)).toFinset = far := toFinset_far_stateOf hfar true
  have hhere : (bridge.atTorch (bridge.stateOf far false)).toFinset = Finset.range bridge.size \ far := by
    show (bridge.everyone &&& ~~~(bridge.stateOf far false).far).toFinset = _
    rw [People.toFinset_and_not, toFinset_everyone, toFinset_far_stateOf hfar]
  rw [hthere] at htrue
  rw [hhere, Finset.card_sdiff_of_subset hfar, Finset.card_range] at hfalse
  omega

/-- Each person is on the far side, or on this side and may cross, or on this side and may not. -/
theorem efforts_states_le (bridge : Bridge) : bridge.problem.rules.efforts bridge.states < 2 ^ 54 := by
  have hpow : (3 : Nat) ^ bridge.size ≤ 3 ^ 31 := Nat.pow_le_pow_right (by decide) bridge.speeds_length
  have hpow' : (2 : Nat) ^ bridge.size ≤ 2 ^ 31 := Nat.pow_le_pow_right (by decide) bridge.speeds_length
  calc bridge.problem.rules.efforts bridge.states
    _ = ∑ far ∈ (Finset.range bridge.size).powerset, (bridge.problem.rules.effort (bridge.stateOf far true) +
          bridge.problem.rules.effort (bridge.stateOf far false)) := by
      rw [Rules.efforts, states, List.map_map, Finset.sum_map_toList, Finset.sum_product]
      exact Finset.sum_congr rfl fun far _ => Fintype.sum_bool _
    _ ≤ ∑ far ∈ (Finset.range bridge.size).powerset,
          (8 * 2 ^ far.card + 8 * 2 ^ (bridge.size - far.card) + 18) :=
      Finset.sum_le_sum fun far hfar => effort_stateOf_le (Finset.mem_powerset.1 hfar)
    _ = 8 * 3 ^ bridge.size + 8 * 3 ^ bridge.size + 18 * 2 ^ bridge.size := by
      have htrue := Finset.sum_pow_mul_eq_add_pow 2 1 (Finset.range bridge.size)
      have hfalse := Finset.sum_pow_mul_eq_add_pow 1 2 (Finset.range bridge.size)
      simp only [one_pow, mul_one, one_mul, Finset.card_range] at htrue hfalse
      rw [Finset.sum_add_distrib, Finset.sum_add_distrib, ← Finset.mul_sum, ← Finset.mul_sum, htrue, hfalse,
        Finset.sum_const_nat fun _ _ => rfl, Finset.card_powerset, Finset.card_range, Nat.mul_comm 18]
    _ < 2 ^ 54 := by omega

theorem peopled_canonical (bridge : Bridge) (state : BridgeState) : bridge.Peopled (bridge.canonical state) := by
  intro person hperson
  obtain ⟨speed, hfirst⟩ := has_far_canonical.1 (People.mem_toFinset.1 hperson)
  have hspeed := mem_peers.1 (List.mem_of_mem_take hfirst)
  rw [toFinset_everyone, Finset.mem_range]
  exact (List.getElem?_eq_some_iff.1 hspeed).1

/-- In the state that stands for it there are as many crossings as in a state itself. -/
theorem choices_canonical (hstate : bridge.Peopled state) :
    bridge.problem.rules.choices state = bridge.problem.rules.choices (bridge.canonical state) := by
  have hcanonical := bridge.peopled_canonical state
  have halike := (bridge.alike_canonical state).atTorch hcanonical hstate rfl
  show (bridge.crossings state).length = (bridge.crossings (bridge.canonical state)).length
  rw [crossings, crossings, List.length_map, List.length_map]
  exact People.length_groups_congr _
    (halike.card_eq (atTorch_subset hcanonical) (atTorch_subset hstate)).symm

theorem confines_states (bridge : Bridge) : bridge.problem.rules.Confines bridge.recorded bridge.states where
  closed state hstate crossing next hcross hnext := by
    cases hnext
    exact mem_states.2 ((mem_states.1 hstate).cross (PureProblem.mem_of_isLegal hcross))
  rep_mem state hstate := by
    unfold recorded
    split
    · exact mem_states.2 (bridge.peopled_canonical state)
    · exact hstate
  choices state hstate := by
    unfold recorded
    split
    · exact Nat.le_of_eq (choices_canonical (mem_states.1 hstate))
    · exact Nat.le_refl _

theorem initial_mem_states (bridge : Bridge) : bridge.problem.initial ∈ bridge.states :=
  mem_states.2 (peopled_of_reachable ⟨_, _, .stay⟩)

/-! ### One person at a time -/

/-- If one person is across, nobody is left there once somebody has come back. -/
theorem cross_eq_initial (hacross : state.torchFar = true ∧ state.far.toFinset.card = 1)
    (hcross : crossing ∈ bridge.crossings state) : state.cross crossing = bridge.problem.initial := by
  obtain ⟨htorch, hfar⟩ := hacross
  obtain ⟨-, hne, hgroup, -⟩ := mem_crossings.1 hcross
  have hpos := Finset.card_pos.2 (Finset.nonempty_iff_ne_empty.2 (mt People.toFinset_eq_empty.1 hne))
  rw [atTorch, htorch, if_pos rfl] at hgroup
  have hsame := Finset.eq_of_subset_of_card_le hgroup (by omega)
  have hback : state.far &&& ~~~crossing.group = 0 := by
    rw [← People.toFinset_eq_empty, People.toFinset_and_not, hsame, Finset.sdiff_self]
  rw [cross_eq hcross, htorch, if_pos rfl, hback]
  rfl

/-- On a bridge for one, everybody is at the start with the torch, or one person is across with it. -/
theorem eq_initial_or_card_eq_one (hone : bridge.capacity = 1) (hstate : bridge.problem.Reachable state) :
    state = bridge.problem.initial ∨ state.torchFar = true ∧ state.far.toFinset.card = 1 := by
  obtain ⟨crossings, c, route⟩ := hstate
  induction route with
  | stay => exact .inl rfl
  | @snoc crossings state next crossing c d route step ih =>
    obtain ⟨hcross, rfl, -⟩ := PureProblem.step_rules_iff.1 step
    obtain ⟨-, hne, hgroup, hcard⟩ := mem_crossings.1 hcross
    have hpos := Finset.card_pos.2 (Finset.nonempty_iff_ne_empty.2 (mt People.toFinset_eq_empty.1 hne))
    show state.cross crossing = _ ∨ (state.cross crossing).torchFar = true ∧ _
    rcases ih with rfl | hacross
    · refine .inr ⟨(congrArg BridgeState.torchFar (cross_eq hcross)), ?_⟩
      have hfar : (bridge.problem.initial.cross crossing).far = crossing.group := by
        rw [cross_eq hcross]
        exact BitVec.zero_or
      show (bridge.problem.initial.cross crossing).far.toFinset.card = 1
      rw [hfar]
      omega
    · exact .inl (cross_eq_initial hacross hcross)

/-- Between two turns on a bridge for one: whoever is across went there at once, and nobody has set off for the
second time from the start. -/
structure SingleFile (bridge : Bridge) (closed : Std.HashMap BridgeState Cost)
    (waiting : OpenList BridgeState Crossing) : Prop where
  sound : waiting.Sound
  fair : ∀ n ∈ waiting.toList, n.Fair bridge.problem
  across : ∀ n ∈ waiting.toList, n.state ≠ bridge.problem.initial → n.pathCost = bridge.slowest n.state.far
  start : ClosedAt.holds closed (bridge.recorded bridge.problem.initial) 0 = true ∨
    ∀ n ∈ waiting.toList, n.state = bridge.problem.initial ∧ n.pathCost = 0

open BestFirst

variable {ω : Type} {o : Observer ω BridgeState Crossing} {closed : Std.HashMap BridgeState Cost}
  {waiting rest : OpenList BridgeState Crossing} {arena after : Arena ω} {n : Node BridgeState Crossing}
  {ns : List (Node BridgeState Crossing)} {goal : Option (Node BridgeState Crossing)}

namespace SingleFile

theorem seedling (bridge : Bridge) : bridge.SingleFile ∅ (BestFirst.seedling bridge.problem) := by
  have I := Inv.start bridge.problem
  refine ⟨I.sound, I.fair, fun n hn hne => ?_, .inr fun n hn => ?_⟩
  all_goals rw [toList_seedling, List.mem_singleton] at hn; subst hn
  · exact absurd rfl hne
  · exact ⟨rfl, rfl⟩

theorem drop (h : bridge.SingleFile closed waiting) (htaken : waiting.pop? = some (n, rest)) :
    bridge.SingleFile closed rest := by
  have hmem : ∀ c ∈ rest.toList, c ∈ waiting.toList := fun c hc => OpenList.mem_of_mem_pop? htaken hc
  exact ⟨h.sound.of_pop? htaken, fun c hc => h.fair c (hmem c hc), fun c hc => h.across c (hmem c hc),
    h.start.imp_right fun hstart c hc => hstart c (hmem c hc)⟩

/-- Who is expanded has paid for one crossing, or for none. -/
theorem pathCost_eq_of_new (h : bridge.SingleFile closed waiting) (htaken : waiting.pop? = some (n, rest))
    (hnew : ClosedAt.holds closed (bridge.recorded n.state) n.pathCost = false) :
    n.pathCost = bridge.slowest n.state.far := by
  have hn := OpenList.mem_of_pop? htaken
  by_cases hfirst : n.state = bridge.problem.initial
  · rcases h.start with hclosed | hstart
    · rw [hfirst, ClosedAt.holds_mono hclosed UInt64.zero_le] at hnew
      cases hnew
    · rw [(hstart n hn).2, hfirst]
      exact slowest_zero.symm
  · exact h.across n hn hfirst

theorem expand (hone : bridge.capacity = 1) (h : bridge.SingleFile closed waiting)
    (htaken : waiting.pop? = some (n, rest))
    (hnew : ClosedAt.holds closed (bridge.recorded n.state) n.pathCost = false) :
    bridge.SingleFile (closed.insert (bridge.recorded n.state) n.pathCost)
      ((successors bridge.problem n (closed.insert (bridge.recorded n.state) n.pathCost)
        (bridge.problem.legalMoves n.state)).foldl OpenList.push rest) := by
  have hn := OpenList.mem_of_pop? htaken
  have hcost := h.pathCost_eq_of_new htaken hnew
  refine ⟨(h.sound.of_pop? htaken).pushAll _, fair_pushAll h.sound htaken List.filter_sublist.subset h.fair,
    fun c hc hne => ?_, .inl ?_⟩
  · rcases mem_pushAll h.sound htaken List.filter_sublist.subset hc with ⟨crossing, hcross, rfl⟩ | hc
    · -- Only from the start does a crossing not lead to the start.
      rcases eq_initial_or_card_eq_one hone (h.fair n hn).reachable with hfirst | hacross
      · have hzero : n.pathCost = 0 := by
          rw [hcost, hfirst]
          exact slowest_zero
        have hfar : (n.state.cross crossing).far = crossing.group := by
          rw [cross_eq hcross, hfirst]
          exact BitVec.zero_or
        show Cost.plus n.pathCost (bridge.slowest crossing.group) = bridge.slowest (n.state.cross crossing).far
        rw [hzero, hfar, Cost.zero_plus]
      · exact absurd (cross_eq_initial hacross hcross) hne
    · exact h.across c hc hne
  · by_cases hfirst : n.state = bridge.problem.initial
    · have hzero : n.pathCost = 0 := by
        rw [hcost, hfirst]
        exact slowest_zero
      rw [hfirst, hzero]
      exact ClosedAt.holds_insert_self
    · rcases h.start with hclosed | hstart
      · exact ClosedAt.holds_insert hnew hclosed
      · exact absurd (hstart n hn).1 hfirst

theorem pathCost_eq (hone : bridge.capacity = 1)
    (h : Course bridge.problem o closed waiting arena ns goal after) (hsingle : bridge.SingleFile closed waiting) :
    ∀ n ∈ ns, n.pathCost = bridge.slowest n.state.far := by
  have hrecord := (folds_problem bridge).record
  induction h with
  | exhausted => simp
  | found htaken hnew =>
    rw [hrecord] at hnew
    simpa using hsingle.pathCost_eq_of_new htaken (eq_of_new hnew).1
  | dropped htaken hknown _ ih =>
    rw [hrecord] at hknown
    exact ih ((eq_of_known hknown).2 ▸ hsingle.drop htaken)
  | expanded htaken hnew _ _ ih =>
    rw [hrecord] at hnew
    obtain ⟨hholds, hview⟩ := eq_of_new hnew
    exact List.forall_mem_cons.2 ⟨hsingle.pathCost_eq_of_new htaken hholds,
      ih (hview ▸ hsingle.expand hone htaken hholds)⟩

end SingleFile

/-- Of states that are folded into one, the slowest on the far side are equally slow. -/
theorem slowest_far_eq_of_recorded_eq {s t : BridgeState} (heq : bridge.recorded s = bridge.recorded t) :
    bridge.slowest s.far = bridge.slowest t.far := by
  unfold recorded at heq
  split at heq
  · exact (canonical_eq_iff.1 heq).2.slowest_eq
  · rw [heq]

/-- On a bridge for one, no state is expanded twice. -/
theorem nodup_of_single_file (hone : bridge.capacity = 1)
    (h : Course bridge.problem o ∅ (seedling bridge.problem) arena ns goal after) :
    (ns.map fun n => bridge.recorded n.state).Nodup := by
  have hcost := SingleFile.pathCost_eq hone h (.seedling bridge)
  refine List.pairwise_map.2 ((h.cheaper (folds_problem bridge).record).imp_of_mem ?_)
  intro m n hm hn hcheaper heq
  have hlt := hcheaper heq.symm
  rw [hcost m hm, hcost n hn, slowest_far_eq_of_recorded_eq heq] at hlt
  exact UInt64.lt_irrefl _ hlt

end Bridge

end StateSearch.Puzzle
