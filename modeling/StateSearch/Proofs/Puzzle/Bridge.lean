import Mathlib.Algebra.BigOperators.Group.Finset.Basic
import Mathlib.Data.Fintype.EquivFin
import Mathlib.Data.Fintype.Prod
import StateSearch.Proofs.Pool.FoldedAStar
import StateSearch.Proofs.Puzzle.People
import StateSearch.Puzzle.Bridge

/-!
# Crossing the bridge, folded or not

Two groups are alike if of each speed they have equally many people (`Bridge.Alike`). The loops that make the
representative of a state settle one speed after the other, whenever they meet somebody of a new speed
(`Bridge.Settled`). So the representative decides just this: two states are folded into one if the torch is on
the same side and those on the far side are alike (`Bridge.canonical_eq_iff`). In such states the same can be
done, by other people of the same speeds (`Alike.exists_group`), so they are alike in all that a search asks
(`Bridge.folds_problem`).
-/

namespace StateSearch

theorem Cost.max_le_iff {a b c : Cost} : max a b ≤ c ↔ a ≤ c ∧ b ≤ c := by
  show (if a ≤ b then b else a) ≤ c ↔ _
  simp only [UInt64.le_iff_toNat_le]
  split <;> omega

namespace Puzzle.Bridge

variable {bridge : Bridge} {state : BridgeState} {crossing : Crossing} {g h : People} {person : Nat}
  {speed c : Cost}

/-! ### The slowest of a group -/

theorem slowestFrom_le_iff {speeds : List Cost} {first : Nat} : slowestFrom g first speeds ≤ c ↔
    ∀ i speed, speeds[i]? = some speed → g.has (first + i) = true → speed ≤ c := by
  induction speeds generalizing first with
  | nil =>
    have hzero : slowestFrom g first [] ≤ c := UInt64.zero_le
    simp [hzero]
  | cons speed speeds ih =>
    rw [← Nat.and_forall_add_one]
    have hothers : slowestFrom g (first + 1) speeds ≤ c ↔ ∀ i other,
        (speed :: speeds)[i + 1]? = some other → g.has (first + (i + 1)) = true → other ≤ c := by
      simp only [ih, List.getElem?_cons_succ, Nat.add_assoc, Nat.add_comm 1]
    rw [← hothers]
    simp only [slowestFrom, List.getElem?_cons_zero, Option.some.injEq, forall_eq', Nat.add_zero]
    cases hg : g.has first with
    | true => simp [Cost.max_le_iff]
    | false => simp

theorem slowest_le_iff : bridge.slowest g ≤ c ↔
    ∀ i speed, bridge.speeds[i]? = some speed → g.has i = true → speed ≤ c := by
  simp only [slowest, slowestFrom_le_iff, Nat.zero_add]

theorem le_slowest (hspeed : bridge.speeds[person]? = some speed) (hg : g.has person = true) :
    speed ≤ bridge.slowest g :=
  slowest_le_iff.1 (UInt64.le_refl _) _ _ hspeed hg

@[simp] theorem slowest_zero : bridge.slowest 0#32 = 0 := by
  have hle : bridge.slowest 0#32 ≤ 0 := slowest_le_iff.2 fun i speed _ hg => by simp at hg
  exact UInt64.le_antisymm hle UInt64.zero_le

/-! ### Groups of equal speeds -/

variable {g' h' everybody : People} {states : List BridgeState} {s t : BridgeState}

theorem size_le (bridge : Bridge) : bridge.size ≤ 32 :=
  Nat.le_trans bridge.speeds_length (by decide)

theorem toFinset_everyone (bridge : Bridge) : bridge.everyone.toFinset = Finset.range bridge.size := by
  unfold everyone
  rw [People.toFinset_such bridge.size_le]
  simp

/-- Those of the group who take this time. -/
def ofSpeed (bridge : Bridge) (speed : Cost) (g : People) : Finset Nat :=
  g.toFinset.filter (bridge.speeds[·]? = some speed)

/-- The groups have equally many people of each speed. -/
def Alike (bridge : Bridge) (g h : People) : Prop :=
  ∀ speed, (bridge.ofSpeed speed g).card = (bridge.ofSpeed speed h).card

theorem mem_ofSpeed : person ∈ bridge.ofSpeed speed g ↔
    g.has person = true ∧ bridge.speeds[person]? = some speed := by
  simp [ofSpeed]

theorem ofSpeed_subset (hsub : g.toFinset ⊆ h.toFinset) : bridge.ofSpeed speed g ⊆ bridge.ofSpeed speed h :=
  Finset.filter_subset_filter _ hsub

theorem card_ofSpeed_or (hdisj : Disjoint g.toFinset h.toFinset) :
    (bridge.ofSpeed speed (g ||| h)).card =
      (bridge.ofSpeed speed g).card + (bridge.ofSpeed speed h).card := by
  unfold ofSpeed
  rw [People.toFinset_or, Finset.filter_union, Finset.card_union_of_disjoint]
  exact Finset.disjoint_filter_filter hdisj

theorem card_ofSpeed_and_not (hsub : h.toFinset ⊆ g.toFinset) :
    (bridge.ofSpeed speed (g &&& ~~~h)).card =
      (bridge.ofSpeed speed g).card - (bridge.ofSpeed speed h).card := by
  have hdiff : bridge.ofSpeed speed (g &&& ~~~h) = bridge.ofSpeed speed g \ bridge.ofSpeed speed h := by
    unfold ofSpeed
    rw [People.toFinset_and_not]
    ext person
    simp only [Finset.mem_filter, Finset.mem_sdiff]
    tauto
  rw [hdiff, Finset.card_sdiff_of_subset (ofSpeed_subset hsub)]

namespace Alike

theorem or (hg : bridge.Alike g g') (hh : bridge.Alike h h') (hdisj : Disjoint g.toFinset h.toFinset)
    (hdisj' : Disjoint g'.toFinset h'.toFinset) : bridge.Alike (g ||| h) (g' ||| h') := fun speed => by
  rw [card_ofSpeed_or hdisj, card_ofSpeed_or hdisj', hg, hh]

theorem and_not (hg : bridge.Alike g g') (hh : bridge.Alike h h') (hsub : h.toFinset ⊆ g.toFinset)
    (hsub' : h'.toFinset ⊆ g'.toFinset) : bridge.Alike (g &&& ~~~h) (g' &&& ~~~h') := fun speed => by
  rw [card_ofSpeed_and_not hsub, card_ofSpeed_and_not hsub', hg, hh]

theorem slowest_le (hgh : bridge.Alike g h) : bridge.slowest g ≤ bridge.slowest h := by
  refine slowest_le_iff.2 fun i speed hspeed hg => ?_
  have hpos : 0 < (bridge.ofSpeed speed h).card := by
    rw [← hgh speed]
    exact Finset.card_pos.2 ⟨i, mem_ofSpeed.2 ⟨hg, hspeed⟩⟩
  obtain ⟨j, hj⟩ := Finset.card_pos.1 hpos
  obtain ⟨hh, hspeed⟩ := mem_ofSpeed.1 hj
  exact le_slowest hspeed hh

theorem slowest_eq (hgh : bridge.Alike g h) : bridge.slowest g = bridge.slowest h :=
  UInt64.le_antisymm hgh.slowest_le (slowest_le fun speed => (hgh speed).symm)

/-- Alike groups of people who exist are equally large. -/
theorem card_eq (hgh : bridge.Alike g h) (hg : g.toFinset ⊆ bridge.everyone.toFinset)
    (hh : h.toFinset ⊆ bridge.everyone.toFinset) : g.toFinset.card = h.toFinset.card := by
  -- Everybody who exists has one speed, so the groups of one speed are all there is to count.
  have hsum : ∀ k : People, k.toFinset ⊆ bridge.everyone.toFinset →
      k.toFinset.card = ∑ speed ∈ bridge.speeds.toFinset, (bridge.ofSpeed speed k).card := by
    intro k hk
    have hsome : ∀ i ∈ k.toFinset, bridge.speeds[i]? = some (bridge.speeds[i]?.getD 0) := by
      intro i hi
      have hlt := hk hi
      rw [toFinset_everyone, Finset.mem_range] at hlt
      rw [List.getElem?_eq_getElem hlt]
      rfl
    rw [Finset.card_eq_sum_card_fiberwise fun i hi =>
      List.mem_toFinset.2 (List.mem_of_getElem? (hsome i hi))]
    refine Finset.sum_congr rfl fun speed _ => congrArg _ (Finset.filter_congr fun i hi => ?_)
    rw [hsome i hi, Option.some.injEq]
    exact Iff.rfl
  rw [hsum g hg, hsum h hh]
  exact Finset.sum_congr rfl fun speed _ => hgh speed

/-- What some people can do, people of the same speeds among others can do as well. -/
theorem exists_group (hgh : bridge.Alike g h) (hsub : g'.toFinset ⊆ g.toFinset) :
    ∃ h' : People, h'.toFinset ⊆ h.toFinset ∧ h'.toFinset ⊆ bridge.everyone.toFinset ∧
      bridge.Alike g' h' := by
  have hpart : ∀ speed, ∃ part ⊆ bridge.ofSpeed speed h, part.card = (bridge.ofSpeed speed g').card := by
    intro speed
    refine Finset.exists_subset_card_eq ?_
    rw [← hgh speed]
    exact Finset.card_le_card (ofSpeed_subset hsub)
  choose part hpart hcard using hpart
  let test (person : Nat) : Bool := bridge.speeds[person]?.any fun speed => decide (person ∈ part speed)
  have htest : ∀ person, (People.such bridge.size test).has person = true ↔
      ∃ speed, bridge.speeds[person]? = some speed ∧ person ∈ part speed := by
    intro person
    have hlt : ∀ speed, bridge.speeds[person]? = some speed → person < bridge.size := fun speed hspeed =>
      (List.getElem?_eq_some_iff.1 hspeed).1
    simp only [People.has_such bridge.size_le, Bool.and_eq_true, decide_eq_true_eq, test, Option.any_eq_true]
    exact ⟨And.right, fun ⟨speed, hspeed, hmem⟩ => ⟨hlt speed hspeed, speed, hspeed, hmem⟩⟩
  refine ⟨.such bridge.size test, fun person hperson => ?_, ?_, fun speed => ?_⟩
  · obtain ⟨speed, -, hmem⟩ := (htest person).1 (People.mem_toFinset.1 hperson)
    exact People.mem_toFinset.2 (mem_ofSpeed.1 (hpart speed hmem)).1
  · rw [People.toFinset_such bridge.size_le, toFinset_everyone]
    exact Finset.filter_subset _ _
  · rw [← hcard speed]
    refine congrArg _ (Finset.ext fun person => ?_)
    rw [mem_ofSpeed, htest]
    constructor
    · intro hmem
      have hspeed := (mem_ofSpeed.1 (hpart speed hmem)).2
      exact ⟨⟨speed, hspeed, hmem⟩, hspeed⟩
    · rintro ⟨⟨speed', hspeed', hmem⟩, hspeed⟩
      obtain rfl : speed' = speed := Option.some.inj (hspeed'.symm.trans hspeed)
      exact hmem

end Alike

/-! ### The representative of a state -/

/-- The numbers of all the people who are as fast as `speed`. -/
def peers (bridge : Bridge) (speed : Cost) : List Nat := peersFrom speed 0 bridge.speeds

theorem peersFrom_append (speed : Cost) (first : Nat) (front back : List Cost) :
    peersFrom speed first (front ++ back) =
      peersFrom speed first front ++ peersFrom speed (first + front.length) back := by
  simp [peersFrom, List.zipIdx_append]

theorem mem_peers : person ∈ bridge.peers speed ↔ bridge.speeds[person]? = some speed := by
  simp [peers, peersFrom, List.mem_zipIdx_iff_getElem?]

/-- The first of a speed finds all who are as fast behind him. -/
theorem peersFrom_eq_peers {front back : List Cost} (hspeeds : bridge.speeds = front ++ back)
    (hnew : speed ∉ front) : peersFrom speed front.length back = bridge.peers speed := by
  have hnone : peersFrom speed 0 front = [] := by
    rw [peersFrom, List.map_eq_nil_iff, List.filter_eq_nil_iff]
    rintro ⟨other, person⟩ hmem hother
    obtain rfl : other = speed := beq_iff_eq.1 hother
    exact hnew (List.mem_of_getElem? (List.mem_zipIdx_iff_getElem?.1 hmem))
  rw [peers, hspeeds, peersFrom_append, hnone, Nat.zero_add, List.nil_append]

theorem nodup_peers (bridge : Bridge) (speed : Cost) : (bridge.peers speed).Nodup := by
  have hsub : (bridge.peers speed).Sublist (bridge.speeds.zipIdx.map Prod.snd) :=
    List.filter_sublist.map Prod.snd
  rw [List.zipIdx_map_snd] at hsub
  exact hsub.nodup List.nodup_range'

theorem countP_peers (bridge : Bridge) (speed : Cost) (g : People) :
    (bridge.peers speed).countP g.has = (bridge.ofSpeed speed g).card := by
  have hpeers : bridge.ofSpeed speed g = ((bridge.peers speed).filter g.has).toFinset := by
    ext person
    rw [mem_ofSpeed, List.mem_toFinset, List.mem_filter, mem_peers, and_comm]
  rw [hpeers, List.toFinset_card_of_nodup ((bridge.nodup_peers speed).filter _), List.countP_eq_length_filter]

theorem lt_of_mem_peers (hperson : person ∈ bridge.peers speed) : person < 32 :=
  Nat.lt_of_lt_of_le (List.getElem?_eq_some_iff.1 (mem_peers.1 hperson)).1 bridge.size_le

theorem has_foldl_place {folding : Folding} {crossed : Nat} {peers : List Nat}
    (hpeers : ∀ other ∈ peers, other < 32) (rank person : Nat) :
    (((peers.zipIdx rank).foldl (.place crossed) folding).far.has person = true ↔
      folding.far.has person = true ∨ person ∈ peers.take (crossed - rank)) ∧
    (((peers.zipIdx rank).foldl (.place crossed) folding).done.has person = true ↔
      folding.done.has person = true ∨ person ∈ peers) := by
  induction peers generalizing folding rank with
  | nil => simp
  | cons other peers ih =>
    obtain ⟨hother, hpeers⟩ := List.forall_mem_cons.1 hpeers
    rw [List.zipIdx_cons, List.foldl_cons]
    obtain ⟨hfar, hdone⟩ := @ih (folding.place crossed (other, rank)) hpeers (rank + 1)
    refine ⟨hfar.trans ?_, hdone.trans ?_⟩
    · by_cases hrank : rank < crossed
      · have hleft : crossed - rank = crossed - (rank + 1) + 1 := by omega
        rw [hleft, List.take_succ_cons, List.mem_cons]
        simp only [Folding.place, hrank, if_true, People.has_or, People.has_single hother, Bool.or_eq_true,
          decide_eq_true_eq, or_assoc, eq_comm (a := other)]
      · have hnone : crossed - rank = 0 ∧ crossed - (rank + 1) = 0 := by omega
        simp only [Folding.place, hrank, if_false, hnone, List.take_zero]
    · simp only [Folding.place, People.has_or, People.has_single hother, Bool.or_eq_true, decide_eq_true_eq,
        List.mem_cons, or_assoc, eq_comm (a := other)]

/-- Whether somebody is on the far side is settled for those whose speed is one of these. -/
structure Settled (bridge : Bridge) (state : BridgeState) (speeds : List Cost) (folding : Folding) : Prop where
  far : ∀ person, folding.far.has person = true ↔ ∃ speed ∈ speeds,
    person ∈ (bridge.peers speed).take (bridge.ofSpeed speed state.far).card
  done : ∀ person, folding.done.has person = true ↔ ∃ speed ∈ speeds, person ∈ bridge.peers speed

namespace Settled

variable {front : List Cost} {folding : Folding}

/-- For the next person it is settled already, with the first one of the same speed, unless this is the first. -/
theorem step {back : List Cost} (h : bridge.Settled state front folding)
    (hspeeds : bridge.speeds = front ++ speed :: back) : bridge.Settled state (front ++ [speed])
      (if folding.done.has front.length then folding
      else folding.settle ((peersFrom speed front.length (speed :: back)).countP state.far.has)
        (peersFrom speed front.length (speed :: back))) := by
  have hperson : bridge.speeds[front.length]? = some speed := by simp [hspeeds]
  cases hdone : folding.done.has front.length with
  | true =>
    obtain ⟨speed', hmem, hpeer⟩ := (h.done _).1 hdone
    obtain rfl : speed = speed' := Option.some.inj (hperson.symm.trans (mem_peers.1 hpeer))
    have hspeeds : ∀ other, other ∈ front ++ [speed] ↔ other ∈ front := by simp [hmem]
    simp only [if_true]
    constructor
    · simpa only [hspeeds] using h.far
    · simpa only [hspeeds] using h.done
  | false =>
    have hnew : speed ∉ front := fun hmem => by
      rw [(h.done _).2 ⟨speed, hmem, mem_peers.2 hperson⟩] at hdone
      cases hdone
    simp only [Bool.false_eq_true, if_false, peersFrom_eq_peers hspeeds hnew, countP_peers]
    have hlt : ∀ other ∈ bridge.peers speed, other < 32 := fun _ => lt_of_mem_peers
    constructor
    · intro person
      refine (has_foldl_place hlt 0 person).1.trans ?_
      rw [h.far]
      simp [or_and_right, exists_or]
    · intro person
      refine (has_foldl_place hlt 0 person).2.trans ?_
      rw [h.done]
      simp [or_and_right, exists_or]

theorem foldFrom {back : List Cost} (h : bridge.Settled state front folding)
    (hspeeds : bridge.speeds = front ++ back) :
    bridge.Settled state bridge.speeds (Bridge.foldFrom state folding front.length back) := by
  induction back generalizing front folding with
  | nil =>
    rw [hspeeds, List.append_nil]
    exact h
  | cons speed back ih =>
    have hnext := ih (h.step hspeeds) (by rw [hspeeds, List.append_assoc]; rfl)
    rw [List.length_append] at hnext
    exact hnext

end Settled

theorem has_far_canonical : (bridge.canonical state).far.has person = true ↔ ∃ speed,
    person ∈ (bridge.peers speed).take (bridge.ofSpeed speed state.far).card := by
  have hstart : bridge.Settled state [] {} := ⟨fun person => by simp, fun person => by simp⟩
  refine ((hstart.foldFrom rfl).far person).trans ⟨fun ⟨speed, _, hperson⟩ => ⟨speed, hperson⟩, ?_⟩
  rintro ⟨speed, hperson⟩
  exact ⟨speed, List.mem_of_getElem? (mem_peers.1 (List.mem_of_mem_take hperson)), hperson⟩

/-- The representative has equally many people of each speed on the far side. -/
theorem alike_canonical (bridge : Bridge) (state : BridgeState) :
    bridge.Alike (bridge.canonical state).far state.far := by
  intro speed
  have hfirst : bridge.ofSpeed speed (bridge.canonical state).far =
      ((bridge.peers speed).take (bridge.ofSpeed speed state.far).card).toFinset := by
    ext person
    rw [mem_ofSpeed, has_far_canonical, List.mem_toFinset]
    constructor
    · rintro ⟨⟨speed', hperson⟩, hspeed⟩
      obtain rfl : speed = speed' :=
        Option.some.inj (hspeed.symm.trans (mem_peers.1 (List.mem_of_mem_take hperson)))
      exact hperson
    · intro hperson
      exact ⟨⟨speed, hperson⟩, mem_peers.1 (List.mem_of_mem_take hperson)⟩
  have hle : (bridge.ofSpeed speed state.far).card ≤ (bridge.peers speed).length := by
    rw [← countP_peers]
    exact List.countP_le_length
  rw [hfirst, List.toFinset_card_of_nodup ((bridge.nodup_peers speed).sublist (List.take_sublist _ _)),
    List.length_take, Nat.min_eq_left hle]

/-- Two states have the same representative if the torch is on the same side and those on the far side are
alike. -/
theorem canonical_eq_iff : bridge.canonical s = bridge.canonical t ↔
    s.torchFar = t.torchFar ∧ bridge.Alike s.far t.far := by
  constructor
  · intro heq
    have htorch : (bridge.canonical s).torchFar = (bridge.canonical t).torchFar := by rw [heq]
    refine ⟨htorch, fun speed => ?_⟩
    rw [← alike_canonical bridge s speed, heq, alike_canonical bridge t speed]
  · rintro ⟨htorch, halike⟩
    have hfar : (bridge.canonical s).far = (bridge.canonical t).far := by
      refine People.ext_has fun person => ?_
      rw [Bool.eq_iff_iff, has_far_canonical, has_far_canonical]
      simp only [halike _]
    exact (BridgeState.mk.injEq ..).mpr ⟨hfar, htorch⟩

theorem canonical_canonical (bridge : Bridge) (state : BridgeState) :
    bridge.canonical (bridge.canonical state) = bridge.canonical state :=
  canonical_eq_iff.2 ⟨rfl, alike_canonical bridge state⟩

/-! ### Crossings -/

/-- Only people who exist are on the far side. -/
def Peopled (bridge : Bridge) (state : BridgeState) : Prop :=
  state.far.toFinset ⊆ bridge.everyone.toFinset

/-- Those who are not across yet. -/
def near (bridge : Bridge) (state : BridgeState) : People := bridge.everyone &&& ~~~state.far

theorem near_subset (bridge : Bridge) (state : BridgeState) :
    (bridge.near state).toFinset ⊆ bridge.everyone.toFinset := by
  unfold near
  rw [People.toFinset_and_not]
  exact Finset.sdiff_subset

theorem mem_crossings : crossing ∈ bridge.crossings state ↔ crossing.forward = !state.torchFar ∧
    crossing.group ≠ 0 ∧ crossing.group.toFinset ⊆ (bridge.atTorch state).toFinset ∧
      crossing.group.toFinset.card ≤ bridge.capacity := by
  obtain ⟨group, forward⟩ := crossing
  simp only [crossings, List.mem_map, People.mem_groups, People.count_eq_card, Crossing.mk.injEq]
  constructor
  · rintro ⟨_, hgroup, rfl, rfl⟩
    exact ⟨rfl, hgroup⟩
  · rintro ⟨rfl, hgroup⟩
    exact ⟨group, hgroup, rfl, rfl⟩

theorem atTorch_subset (hstate : bridge.Peopled state) :
    (bridge.atTorch state).toFinset ⊆ bridge.everyone.toFinset := by
  unfold atTorch
  split
  · exact hstate
  · exact bridge.near_subset state

/-- A crossing moves the group to the other side. -/
theorem cross_eq (hcross : crossing ∈ bridge.crossings state) : state.cross crossing =
    if state.torchFar then ⟨state.far &&& ~~~crossing.group, false⟩
    else ⟨state.far ||| crossing.group, true⟩ := by
  have hforward := (mem_crossings.1 hcross).1
  unfold BridgeState.cross
  rw [hforward]
  cases state.torchFar <;> rfl

theorem Peopled.cross (hstate : bridge.Peopled state) (hcross : crossing ∈ bridge.crossings state) :
    bridge.Peopled (state.cross crossing) := by
  obtain ⟨-, -, hgroup, -⟩ := mem_crossings.1 hcross
  have hexist := hgroup.trans (atTorch_subset hstate)
  unfold Peopled
  rw [cross_eq hcross]
  split
  · rw [People.toFinset_and_not]
    exact Finset.sdiff_subset.trans hstate
  · rw [People.toFinset_or]
    exact Finset.union_subset hstate hexist

theorem peopled_of_reachable (hstate : bridge.problem.Reachable state) : bridge.Peopled state := by
  obtain ⟨crossings, c, route⟩ := hstate
  induction route with
  | stay => exact fun person hperson => by simp [problem] at hperson
  | snoc route step ih =>
    obtain ⟨hcross, rfl, rfl⟩ := PureProblem.step_rules_iff.1 step
    exact ih.cross hcross

theorem Alike.near (hfar : bridge.Alike s.far t.far) (hs : bridge.Peopled s) (ht : bridge.Peopled t) :
    bridge.Alike (bridge.near s) (bridge.near t) :=
  .and_not (fun _ => rfl) hfar hs ht

theorem Alike.atTorch (hfar : bridge.Alike s.far t.far) (hs : bridge.Peopled s) (ht : bridge.Peopled t)
    (htorch : s.torchFar = t.torchFar) : bridge.Alike (bridge.atTorch s) (bridge.atTorch t) := by
  unfold Bridge.atTorch
  rw [htorch]
  split
  · exact hfar
  · exact hfar.near hs ht

/-- In states that are folded into one, the same crossings are made by people of the same speeds. -/
theorem exists_crossing (hs : bridge.Peopled s) (ht : bridge.Peopled t)
    (hcanonical : bridge.canonical s = bridge.canonical t) (hcross : crossing ∈ bridge.crossings s) :
    ∃ crossing' ∈ bridge.crossings t,
      bridge.canonical (t.cross crossing') = bridge.canonical (s.cross crossing) ∧
        bridge.slowest crossing'.group = bridge.slowest crossing.group := by
  obtain ⟨htorch, hfar⟩ := canonical_eq_iff.1 hcanonical
  obtain ⟨hforward, hnonzero, hgroup, hcapacity⟩ := mem_crossings.1 hcross
  obtain ⟨group, hgroup', hexist', halike⟩ := (hfar.atTorch hs ht htorch).exists_group hgroup
  have hcard := halike.card_eq (hgroup.trans (atTorch_subset hs)) hexist'
  have hcross' : ⟨group, !t.torchFar⟩ ∈ bridge.crossings t := by
    refine mem_crossings.2 ⟨rfl, fun hzero => hnonzero ?_, hgroup', hcard ▸ hcapacity⟩
    rw [← People.toFinset_eq_empty, ← Finset.card_eq_zero] at hzero ⊢
    exact hcard.trans hzero
  refine ⟨_, hcross', canonical_eq_iff.2 ?_, halike.slowest_eq.symm⟩
  rw [cross_eq hcross, cross_eq hcross', htorch]
  unfold atTorch at hgroup hgroup'
  cases hside : t.torchFar with
  | true =>
    simp only [htorch, hside, if_true] at hgroup hgroup'
    exact ⟨rfl, fun speed => (hfar.and_not halike hgroup hgroup' speed).symm⟩
  | false =>
    simp only [htorch, hside, Bool.false_eq_true, if_false, People.toFinset_and_not] at hgroup hgroup'
    have hdisj : Disjoint s.far.toFinset crossing.group.toFinset :=
      Finset.disjoint_of_subset_right hgroup Finset.disjoint_sdiff
    have hdisj' : Disjoint t.far.toFinset group.toFinset :=
      Finset.disjoint_of_subset_right hgroup' Finset.disjoint_sdiff
    exact ⟨rfl, fun speed => (hfar.or halike hdisj hdisj' speed).symm⟩

/-! ### The problem -/

theorem Alike.isGoal_eq (hfar : bridge.Alike s.far t.far) (hs : bridge.Peopled s) (ht : bridge.Peopled t) :
    bridge.problem.isGoal s = bridge.problem.isGoal t := by
  have hall : ∀ state, bridge.Peopled state → (bridge.problem.isGoal state = true ↔
      bridge.everyone.toFinset.card ≤ state.far.toFinset.card) := by
    intro state hstate
    have hgoal : bridge.problem.isGoal state = true ↔ state.far = bridge.everyone := beq_iff_eq
    rw [hgoal, ← People.toFinset_inj]
    exact ⟨fun heq => Nat.le_of_eq (congrArg _ heq.symm), Finset.eq_of_subset_of_card_le hstate⟩
  rw [Bool.eq_iff_iff, hall s hs, hall t ht, hfar.card_eq hs ht]

/-- The state that is recorded for a state. -/
def recorded (bridge : Bridge) (state : BridgeState) : BridgeState :=
  if bridge.folds then bridge.canonical state else state

theorem folds_problem (bridge : Bridge) : bridge.problem.Folds bridge.recorded := by
  cases hfolds : bridge.folds with
  | false =>
    have hid : bridge.recorded = id := by
      funext state
      simp [recorded, hfolds]
    rw [hid]
    refine PureProblem.folds_id _ (funext fun state => ?_)
    rw [alreadySeen_problem, hfolds]
    rfl
  | true =>
    have hcanonical : bridge.recorded = bridge.canonical := by
      funext state
      simp [recorded, hfolds]
    rw [hcanonical]
    refine ⟨fun state => ?_, fun state _ => canonical_canonical bridge state, fun s t hs ht heq => ?_,
      fun s t hs ht heq => ?_, fun s t hs ht heq crossing hcross => ?_⟩
    · rw [alreadySeen_problem, hfolds]
      rfl
    · exact (canonical_eq_iff.1 heq).2.isGoal_eq (peopled_of_reachable hs) (peopled_of_reachable ht)
    · exact ((canonical_eq_iff.1 heq).2.near (peopled_of_reachable hs) (peopled_of_reachable ht)).slowest_eq
    · exact exists_crossing (peopled_of_reachable hs) (peopled_of_reachable ht) heq hcross

/-- The slowest who waits is in the group that crosses, or waits still. -/
theorem consistent_problem (bridge : Bridge) : bridge.problem.Consistent := by
  constructor
  · intro state _ hgoal
    have hfar : state.far = bridge.everyone := beq_iff_eq.1 hgoal
    have hnear : bridge.near state = 0 := by
      rw [← People.toFinset_eq_empty, near, People.toFinset_and_not, hfar, Finset.sdiff_self]
    show bridge.slowest (bridge.near state) = 0
    rw [hnear]
    exact slowest_zero
  · intro state _ crossing hcross
    refine Cost.le_plus_iff.1 (slowest_le_iff.2 fun person speed hspeed hnear => Cost.le_plus_iff.2 ?_)
    rw [People.has_and_not, Bool.and_eq_true, Bool.not_eq_true'] at hnear
    obtain ⟨hexists, hwaits⟩ := hnear
    have hfar : (state.cross crossing).far.has person = crossing.group.has person ∨
        (state.cross crossing).far.has person = false := by
      rw [cross_eq hcross]
      split
      · exact .inr (by rw [People.has_and_not, hwaits, Bool.false_and])
      · exact .inl (by rw [People.has_or, hwaits, Bool.false_or])
    cases hgroup : crossing.group.has person with
    | true =>
      have hle := UInt64.le_iff_toNat_le.1 (le_slowest hspeed hgroup)
      exact Nat.le_trans hle (Nat.le_add_right _ _)
    | false =>
      have hnear : (bridge.near (state.cross crossing)).has person = true := by
        rw [hgroup, or_self] at hfar
        rw [near, People.has_and_not, hexists, hfar]
        rfl
      have hle := UInt64.le_iff_toNat_le.1 (le_slowest hspeed hnear)
      exact Nat.le_trans hle (Nat.le_add_left _ _)

theorem finite_states : Finite BridgeState := by
  refine Finite.of_injective (fun state : BridgeState => (state.far.toFin, state.torchFar)) ?_
  rintro ⟨far, torchFar⟩ ⟨far', torchFar'⟩ heq
  obtain ⟨hfar, htorch⟩ := Prod.mk.inj heq
  exact (BridgeState.mk.injEq ..).mpr ⟨BitVec.toFin_inj.1 hfar, htorch⟩

/-! ### Searches -/

open Act PoolSearch

variable {ω : Type}

theorem isOptimum_of_folds {folds : Bool} {path : Option (Path Crossing)}
    (h : { bridge with folds }.problem.IsOptimum path) : bridge.problem.IsOptimum path := by
  cases path with
  | none => exact h
  | some path => exact ⟨h.route, h.least⟩

theorem isNearest_of_folds {folds : Bool} {path : Option (Path Crossing)}
    (h : { bridge with folds }.problem.IsNearest path) : bridge.problem.IsNearest path := by
  cases path with
  | none => exact h
  | some path => exact ⟨h.route, h.fewest⟩

/-- Whether or not states are folded, A* and a single worker who claims states when they are taken find a
fastest way across, and breadth-first search one with the fewest crossings, or they find out that there is
none. So folding changes neither whether a way is found, nor how long it takes, nor the number of crossings. -/
theorem optimal_folded_or_not (bridge : Bridge) (folds : Bool) (world : ω) (seed : UInt64) :
    let folded := { bridge with folds }.problem
    wp (BestFirst.solve folded.toProblem) (fun path _ => bridge.problem.IsOptimum path) Overflow
        { world } ∧
      (∃ pool middle path final, prepareAStar folded.toProblem (.ofSeed 1 seed)
          { world, stats := { workers := 1 } } = .ok pool middle ∧
        Lands folded.toProblem .whenTaken pool middle path final ∧ bridge.problem.IsOptimum path) ∧
      wp (Exhaustive.solve .breadthFirst folded.toProblem) (fun path _ => bridge.problem.IsNearest path)
        Overflow { world } ∧
      wp (BestFirst.solve bridge.problem.toProblem) (fun path _ =>
        wp (BestFirst.solve folded.toProblem) (fun path' _ => path'.map Path.cost = path.map Path.cost)
          Overflow { world }) Overflow { world } ∧
      wp (Exhaustive.solve .breadthFirst bridge.problem.toProblem) (fun path _ =>
        wp (Exhaustive.solve .breadthFirst folded.toProblem)
          (fun path' _ => path'.map (·.moves.length) = path.map (·.moves.length))
          Overflow { world }) Overflow { world } := by
  intro folded
  have hcheap : ∀ folds, wp (BestFirst.solve { bridge with folds }.problem.toProblem)
      (fun path _ => bridge.problem.IsOptimum path) Overflow { world } := fun folds =>
    (BestFirst.solve_folded (folds_problem _) (consistent_problem _) rfl).mono fun path _ hpath =>
      isOptimum_of_folds hpath
  have hshort : ∀ folds, wp (Exhaustive.solve .breadthFirst { bridge with folds }.problem.toProblem)
      (fun path _ => bridge.problem.IsNearest path) Overflow { world } := fun folds =>
    (Exhaustive.solve_folded (folds_problem _) rfl).mono fun path _ hpath => isNearest_of_folds hpath
  refine ⟨hcheap folds, ?_, hshort folds, ?_, ?_⟩
  · have hfinite : {state | folded.Reachable state}.Finite :=
      have := finite_states
      Set.toFinite _
    obtain ⟨pool, middle, path, final, hprepare, hlands, hpath⟩ :=
      single_worker_optimum (folds_problem _) (consistent_problem _) hfinite seed
    exact ⟨pool, middle, path, final, hprepare, hlands, isOptimum_of_folds hpath⟩
  · refine (hcheap bridge.folds).mono fun path _ hpath => (hcheap folds).mono fun path' _ hpath' => ?_
    exact hpath'.map_cost_eq hpath
  · refine (hshort bridge.folds).mono fun path _ hpath => (hshort folds).mono fun path' _ hpath' => ?_
    exact hpath'.map_length_eq hpath

end Puzzle.Bridge

end StateSearch
