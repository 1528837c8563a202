import StateSearch.Proofs.Puzzle.Representative

/-!
# The order in which the groups are listed

The groups that can be formed from the people of one side can also be found by counting down: from one group,
take the word before it and strike out everybody who is not on this side (`People.descend`). No group is
skipped on the way down (`People.le_sub_one_and`), so this walk meets all groups, the largest word first
(`People.mem_descend`, `People.pairwise_descend`). `People.groups` lists those of them that are small enough, in
the same order (`People.groups_eq_filter_descend`).

So the crossings of a state are the ones they should be, and each of them moves just the people of its group
(`Bridge.crossings_spec`).
-/

namespace StateSearch.Puzzle

namespace People

variable {g h side people : People} {person capacity : Nat} {l : List Nat}

/-! ### Counting down -/

theorem and_mod_two (a b : Nat) : (a &&& b) % 2 = a % 2 &&& b % 2 :=
  Nat.and_mod_two_pow (n := 1)

theorem half_and_half {a b : Nat} (hab : a &&& b = a) : a / 2 &&& b / 2 = a / 2 := by
  rw [← Nat.and_div_two, hab]

/-- Of the numbers whose bits are all in `side`, the one before `g` is at most the number before `g` without the
bits that are not in `side`. -/
theorem le_sub_one_and {side g h : Nat} (hg : g &&& side = g) (hh : h &&& side = h) (hlt : h < g) :
    h ≤ (g - 1) &&& side := by
  induction g using Nat.strongRecOn generalizing h side with
  | ind g ih =>
    have hrest : ((g - 1) &&& side) / 2 = (g - 1) / 2 &&& side / 2 := Nat.and_div_two
    rcases Nat.mod_two_eq_zero_or_one g with heven | hodd
    · -- The last bit of the number before `g` is set, so it stays as it is in `side`.
      have hbefore : h / 2 ≤ ((g - 1) &&& side) / 2 := by
        have hpred : (g - 1) / 2 = g / 2 - 1 := by omega
        rw [hrest, hpred]
        exact ih (g / 2) (by omega) (half_and_half hg) (half_and_half hh) (by omega)
      have hlast : ((g - 1) &&& side) % 2 = side % 2 := by
        have hone : (g - 1) % 2 = 1 := by omega
        rw [and_mod_two, hone]
        rcases Nat.mod_two_eq_zero_or_one side with hside | hside <;> rw [hside] <;> rfl
      have hle : h % 2 ≤ side % 2 := by
        rw [← hh, and_mod_two]
        exact Nat.and_le_right
      omega
    · -- Without its last bit `g` is still within `side`.
      have hsame : ((g - 1) &&& side) / 2 = g / 2 := by
        have hpred : (g - 1) / 2 = g / 2 := by omega
        rw [hrest, hpred, half_and_half hg]
      omega

/-- Everybody in the first group is in the second. -/
theorem and_eq_self_iff : g &&& side = g ↔ g.toFinset ⊆ side.toFinset := by
  rw [← toFinset_inj]
  have hand : (g &&& side).toFinset = g.toFinset ∩ side.toFinset := by
    ext person
    simp [has]
  rw [hand, Finset.inter_eq_left]

theorem toNat_sub_one (hne : g ≠ 0) : (g - 1).toNat = g.toNat - 1 := by
  have hpos : g.toNat ≠ 0 := fun hzero => hne (BitVec.eq_of_toNat_eq hzero)
  have hle : (1 : People) ≤ g := BitVec.le_def.2 (Nat.one_le_iff_ne_zero.2 hpos)
  rw [BitVec.toNat_sub_of_le hle]
  rfl

theorem toNat_sub_one_and_lt (hne : g ≠ 0) (side : People) : ((g - 1) &&& side).toNat < g.toNat := by
  have hpos : g.toNat ≠ 0 := fun hzero => hne (BitVec.eq_of_toNat_eq hzero)
  calc ((g - 1) &&& side).toNat
    _ ≤ (g - 1).toNat := by
      rw [BitVec.toNat_and]
      exact Nat.and_le_left
    _ < g.toNat := by
      rw [toNat_sub_one hne]
      omega

/-- Go down from a group, to nobody: the next group is the word before it, without those who are not on this
side. -/
def descend (side group : People) : List People :=
  if group = 0 then [] else group :: descend side ((group - 1) &&& side)
termination_by group.toNat
decreasing_by exact toNat_sub_one_and_lt ‹_› side

theorem le_of_mem_descend (hmem : h ∈ descend side g) : h.toNat ≤ g.toNat := by
  induction g using descend.induct side with
  | case1 => simp [descend] at hmem
  | case2 g hne ih =>
    rw [descend, if_neg hne, List.mem_cons] at hmem
    rcases hmem with rfl | hmem
    · exact Nat.le_refl _
    · exact Nat.le_trans (ih hmem) (Nat.le_of_lt (toNat_sub_one_and_lt hne side))

/-- The way down meets the groups of this side, and no other. -/
theorem mem_descend (hg : g.toFinset ⊆ side.toFinset) : h ∈ descend side g ↔
    h ≠ 0 ∧ h.toFinset ⊆ side.toFinset ∧ h.toNat ≤ g.toNat := by
  induction g using descend.induct side with
  | case1 =>
    rw [descend, if_pos rfl]
    simp only [List.not_mem_nil, false_iff, not_and]
    intro hne _ hle
    exact hne (BitVec.eq_of_toNat_eq (Nat.le_zero.1 hle))
  | case2 g hne ih =>
    have hnext : ((g - 1) &&& side).toFinset ⊆ side.toFinset :=
      and_eq_self_iff.1 (by rw [BitVec.and_assoc, BitVec.and_self])
    rw [descend, if_neg hne, List.mem_cons, ih hnext]
    constructor
    · rintro (rfl | ⟨hne', hsub, hle⟩)
      · exact ⟨hne, hg, Nat.le_refl _⟩
      · exact ⟨hne', hsub, Nat.le_trans hle (Nat.le_of_lt (toNat_sub_one_and_lt hne side))⟩
    · rintro ⟨hne', hsub, hle⟩
      rcases Nat.eq_or_lt_of_le hle with heq | hlt
      · exact .inl (BitVec.eq_of_toNat_eq heq)
      · have hbits : ∀ {k : People}, k.toFinset ⊆ side.toFinset → k.toNat &&& side.toNat = k.toNat :=
          fun hk => by rw [← BitVec.toNat_and, and_eq_self_iff.2 hk]
        refine .inr ⟨hne', hsub, ?_⟩
        rw [BitVec.toNat_and, toNat_sub_one hne]
        exact le_sub_one_and (hbits hg) (hbits hsub) hlt

theorem pairwise_descend (side g : People) : (descend side g).Pairwise (·.toNat > ·.toNat) := by
  induction g using descend.induct side with
  | case1 => simp [descend]
  | case2 g hne ih =>
    rw [descend, if_neg hne, List.pairwise_cons]
    exact ⟨fun h hmem => Nat.lt_of_le_of_lt (le_of_mem_descend hmem) (toNat_sub_one_and_lt hne side), ih⟩

/-! ### The groups that are chosen -/

theorem toNat_lt_of_has_lt {bound : Nat} (hg : ∀ person, g.has person = true → person < bound) :
    g.toNat < 2 ^ bound := by
  refine Nat.lt_pow_two_of_testBit _ fun person hle => ?_
  have hnot : ¬ g.has person = true := fun hmem => Nat.not_le.2 (hg person hmem) hle
  simpa [has, BitVec.testBit_toNat] using hnot

/-- If the people are listed in descending order, so are the groups. -/
theorem pairwise_choose (capacity : Nat) (hl : l.Pairwise (· > ·)) (hlt : ∀ person ∈ l, person < 32) :
    (choose capacity l).Pairwise (·.toNat > ·.toNat) := by
  induction l generalizing capacity with
  | nil => exact List.pairwise_singleton _ _
  | cons person l ih =>
    cases capacity with
    | zero => exact List.pairwise_singleton _ _
    | succ capacity =>
      obtain ⟨hfirst, hl⟩ := List.pairwise_cons.1 hl
      obtain ⟨hperson, hlt⟩ := List.forall_mem_cons.1 hlt
      have hnodup : l.Nodup := hl.imp fun h => Nat.ne_of_gt h
      have hbelow : ∀ {capacity} {g : People}, g ∈ choose capacity l → ∀ i, g.has i = true → i < person :=
        fun {_ g} hg i hi => hfirst i (List.mem_toFinset.1 (((mem_choose hnodup hlt).1 hg).1 (mem_toFinset.2 hi)))
      have hsum : ∀ {g : People}, g ∈ choose capacity l → (single person ||| g).toNat = 2 ^ person + g.toNat := by
        intro g hg
        have hsmall := toNat_lt_of_has_lt (hbelow hg)
        rw [BitVec.toNat_or, single, BitVec.toNat_twoPow, Nat.mod_eq_of_lt (Nat.pow_lt_pow_right (by decide) hperson)]
        have := Nat.two_pow_add_eq_or_of_lt hsmall 1
        rw [Nat.mul_one] at this
        exact this.symm
      rw [choose, List.pairwise_append]
      refine ⟨List.pairwise_map.2 ((ih capacity hl hlt).imp_of_mem fun hg hh hgt => ?_), ih (capacity + 1) hl hlt, ?_⟩
      · rw [hsum hg, hsum hh]
        omega
      · rintro _ hwith h hwithout
        obtain ⟨g, hg, rfl⟩ := List.mem_map.1 hwith
        have hsmall := toNat_lt_of_has_lt (hbelow hwithout)
        rw [hsum hg]
        omega

theorem pairwise_groups (capacity : Nat) (people : People) :
    (groups capacity people).Pairwise (·.toNat > ·.toNat) := by
  rw [groups_eq]
  refine (pairwise_choose capacity ?_ fun i hi => ?_).filter _
  · exact List.pairwise_reverse.2 (List.pairwise_lt_range.filter _)
  · exact List.mem_range.1 (List.mem_filter.1 (List.mem_reverse.1 hi)).1

/-- The listed groups are those that the way down meets, as far as they are small enough. -/
theorem groups_eq_filter_descend (capacity : Nat) (people : People) :
    groups capacity people = (descend people people).filter (·.count ≤ capacity) := by
  have hstrict : ∀ {l : List People}, l.Pairwise (·.toNat > ·.toNat) → l.Nodup := fun hl =>
    hl.imp fun {g h} (hgt : g.toNat > h.toNat) heq => Nat.lt_irrefl _ (heq ▸ hgt)
  have hgroups := pairwise_groups capacity people
  have hdescend := (pairwise_descend people people).filter (fun g => decide (g.count ≤ capacity))
  refine List.Perm.eq_of_pairwise ?_ hgroups hdescend ?_
  · exact fun g h _ _ hgt hlt => absurd hgt (Nat.lt_asymm hlt)
  · refine (List.perm_ext_iff_of_nodup (hstrict hgroups) (hstrict hdescend)).2 fun g => ?_
    rw [mem_groups, List.mem_filter, mem_descend (Finset.Subset.refl _), decide_eq_true_eq]
    constructor
    · rintro ⟨hne, hsub, hcount⟩
      refine ⟨⟨hne, hsub, ?_⟩, hcount⟩
      have hand := congrArg BitVec.toNat (and_eq_self_iff.2 hsub)
      rw [BitVec.toNat_and] at hand
      rw [← hand]
      exact Nat.and_le_right
    · rintro ⟨⟨hne, hsub, -⟩, hcount⟩
      exact ⟨hne, hsub, hcount⟩

end People

namespace Bridge

variable {bridge : Bridge} {state : BridgeState} {crossing : Crossing}

/-- At the torch are those who are across, or those of the people there are who are not. -/
theorem has_atTorch {person : Nat} : (bridge.atTorch state).has person =
    if state.torchFar then state.far.has person
    else decide (person < bridge.size) && !state.far.has person := by
  unfold atTorch
  split
  · rfl
  · have hall : bridge.everyone.has person = decide (person < bridge.size) := by
      rw [everyone, People.has_such bridge.size_le, Bool.and_true]
    rw [People.has_and_not, hall]

/-- Nobody but the group changes sides. -/
theorem has_far_cross (hcross : crossing ∈ bridge.crossings state) (person : Nat) :
    (state.cross crossing).far.has person = (state.far.has person ^^ crossing.group.has person) := by
  obtain ⟨-, -, hgroup, -⟩ := mem_crossings.1 hcross
  have hside : crossing.group.has person = true → (bridge.atTorch state).has person = true := fun hmem =>
    People.mem_toFinset.1 (hgroup (People.mem_toFinset.2 hmem))
  rw [has_atTorch] at hside
  rw [cross_eq hcross]
  cases htorch : state.torchFar with
  | true =>
    rw [if_pos htorch] at hside
    rw [if_pos rfl, People.has_and_not]
    cases hmem : crossing.group.has person with
    | true => rw [hside hmem]; rfl
    | false => simp
  | false =>
    rw [htorch, if_neg Bool.false_ne_true, Bool.and_eq_true, Bool.not_eq_true'] at hside
    rw [if_neg Bool.false_ne_true, People.has_or]
    cases hmem : crossing.group.has person with
    | true => rw [(hside hmem).2]; rfl
    | false => simp

/-- Whoever is said to be on the far side, the crossings are those of the groups that counting down from all
people at the torch meets and the bridge holds. They are the non-empty groups of people at the torch that the
bridge holds, each of them once, in descending order and away from the torch. A crossing takes its group and the
torch to the other side, and nobody else; if only people who exist were across, it stays that way. -/
theorem crossings_spec (bridge : Bridge) (state : BridgeState) :
    bridge.problem.legalMoves state =
      (((People.descend (bridge.atTorch state) (bridge.atTorch state)).filter (·.count ≤ bridge.capacity)).map
        fun group => ⟨group, !state.torchFar⟩) ∧
      (∀ crossing, crossing ∈ bridge.problem.legalMoves state ↔ crossing.forward = !state.torchFar ∧
        crossing.group ≠ 0 ∧ crossing.group.count ≤ bridge.capacity ∧
        ∀ person, crossing.group.has person = true →
          if state.torchFar then state.far.has person = true
          else person < bridge.size ∧ state.far.has person = false) ∧
      (bridge.problem.legalMoves state).Nodup ∧
      (bridge.problem.legalMoves state).Pairwise (·.group.toNat > ·.group.toNat) ∧
      ∀ crossing ∈ bridge.problem.legalMoves state,
        (bridge.problem.applyMove state crossing).torchFar = !state.torchFar ∧
        (∀ person, (bridge.problem.applyMove state crossing).far.has person =
          (state.far.has person ^^ crossing.group.has person)) ∧
        ((∀ person, state.far.has person = true → person < bridge.size) →
          ∀ person, (bridge.problem.applyMove state crossing).far.has person = true → person < bridge.size) := by
  have hdescending : (bridge.crossings state).Pairwise (·.group.toNat > ·.group.toNat) :=
    List.pairwise_map.2 (People.pairwise_groups _ _)
  refine ⟨?_, fun crossing => ?_, ?_, hdescending, fun crossing hcross => ⟨?_, has_far_cross hcross, ?_⟩⟩
  · show bridge.crossings state = _
    rw [crossings, People.groups_eq_filter_descend]
  · show crossing ∈ bridge.crossings state ↔ _
    rw [mem_crossings, ← People.count_eq_card]
    have hside : crossing.group.toFinset ⊆ (bridge.atTorch state).toFinset ↔
        ∀ person, crossing.group.has person = true →
          if state.torchFar then state.far.has person = true
          else person < bridge.size ∧ state.far.has person = false := by
      refine forall_congr' fun person => ?_
      rw [People.mem_toFinset, People.mem_toFinset, has_atTorch]
      split <;> simp
    rw [hside, and_comm (a := crossing.group.count ≤ bridge.capacity)]
  · exact hdescending.imp fun {c d} (hgt : c.group.toNat > d.group.toNat) heq => Nat.lt_irrefl _ (heq ▸ hgt)
  · exact (mem_crossings.1 hcross).1
  · intro hpeopled person hacross
    have hpeopled : bridge.Peopled state := fun person hperson => by
      rw [toFinset_everyone, Finset.mem_range]
      exact hpeopled person (People.mem_toFinset.1 hperson)
    have hexists := hpeopled.cross hcross (People.mem_toFinset.2 hacross)
    rwa [toFinset_everyone, Finset.mem_range] at hexists

/-- From the far side the first and the third person may come back together, or one of them. -/
theorem crossings_spec_quintet :
    (∀ person, (0b00101 : People).has person = true → person < quintet.size) ∧
    quintet.problem.legalMoves ⟨0b00101, true⟩ =
      [⟨0b00101, false⟩, ⟨0b00100, false⟩, ⟨0b00001, false⟩] ∧
    (quintet.problem.applyMove ⟨0b00101, true⟩ ⟨0b00100, false⟩).far.has 2 = false ∧
    ∀ person, (quintet.problem.applyMove ⟨0b00101, true⟩ ⟨0b00100, false⟩).far.has person = true →
      person < quintet.size := by
  have hfar : ∀ person, (0b00101 : People).has person = true → person < quintet.size := by
    intro person hmem
    have hall : ∀ i < 32, (0b00101 : People).has i = true → i < quintet.size := by decide
    exact hall person (People.lt_of_has hmem) hmem
  obtain ⟨-, hmem, -, -, hcross⟩ := crossings_spec quintet ⟨0b00101, true⟩
  have hlegal : ⟨0b00100, false⟩ ∈ quintet.problem.legalMoves ⟨0b00101, true⟩ := by
    refine (hmem _).2 ⟨rfl, by decide, by decide, fun person hperson => ?_⟩
    have hall : ∀ i < 32, (0b00100 : People).has i = true → (0b00101 : People).has i = true := by decide
    exact hall person (People.lt_of_has hperson) hperson
  obtain ⟨-, hmoved, hkept⟩ := hcross _ hlegal
  exact ⟨hfar, by decide +kernel, (hmoved 2).trans (by decide), hkept hfar⟩

end Bridge

end StateSearch.Puzzle
