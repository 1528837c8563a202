import Mathlib.Data.Finset.Card
import Mathlib.Data.Finset.Range
import StateSearch.Puzzle.People

/-!
# Groups of people as finite sets

What the operations on groups do to their members, and which groups `People.groups` lists: every non-empty
part of the people that is small enough (`People.mem_groups`).
-/

namespace StateSearch.Puzzle.People

variable {g h people : People} {person size capacity : Nat} {test : Nat → Bool} {l : List Nat}

theorem lt_of_has (hg : g.has person = true) : person < 32 :=
  BitVec.lt_of_getLsbD hg

theorem ext_has (heq : ∀ person, g.has person = h.has person) : g = h :=
  BitVec.eq_of_getLsbD_eq fun person _ => heq person

@[simp] theorem has_zero : has 0#32 person = false :=
  BitVec.getLsbD_zero

@[simp] theorem has_or : (g ||| h : People).has person = (g.has person || h.has person) :=
  BitVec.getLsbD_or

theorem has_single (hlt : size < 32) : (single size).has person = decide (size = person) := by
  simp [has, single, BitVec.getLsbD_twoPow, hlt]

/-- Those of `g` who are not in `h`. -/
theorem has_and_not : (g &&& ~~~h : People).has person = (g.has person && !h.has person) := by
  by_cases hlt : person < 32
  · simp [has, hlt]
  · simp [has, Nat.not_lt.1 hlt]

theorem has_foldl_single (hl : ∀ i ∈ l, i < 32) (g : People) :
    (l.foldl (fun people i => people ||| single i) g).has person = (g.has person || decide (person ∈ l)) := by
  induction l generalizing g with
  | nil => simp
  | cons i l ih =>
    obtain ⟨hi, hl⟩ := List.forall_mem_cons.1 hl
    rw [List.foldl_cons, ih hl, has_or, has_single hi, Bool.or_assoc]
    simp [eq_comm]

theorem has_such (hsize : size ≤ 32) :
    (such size test).has person = (decide (person < size) && test person) := by
  have hlt : ∀ i ∈ (List.range size).filter test, i < 32 := fun i hi =>
    Nat.lt_of_lt_of_le (List.mem_range.1 (List.mem_filter.1 hi).1) hsize
  unfold such
  rw [has_foldl_single hlt]
  simp

/-! ### The set of the members -/

/-- The numbers of the people in the group. -/
def toFinset (g : People) : Finset Nat := (Finset.range 32).filter (g.has ·)

@[simp] theorem mem_toFinset : person ∈ g.toFinset ↔ g.has person = true := by
  simp only [toFinset, Finset.mem_filter, Finset.mem_range, and_iff_right_iff_imp]
  exact lt_of_has

theorem toFinset_inj : g.toFinset = h.toFinset ↔ g = h := by
  refine ⟨fun heq => ext_has fun person => ?_, fun heq => heq ▸ rfl⟩
  rw [Bool.eq_iff_iff, ← mem_toFinset, ← mem_toFinset, heq]

@[simp] theorem toFinset_zero : toFinset 0#32 = ∅ := by
  ext person
  simp

@[simp] theorem toFinset_or : (g ||| h : People).toFinset = g.toFinset ∪ h.toFinset := by
  ext person
  simp

@[simp] theorem toFinset_and_not : (g &&& ~~~h : People).toFinset = g.toFinset \ h.toFinset := by
  ext person
  simp [has_and_not]

theorem toFinset_single (hlt : person < 32) : (single person).toFinset = {person} := by
  ext i
  simp [has_single hlt, eq_comm]

theorem toFinset_such (hsize : size ≤ 32) :
    (such size test).toFinset = (Finset.range size).filter (test ·) := by
  ext person
  simp [has_such hsize]

theorem toFinset_eq_empty : g.toFinset = ∅ ↔ g = 0 := by
  rw [← toFinset_zero]
  exact toFinset_inj

theorem toFinset_members : g.members.toFinset = g.toFinset := by
  ext person
  simp only [mem_toFinset, members, List.mem_toFinset, List.mem_filter, List.mem_range]
  exact ⟨And.right, fun hg => ⟨lt_of_has hg, hg⟩⟩

theorem nodup_members (g : People) : g.members.Nodup :=
  List.nodup_range.filter g.has

theorem count_eq_card : g.count = g.toFinset.card := by
  rw [← toFinset_members, List.toFinset_card_of_nodup g.nodup_members]
  rfl

/-! ### Listing groups -/

/-- The groups that are chosen from some people are all those that are small enough. -/
theorem mem_choose (hnodup : l.Nodup) (hl : ∀ i ∈ l, i < 32) :
    g ∈ choose capacity l ↔ g.toFinset ⊆ l.toFinset ∧ g.toFinset.card ≤ capacity := by
  have hzero : ∀ l : List Nat, (0 : People).toFinset ⊆ l.toFinset := fun l => by simp
  induction l generalizing capacity g with
  | nil =>
    simp only [choose, List.mem_singleton, List.toFinset_nil, Finset.subset_empty, toFinset_eq_empty]
    refine ⟨?_, And.left⟩
    rintro rfl
    exact ⟨rfl, by simp⟩
  | cons person l ih =>
    obtain ⟨hperson, hl⟩ := List.forall_mem_cons.1 hl
    obtain ⟨hnew, hnodup⟩ := List.nodup_cons.1 hnodup
    cases capacity with
    | zero =>
      simp only [choose, List.mem_singleton, Nat.le_zero, Finset.card_eq_zero, toFinset_eq_empty]
      refine ⟨?_, And.right⟩
      rintro rfl
      exact ⟨hzero _, rfl⟩
    | succ capacity =>
      have hnew : person ∉ l.toFinset := fun hmem => hnew (List.mem_toFinset.1 hmem)
      have hwith : ∀ h : People, (single person ||| h).toFinset = insert person h.toFinset := by
        intro h
        rw [toFinset_or, toFinset_single hperson, ← Finset.insert_eq]
      simp only [choose, List.mem_append, List.mem_map, ih hnodup hl, List.toFinset_cons]
      constructor
      · rintro (⟨h, ⟨hsub, hcard⟩, rfl⟩ | ⟨hsub, hcard⟩)
        · rw [hwith]
          exact ⟨Finset.insert_subset_insert _ hsub,
            Nat.le_trans (Finset.card_insert_le _ _) (Nat.succ_le_succ hcard)⟩
        · exact ⟨hsub.trans (Finset.subset_insert _ _), hcard⟩
      · rintro ⟨hsub, hcard⟩
        by_cases hmem : person ∈ g.toFinset
        · -- The others in the group are chosen from the people who are left.
          have hothers : (g &&& ~~~single person : People).toFinset = g.toFinset.erase person := by
            rw [toFinset_and_not, toFinset_single hperson, Finset.sdiff_singleton_eq_erase]
          refine .inl ⟨g &&& ~~~single person, ⟨?_, ?_⟩, toFinset_inj.1 ?_⟩
          · rw [hothers]
            exact Finset.subset_insert_iff.1 hsub
          · rw [hothers, Finset.card_erase_of_mem hmem]
            omega
          · rw [hwith, hothers, Finset.insert_erase hmem]
        · exact .inr ⟨(Finset.subset_insert_iff_of_notMem hmem).1 hsub, hcard⟩

theorem mem_groups : g ∈ groups capacity people ↔
    g ≠ 0 ∧ g.toFinset ⊆ people.toFinset ∧ g.count ≤ capacity := by
  have hmembers : people.members.reverse.toFinset = people.toFinset := by
    rw [List.toFinset_reverse, toFinset_members]
  have hnodup : people.members.reverse.Nodup := List.nodup_reverse.2 people.nodup_members
  have hlt : ∀ i ∈ people.members.reverse, i < 32 := fun i hi =>
    List.mem_range.1 (List.mem_filter.1 (List.mem_reverse.1 hi)).1
  rw [groups_eq, List.mem_filter, mem_choose hnodup hlt, hmembers, decide_eq_true_eq, count_eq_card]
  exact and_comm

end StateSearch.Puzzle.People
