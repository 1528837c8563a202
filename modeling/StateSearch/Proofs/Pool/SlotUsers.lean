import Mathlib.Data.List.Basic
import StateSearch.Pool.SlotUsers

/-!
# Slots are written once

However the steps of its users are mixed, a slot gives the answers of a slot whose operations are made one
after the other, each at once, in the order in which the answers are given (`SlotUsers.Kept.serves`).
Everything else follows from what a slot does when it is used so (`Slot.Serves`): one value goes in at most,
what is in the slot stays there, and all who wait are told the same (`SlotUsers.written_once`).
-/

namespace StateSearch

variable {ι α : Type}

theorem SlotRecord.won_iff {record : SlotRecord ι α} :
    record.won = true ↔ record.answer = .tried true := by
  obtain ⟨user, operation, answer⟩ := record
  cases answer <;> simp [won]

/-! ### One operation after the other -/

namespace Slot

variable {slot next last : Slot α} {operation : SlotOperation α} {answer : SlotAnswer α}
  {records : List (SlotRecord ι α)}

/-- An operation that is made at once. Waiting without a time limit is possible only once the slot is
resolved. -/
def perform? (slot : Slot α) : SlotOperation α → Option (SlotAnswer α × Slot α)
  | .trySet value => some (.tried (slot.trySet value).1, (slot.trySet value).2)
  | .markExhausted => some (.marked, slot.markExhausted)
  | .isSet => some (.told slot.flag, slot)
  | .isResolved => some (.told slot.isResolved, slot)
  | .wait => slot.resolution?.map fun resolution => (.found (some resolution), slot)
  | .waitTimeout => some (.found slot.resolution?, slot)

/-- The operations, made one after the other, have these answers and leave the slot like this. -/
def Serves (slot : Slot α) : List (SlotRecord ι α) → Slot α → Prop
  | [], last => last = slot
  | record :: rest, last =>
    ∃ next, slot.perform? record.operation = some (record.answer, next) ∧ next.Serves rest last

theorem isResolved_iff : slot.isResolved = true ↔ slot.content ≠ .pending := by
  unfold isResolved
  cases slot.content <;> simp

theorem isResolved_eq : slot.isResolved = slot.resolution?.isSome := by
  unfold isResolved resolution?
  cases slot.content <;> rfl

theorem assign_of_pending (h : slot.content = .pending) (value : α) :
    slot.assign value = (true, ⟨.assigned value, true⟩) := by
  simp [assign, h]

theorem trySet_of_isResolved (h : slot.isResolved = true) (value : α) :
    slot.trySet value = (false, slot) := by
  rw [isResolved_iff] at h
  unfold trySet assign
  cases hc : slot.content <;> simp_all

theorem markExhausted_of_isResolved (h : slot.isResolved = true) : slot.markExhausted = slot := by
  rw [isResolved_iff] at h
  unfold markExhausted
  cases hc : slot.content <;> simp_all

/-- An operation on a resolved slot changes nothing. -/
theorem eq_of_perform?_of_isResolved (h : slot.isResolved = true)
    (hp : slot.perform? operation = some (answer, next)) : next = slot := by
  cases operation with
  | trySet value =>
    simp only [perform?, trySet_of_isResolved h, Option.some.injEq, Prod.mk.injEq] at hp
    exact hp.2.symm
  | markExhausted =>
    simp only [perform?, markExhausted_of_isResolved h, Option.some.injEq, Prod.mk.injEq] at hp
    exact hp.2.symm
  | wait =>
    obtain ⟨resolution, -, hp⟩ := Option.map_eq_some_iff.1 hp
    exact (Prod.mk.inj hp).2.symm
  | isSet | isResolved | waitTimeout => exact (Prod.mk.inj (Option.some.inj hp)).2.symm

/-- No value goes into a resolved slot. -/
theorem not_won_of_isResolved (h : slot.isResolved = true)
    (hp : slot.perform? operation = some (answer, next)) : answer ≠ .tried true := by
  rintro rfl
  cases operation with
  | trySet value => simp [perform?, trySet_of_isResolved h] at hp
  | wait => simp [perform?] at hp
  | _ => cases hp

/-- An operation that puts in a value leaves it in the slot. -/
theorem assigned_of_perform? (hp : slot.perform? operation = some (.tried true, next)) :
    ∃ value, operation = .trySet value ∧ next.content = .assigned value := by
  cases operation with
  | trySet value =>
    have hc : slot.content = .pending := by
      by_contra hc
      exact not_won_of_isResolved (isResolved_iff.2 hc) hp rfl
    refine ⟨value, rfl, ?_⟩
    cases hflag : slot.flag <;>
      simp only [perform?, trySet, hflag, Option.some.injEq, Prod.mk.injEq] at hp
    · simp only [Bool.false_eq_true, ↓reduceIte, assign_of_pending hc] at hp
      exact hp.2 ▸ rfl
    · simp at hp
  | wait => simp [perform?] at hp
  | _ => cases hp

/-- Whoever is told an outcome is told that of the slot. -/
theorem resolution?_of_perform? {resolution : Option α}
    (hp : slot.perform? operation = some (.found (some resolution), next)) :
    next = slot ∧ slot.resolution? = some resolution := by
  cases operation with
  | wait =>
    obtain ⟨found, hfound, hp⟩ := Option.map_eq_some_iff.1 hp
    obtain ⟨hanswer, rfl⟩ := Prod.mk.inj hp
    cases hanswer
    exact ⟨rfl, hfound⟩
  | waitTimeout =>
    obtain ⟨hanswer, rfl⟩ := Prod.mk.inj (Option.some.inj hp)
    exact ⟨rfl, SlotAnswer.found.inj hanswer⟩
  | _ => cases hp

theorem exhausted_of_perform? (hp : slot.perform? operation = some (answer, next))
    (h : next.content = .exhausted) :
    slot.content = .exhausted ∨ operation = .markExhausted := by
  cases operation with
  | trySet value =>
    refine .inl ?_
    obtain ⟨-, rfl⟩ := Prod.mk.inj (Option.some.inj hp)
    revert h
    unfold trySet assign
    split <;> [exact id; (split <;> simp_all)]
  | markExhausted => exact .inr rfl
  | wait =>
    obtain ⟨resolution, -, hp⟩ := Option.map_eq_some_iff.1 hp
    exact .inl ((Prod.mk.inj hp).2 ▸ h)
  | isSet | isResolved | waitTimeout => exact .inl ((Prod.mk.inj (Option.some.inj hp)).2 ▸ h)

namespace Serves

theorem append {more : List (SlotRecord ι α)} (h : slot.Serves records next)
    (hmore : next.Serves more last) : slot.Serves (records ++ more) last := by
  induction records generalizing slot with
  | nil => exact h ▸ hmore
  | cons record rest ih =>
    obtain ⟨between, hp, hrest⟩ := h
    exact ⟨between, hp, ih hrest⟩

/-- What is in a slot stays there, and nothing else goes in. -/
theorem of_isResolved (h : slot.Serves records last) (hslot : slot.isResolved = true) :
    last = slot ∧ ∀ record ∈ records, ¬ record.won = true := by
  induction records with
  | nil => exact ⟨h, by simp⟩
  | cons record rest ih =>
    obtain ⟨next, hp, hrest⟩ := h
    obtain rfl := eq_of_perform?_of_isResolved hslot hp
    obtain ⟨hlast, hnone⟩ := ih hrest
    have hfirst := mt SlotRecord.won_iff.1 (not_won_of_isResolved hslot hp)
    exact ⟨hlast, List.forall_mem_cons.2 ⟨hfirst, hnone⟩⟩

/-- A value in the slot was put in by somebody. -/
theorem exists_winner (h : slot.Serves records last) {value : α} (hslot : slot.content = .pending)
    (hlast : last.content = .assigned value) :
    ∃ record ∈ records, record.operation = .trySet value ∧ record.won = true := by
  induction records generalizing slot with
  | nil =>
    obtain rfl : last = slot := h
    cases hslot.symm.trans hlast
  | cons first rest ih =>
    obtain ⟨next, hp, hrest⟩ := h
    by_cases hnext : next.content = .pending
    · obtain ⟨record, hr, hwon⟩ := ih hrest hnext
      exact ⟨record, List.mem_cons_of_mem _ hr, hwon⟩
    · obtain rfl := (hrest.of_isResolved (isResolved_iff.2 hnext)).1
      refine ⟨first, List.mem_cons_self, ?_⟩
      cases hop : first.operation <;> rw [hop] at hp
      case trySet offered =>
        cases hflag : slot.flag <;>
          simp only [perform?, trySet, hflag, Bool.false_eq_true, ↓reduceIte, assign, hslot,
            Option.some.injEq, Prod.mk.injEq] at hp
        · obtain ⟨hanswer, rfl⟩ := hp
          exact ⟨congrArg _ (SlotContent.assigned.inj hlast), SlotRecord.won_iff.2 hanswer.symm⟩
        · exact absurd (hp.2 ▸ hslot) hnext
      case markExhausted =>
        simp only [perform?, markExhausted, hslot, Option.some.injEq, Prod.mk.injEq] at hp
        rw [← hp.2] at hlast
        cases hlast
      case wait =>
        obtain ⟨resolution, -, hp⟩ := Option.map_eq_some_iff.1 hp
        exact absurd ((Prod.mk.inj hp).2 ▸ hslot) hnext
      all_goals exact absurd ((Prod.mk.inj (Option.some.inj hp)).2 ▸ hslot) hnext

/-- Whoever said that nobody will put in a value is among those who were answered. -/
theorem exists_marked (h : slot.Serves records last) (hslot : slot.content ≠ .exhausted)
    (hlast : last.content = .exhausted) : ∃ record ∈ records, record.operation = .markExhausted := by
  induction records generalizing slot with
  | nil =>
    obtain rfl : last = slot := h
    exact absurd hlast hslot
  | cons first rest ih =>
    obtain ⟨next, hp, hrest⟩ := h
    by_cases hnext : next.content = .exhausted
    · exact ⟨first, List.mem_cons_self, (exhausted_of_perform? hp hnext).resolve_left hslot⟩
    · obtain ⟨record, hr, hmarked⟩ := ih hrest hnext
      exact ⟨record, List.mem_cons_of_mem _ hr, hmarked⟩

/-- Whoever is told an outcome is told the one that the slot has in the end. -/
theorem resolution? (h : slot.Serves records last) {record : SlotRecord ι α} (hr : record ∈ records)
    {resolution : Option α} (hfound : record.answer = .found (some resolution)) :
    last.resolution? = some resolution := by
  induction records generalizing slot with
  | nil => cases hr
  | cons first rest ih =>
    obtain ⟨next, hp, hrest⟩ := h
    rcases List.mem_cons.1 hr with rfl | hr
    · obtain ⟨rfl, hslot⟩ := resolution?_of_perform? (hfound ▸ hp)
      have hresolved : next.isResolved = true := by rw [isResolved_eq, hslot]; rfl
      exact (hrest.of_isResolved hresolved).1 ▸ hslot
    · exact ih hrest hr

/-- At most one value goes in. -/
theorem won_at_most_once (h : slot.Serves records last) : records.countP SlotRecord.won ≤ 1 := by
  induction records generalizing slot with
  | nil => simp
  | cons first rest ih =>
    obtain ⟨next, hp, hrest⟩ := h
    by_cases hwon : first.won = true
    · obtain ⟨value, -, hnext⟩ := assigned_of_perform? (SlotRecord.won_iff.1 hwon ▸ hp)
      have hnone := (hrest.of_isResolved (isResolved_iff.2 (by simp [hnext]))).2
      rw [List.countP_cons_of_pos hwon]
      exact Nat.succ_le_succ (Nat.le_of_eq (List.countP_eq_zero.2 hnone))
    · rw [List.countP_cons_of_neg hwon]
      exact ih hrest

end Serves

end Slot

/-! ### Steps of the users -/

namespace SlotUsers

section

variable {users : SlotUsers ι α}

/-- The slot as those see it who use it one after the other: a value is there once its flag is up. -/
def visible (users : SlotUsers ι α) : Slot α :=
  if users.holder.isSome then {} else users.slot

/-- What a user does at a step is what it was ready to do. -/
structure Kept (users : SlotUsers ι α) : Prop where
  /-- Whoever is about to raise the flag has locked the slot and written its value. -/
  raising : ∀ user value, users.activity user = .raising value →
    users.holder = some user ∧ users.slot = ⟨.assigned value, false⟩
  /-- Whoever has locked the slot is about to raise the flag. -/
  holder : ∀ user, users.holder = some user → ∃ value, users.activity user = .raising value
  flag : users.holder = none →
    (users.slot.flag = true ↔ ∃ value, users.slot.content = .assigned value)

theorem woken_eq_raising {activity : SlotActivity α} {value : α} :
    activity.woken = .raising value ↔ activity = .raising value := by
  cases activity with
  | asleep isLimited => cases isLimited <;> simp [SlotActivity.woken]
  | _ => simp [SlotActivity.woken]

theorem visible_of_unlocked (h : users.holder = none) : users.visible = users.slot := by
  simp [visible, h]

/-- A slot with an outcome is not locked. -/
theorem slot_eq_visible {resolution : Option α} (h : users.visible.resolution? = some resolution) :
    users.slot = users.visible := by
  by_cases hlocked : users.holder.isSome
  · simp [visible, hlocked, Slot.resolution?] at h
  · simp [visible, hlocked]

namespace Kept

theorem start : Kept ({} : SlotUsers ι α) :=
  ⟨by simp, by simp, by simp⟩

theorem flag_of_locked (h : users.Kept) (hlocked : users.holder ≠ none) :
    users.slot.flag = false := by
  obtain ⟨user, huser⟩ := Option.ne_none_iff_exists'.1 hlocked
  obtain ⟨value, hvalue⟩ := h.holder user huser
  rw [(h.raising user value hvalue).2]

/-- Nobody is about to raise the flag of an unlocked slot. -/
theorem not_raising (h : users.Kept) (hunlocked : users.holder = none) (other : ι) (value : α) :
    users.activity other ≠ .raising value := fun hother => by
  have hholder := (h.raising other value hother).1
  simp [hunlocked] at hholder

/-- The flag is never up without a value. -/
theorem assigned_of_flag (h : users.Kept) (hflag : users.slot.flag = true) :
    ∃ value, users.slot.content = .assigned value := by
  by_cases hunlocked : users.holder = none
  · exact (h.flag hunlocked).1 hflag
  · simp [h.flag_of_locked hunlocked] at hflag

theorem flag_visible (h : users.Kept) : users.visible.flag = users.slot.flag := by
  unfold visible
  split
  · next hlocked => exact (h.flag_of_locked (Option.isSome_iff_ne_none.1 hlocked)).symm
  · rfl

/-- The flag of a pending slot is down. -/
theorem visible_of_pending (h : users.Kept) (hunlocked : users.holder = none)
    (hpending : users.slot.content = .pending) : users.visible = {} := by
  have hflag : users.slot.flag = false := by
    rw [Bool.eq_false_iff, ne_eq, h.flag hunlocked]
    simp [hpending]
  rw [visible_of_unlocked hunlocked]
  obtain ⟨⟨content, flag⟩, holder, activity⟩ := users
  simp_all

end Kept

end

variable [DecidableEq ι] {users after : SlotUsers ι α} {user : ι} {event : SlotEvent α}
  {record? : Option (SlotRecord ι α)} {records : List (SlotRecord ι α)}
  {events : List (ι × SlotEvent α)}

@[simp] theorem activity_turnTo_self {activity : SlotActivity α} :
    (users.turnTo user activity).activity user = activity := by
  simp [turnTo]

theorem activity_turnTo_of_ne {activity : SlotActivity α} {other : ι} (h : other ≠ user) :
    (users.turnTo user activity).activity other = users.activity other := by
  simp [turnTo, h]

namespace Kept

/-- A user who does not raise the flag turns to something else. -/
theorem turnTo (h : users.Kept) {activity : SlotActivity α}
    (hbefore : ∀ value, users.activity user ≠ .raising value)
    (hafter : ∀ value, activity ≠ .raising value) : (users.turnTo user activity).Kept where
  raising other value hother := by
    by_cases heq : other = user
    · subst heq
      exact absurd (activity_turnTo_self.symm.trans hother) (hafter value)
    · exact h.raising other value ((activity_turnTo_of_ne heq).symm.trans hother)
  holder other hother := by
    obtain ⟨value, hvalue⟩ := h.holder other hother
    have heq : other ≠ user := fun heq => hbefore value (heq ▸ hvalue)
    exact ⟨value, (activity_turnTo_of_ne heq).trans hvalue⟩
  flag := h.flag

/-- A user who does not raise the flag is done, and nothing has happened to the slot. -/
theorem idle (h : users.Kept) (hbefore : ∀ value, users.activity user ≠ .raising value) :
    (users.turnTo user .idle).Kept :=
  h.turnTo hbefore (by simp)

/-- What a step has to come to: what it does to the slot is what the operation that it ends does to a slot
that nobody else uses. -/
def Served (users : SlotUsers ι α) (outcome : Outcome ι α) : Prop :=
  outcome.2.Kept ∧ users.visible.Serves outcome.1.toList outcome.2.visible

/-- A user is answered, and nothing happens to the slot. -/
theorem finish (h : users.Kept) (hbefore : ∀ value, users.activity user ≠ .raising value)
    {operation : SlotOperation α} {answer : SlotAnswer α}
    (hanswer : users.visible.perform? operation = some (answer, users.visible)) :
    Served users (users.finish user operation answer) :=
  ⟨h.idle hbefore, users.visible, hanswer, rfl⟩

/-- A user gets on, and nothing happens to the slot. -/
theorem getOn (h : users.Kept) (hbefore : ∀ value, users.activity user ≠ .raising value)
    {activity : SlotActivity α} (hafter : ∀ value, activity ≠ .raising value) :
    Served users (none, users.turnTo user activity) :=
  ⟨h.turnTo hbefore hafter, rfl⟩

theorem look (h : users.Kept) (hunlocked : users.holder = none) {operation : SlotOperation α}
    (hoperation : operation = .wait ∨ operation = .waitTimeout) (isLimited : Bool) :
    Served users (users.look user operation isLimited) := by
  unfold SlotUsers.look
  split
  · next resolution hresolution =>
    refine h.finish (h.not_raising hunlocked user) ?_
    rw [visible_of_unlocked hunlocked]
    rcases hoperation with rfl | rfl <;> simp [Slot.perform?, hresolution]
  · exact h.getOn (h.not_raising hunlocked user) (by simp)

theorem exhaust (h : users.Kept) (hunlocked : users.holder = none) :
    Served users (users.exhaust user) := by
  by_cases hresolved : users.slot.isResolved = true
  · have hslot : users.slot.markExhausted = users.slot := Slot.markExhausted_of_isResolved hresolved
    simp only [SlotUsers.exhaust, hresolved, ↓reduceIte, hslot]
    refine h.finish (h.not_raising hunlocked user) ?_
    rw [visible_of_unlocked hunlocked, Slot.perform?, hslot]
  · have hpending : users.slot.content = .pending := not_not.1 (mt Slot.isResolved_iff.2 hresolved)
    have hvisible := h.visible_of_pending hunlocked hpending
    have hslot : users.slot = {} := (visible_of_unlocked hunlocked).symm.trans hvisible
    have hmarked : users.slot.markExhausted = ⟨.exhausted, false⟩ := by rw [hslot]; rfl
    simp only [SlotUsers.exhaust, hresolved, hmarked]
    constructor
    · refine Kept.idle ⟨fun other value hother => ?_, fun other hother => ?_, by simp [wakeAll]⟩ ?_
      · exact absurd (woken_eq_raising.1 hother) (h.not_raising hunlocked other value)
      · simp [wakeAll, hunlocked] at hother
      · exact fun value hother => h.not_raising hunlocked user value (woken_eq_raising.1 hother)
    · refine ⟨_, ?_, rfl⟩
      rw [hvisible]
      simp [SlotUsers.finish, Slot.perform?, Slot.markExhausted, visible, wakeAll, SlotUsers.turnTo,
        hunlocked]

theorem offer (h : users.Kept) (hunlocked : users.holder = none) (value : α) :
    Served users (users.offer user value) := by
  by_cases hpending : users.slot.content = .pending
  · have hvisible := h.visible_of_pending hunlocked hpending
    have hslot : users.slot = {} := (visible_of_unlocked hunlocked).symm.trans hvisible
    simp only [SlotUsers.offer, hpending]
    refine ⟨⟨fun other value' hother => ?_, fun other hother => ?_, by simp [SlotUsers.turnTo]⟩, ?_⟩
    · by_cases heq : other = user
      · subst heq
        obtain rfl := SlotActivity.raising.inj (activity_turnTo_self.symm.trans hother)
        simp [SlotUsers.turnTo, hslot]
      · exact absurd ((activity_turnTo_of_ne heq).symm.trans hother)
          (h.not_raising hunlocked other value')
    · obtain rfl : user = other := Option.some.inj hother
      exact ⟨value, activity_turnTo_self⟩
    · rw [hvisible]
      simp [Slot.Serves, visible, SlotUsers.turnTo]
  · have hresolved : users.slot.isResolved = true := Slot.isResolved_iff.2 hpending
    have houtcome : users.offer user value = users.finish user (.trySet value) (.tried false) := by
      unfold SlotUsers.offer
      split <;> simp_all
    rw [houtcome]
    refine h.finish (h.not_raising hunlocked user) ?_
    rw [visible_of_unlocked hunlocked, Slot.perform?, Slot.trySet_of_isResolved hresolved]

theorem raise (h : users.Kept) {value : α} (hraising : users.activity user = .raising value) :
    Served users (users.raise user value) := by
  obtain ⟨hholder, hslot⟩ := h.raising user value hraising
  have hothers : ∀ other value', other ≠ user → users.activity other ≠ .raising value' :=
    fun other value' hne hother => hne (Option.some.inj ((h.raising other value' hother).1.symm.trans hholder))
  constructor
  · refine ⟨fun other value' hother => ?_, fun other hother => ?_, ?_⟩
    · by_cases heq : other = user
      · subst heq
        cases activity_turnTo_self.symm.trans hother
      · have hwoken := (activity_turnTo_of_ne heq).symm.trans hother
        exact absurd (woken_eq_raising.1 hwoken) (hothers other value' heq)
    · cases hother
    · simp [SlotUsers.raise, SlotUsers.finish, SlotUsers.turnTo, wakeAll, hslot]
  · refine ⟨_, ?_, rfl⟩
    simp [SlotUsers.raise, SlotUsers.finish, Slot.perform?, visible, hholder, hslot, SlotUsers.turnTo,
      wakeAll, Slot.trySet, Slot.assign]

theorem begin (h : users.Kept) {operation : SlotOperation α} {outcome : Outcome ι α}
    (hready : users.activity user = .ready operation)
    (hstart : users.start user operation = some outcome) : Served users outcome := by
  have hbefore : ∀ value, users.activity user ≠ .raising value := by simp [hready]
  cases operation with
  | trySet value =>
    simp only [SlotUsers.start, Option.some.injEq] at hstart
    subst hstart
    split
    · next hflag =>
      have hvisible : users.visible.flag = true := h.flag_visible.trans hflag
      exact h.finish hbefore (by simp [Slot.perform?, Slot.trySet, hvisible])
    · exact h.getOn hbefore (by simp)
  | isSet =>
    cases hstart
    exact h.finish hbefore (by simp [Slot.perform?, h.flag_visible])
  | markExhausted | isResolved | wait | waitTimeout =>
    obtain ⟨hunlocked, hstart⟩ := Option.ite_none_left_eq_some.1 hstart
    replace hunlocked : users.holder = none := by simpa using hunlocked
    cases hstart
    first
    | exact h.exhaust hunlocked
    | exact h.look hunlocked (by simp) _
    | exact h.finish hbefore (by simp [Slot.perform?, visible_of_unlocked hunlocked])

/-- Every step is one of a user among others that could as well be alone. -/
theorem step (h : users.Kept) (hstep : users.step user event = some (record?, after)) :
    after.Kept ∧ users.visible.Serves record?.toList after.visible := by
  change Served users (record?, after)
  unfold SlotUsers.step at hstep
  split at hstep
  · next operation hidle =>
    cases hstep
    exact h.getOn (by simp [hidle]) (by simp)
  · next operation hready => exact h.begin hready hstep
  · next value hoffering =>
    obtain ⟨hunlocked, hstep⟩ := Option.ite_none_left_eq_some.1 hstep
    rw [← Option.some.inj hstep]
    exact h.offer (by simpa using hunlocked) value
  · next value hraising =>
    cases hstep
    exact h.raise hraising
  · next hlate =>
    obtain ⟨hunlocked, hstep⟩ := Option.ite_none_left_eq_some.1 hstep
    replace hunlocked : users.holder = none := by simpa using hunlocked
    cases hstep
    exact h.finish (by simp [hlate]) (by simp [Slot.perform?, visible_of_unlocked hunlocked])
  · next isLimited hasleep =>
    cases hstep
    exact h.getOn (by simp [hasleep]) fun value hwoken => by cases woken_eq_raising.1 hwoken
  · next hasleep =>
    cases hstep
    exact h.getOn (by simp [hasleep]) (by simp)
  · cases hstep

end Kept

/-- What a step leaves alone. A pending slot is marked as exhausted or somebody enters with a value, and
the others go on as before, or are woken. -/
structure Frame (users : SlotUsers ι α) (user : ι) (event : SlotEvent α)
    (after : SlotUsers ι α) : Prop where
  content : after.slot.content = users.slot.content ∨
    users.slot.content = .pending ∧ (after.slot.content = .exhausted ∨ event = .enter)
  others : ∀ other, other ≠ user → after.activity other = users.activity other ∨
    after.activity other = (users.activity other).woken

namespace Frame

theorem turnTo {activity : SlotActivity α} : Frame users user event (users.turnTo user activity) :=
  ⟨.inl rfl, fun _ hne => .inl (activity_turnTo_of_ne hne)⟩

theorem look {operation : SlotOperation α} {isLimited : Bool} :
    Frame users user event (users.look user operation isLimited).2 := by
  unfold SlotUsers.look
  split <;> exact .turnTo

theorem exhaust : Frame users user event (users.exhaust user).2 := by
  by_cases hresolved : users.slot.isResolved = true
  · simp only [SlotUsers.exhaust, hresolved, Slot.markExhausted_of_isResolved]
    exact .turnTo
  · have hpending : users.slot.content = .pending := not_not.1 (mt Slot.isResolved_iff.2 hresolved)
    simp only [SlotUsers.exhaust, hresolved]
    refine ⟨.inr ⟨hpending, .inl ?_⟩, fun _ hne => .inr (activity_turnTo_of_ne hne)⟩
    simp [finish, SlotUsers.turnTo, wakeAll, Slot.markExhausted, hpending]

theorem offer {value : α} : Frame users user .enter (users.offer user value).2 := by
  unfold SlotUsers.offer
  split
  · next hpending => exact ⟨.inr ⟨hpending, .inr rfl⟩, fun _ hne => .inl (activity_turnTo_of_ne hne)⟩
  · exact .turnTo

theorem raise {value : α} : Frame users user event (users.raise user value).2 :=
  ⟨.inl rfl, fun _ hne => .inr (activity_turnTo_of_ne hne)⟩

theorem begin {operation : SlotOperation α} {outcome : Outcome ι α}
    (hstart : users.start user operation = some outcome) : Frame users user event outcome.2 := by
  cases operation with
  | trySet value =>
    cases hstart
    split <;> exact .turnTo
  | isSet =>
    cases hstart
    exact .turnTo
  | markExhausted | isResolved | wait | waitTimeout =>
    obtain ⟨-, hstart⟩ := Option.ite_none_left_eq_some.1 hstart
    rw [← Option.some.inj hstart]
    first
    | exact .exhaust
    | exact .look
    | exact .turnTo

end Frame

theorem step_frame (hstep : users.step user event = some (record?, after)) :
    Frame users user event after := by
  change Frame users user event (record?, after).2
  unfold step at hstep
  split at hstep
  · rw [← Option.some.inj hstep]
    exact .turnTo
  · exact .begin hstep
  · rw [← Option.some.inj (Option.ite_none_left_eq_some.1 hstep).2]
    exact .offer
  · rw [← Option.some.inj hstep]
    exact .raise
  · rw [← Option.some.inj (Option.ite_none_left_eq_some.1 hstep).2]
    exact .turnTo
  · rw [← Option.some.inj hstep]
    exact .turnTo
  · rw [← Option.some.inj hstep]
    exact .turnTo
  · cases hstep

/-! ### Runs -/

theorem run_cons : users.run ((user, event) :: events) = some (records, after) ↔
    ∃ record? next later, users.step user event = some (record?, next) ∧
      next.run events = some (later, after) ∧ records = record?.toList ++ later := by
  simp only [run, Option.bind_eq_bind, Option.bind_eq_some_iff, Prod.exists, Option.some.injEq,
    Prod.mk.injEq]
  constructor
  · rintro ⟨record?, next, hstep, later, _, hrun, rfl, rfl⟩
    exact ⟨record?, next, later, hstep, hrun, rfl⟩
  · rintro ⟨record?, next, later, hstep, hrun, rfl⟩
    exact ⟨record?, next, hstep, later, after, hrun, rfl, rfl⟩

/-- A run gives the answers of operations made one after the other. -/
theorem Kept.run (h : users.Kept) (hrun : users.run events = some (records, after)) :
    after.Kept ∧ users.visible.Serves records after.visible := by
  induction events generalizing users records with
  | nil =>
    cases hrun
    exact ⟨h, rfl⟩
  | cons first rest ih =>
    obtain ⟨record?, next, later, hstep, hrest, rfl⟩ := run_cons.1 hrun
    obtain ⟨hnext, hserves⟩ := h.step hstep
    obtain ⟨hafter, hlater⟩ := ih hnext hrest
    exact ⟨hafter, hserves.append hlater⟩

/-- Once something is in the slot it stays there. -/
theorem content_of_run (hrun : users.run events = some (records, after))
    (hcontent : users.slot.content ≠ .pending) : after.slot.content = users.slot.content := by
  induction events generalizing users records with
  | nil =>
    cases hrun
    rfl
  | cons first rest ih =>
    obtain ⟨record?, next, later, hstep, hrest, rfl⟩ := run_cons.1 hrun
    have hnext := (step_frame hstep).content.resolve_right fun h => hcontent h.1
    exact (ih hrest (hnext ▸ hcontent)).trans hnext

/-- No value is in the slot as long as nobody has entered with one. -/
theorem not_assigned_of_run (hrun : users.run events = some (records, after))
    (hevents : ∀ user, (user, .enter) ∉ events) (h : ∀ value, users.slot.content ≠ .assigned value) :
    ∀ value, after.slot.content ≠ .assigned value := by
  induction events generalizing users records with
  | nil =>
    cases hrun
    exact h
  | cons first rest ih =>
    obtain ⟨record?, next, later, hstep, hrest, rfl⟩ := run_cons.1 hrun
    refine ih hrest (fun user huser => hevents user (List.mem_cons_of_mem _ huser)) fun value => ?_
    rcases (step_frame hstep).content with heq | ⟨-, heq | henter⟩
    · exact heq ▸ h value
    · simp [heq]
    · exact absurd (henter ▸ List.mem_cons_self) (hevents first.1)

/-- Whoever enters while the slot is pending writes its value. -/
theorem raising_of_enter (hpending : users.slot.content = .pending)
    (hstep : users.step user .enter = some (record?, after)) :
    ∃ value, after.slot.content = .assigned value ∧ after.activity user = .raising value := by
  cases hactivity : users.activity user <;> simp only [step, hactivity, reduceCtorEq] at hstep
  next value =>
    obtain ⟨-, hstep⟩ := Option.ite_none_left_eq_some.1 hstep
    simp only [offer, hpending, Option.some.injEq, Prod.mk.injEq] at hstep
    obtain ⟨-, rfl⟩ := hstep
    exact ⟨value, rfl, activity_turnTo_self⟩

/-- A user who is about to raise the flag is answered at its next step, whatever the others do until
then. -/
theorem raising_of_run {value : α} (hraising : users.activity user = .raising value)
    (hrun : users.run events = some (records, after)) :
    after.activity user = .raising value ∨ ⟨user, .trySet value, .tried true⟩ ∈ records := by
  induction events generalizing users records with
  | nil =>
    cases hrun
    exact .inl hraising
  | cons first rest ih =>
    obtain ⟨other, event⟩ := first
    obtain ⟨record?, next, later, hstep, hrest, rfl⟩ := run_cons.1 hrun
    by_cases heq : user = other
    · subst heq
      cases event <;> simp only [step, hraising, reduceCtorEq, Option.some.injEq] at hstep
      cases hstep
      exact .inr List.mem_cons_self
    · have hnext : next.activity user = .raising value := by
        rcases (step_frame hstep).others user heq with h | h
        · exact h.trans hraising
        · exact h.trans (woken_eq_raising.2 hraising)
      exact (ih hnext hrest).imp_right fun h => List.mem_append_right _ h

/-- The answers of a run are those of the operations made one after the other, in the order in which they
are given. One value goes in at most. What is in the slot stays there. A flag that is up has a value
behind it. All who wait are told what the slot holds in the end: the value that went in, or that nobody
will put one in. If nothing was in the slot by then, the first who enters is the one whose value goes
in. -/
theorem written_once (hrun : ({} : SlotUsers ι α).run events = some (records, users)) :
    ({} : Slot α).Serves records users.visible ∧
    records.countP SlotRecord.won ≤ 1 ∧
    (∀ more records' later, users.run more = some (records', later) →
      users.slot.content ≠ .pending → later.slot.content = users.slot.content) ∧
    (∀ user after, users.step user .act = some (some ⟨user, .isSet, .told true⟩, after) →
      ∃ value, users.slot.content = .assigned value) ∧
    (∀ record ∈ records, ∀ resolution, record.answer = .found (some resolution) →
      users.slot.resolution? = some resolution ∧ users.slot.value? = resolution ∧
        match resolution with
        | some value => ∃ winner ∈ records, winner.operation = .trySet value ∧ winner.won = true
        | none => ∃ marked ∈ records, marked.operation = .markExhausted) ∧
    ∀ user record? later, (∀ other, (other, .enter) ∉ events) →
      users.slot.content ≠ .exhausted → users.step user .enter = some (record?, later) →
      ∃ value, later.slot.content = .assigned value ∧
        ∀ more records' last, later.run more = some (records', last) →
          (last.step user .act).map Prod.fst = some (some ⟨user, .trySet value, .tried true⟩) ∨
            ⟨user, .trySet value, .tried true⟩ ∈ records' := by
  obtain ⟨hkept, hserves⟩ := Kept.start.run hrun
  refine ⟨hserves, hserves.won_at_most_once, fun more records' later => content_of_run, ?_, ?_, ?_⟩
  · intro user after hstep
    obtain ⟨-, next, hp, -⟩ := hkept.step hstep
    have hvisible : users.visible.flag = true :=
      SlotAnswer.told.inj (Prod.mk.inj (Option.some.inj hp)).1
    exact hkept.assigned_of_flag (hkept.flag_visible.symm.trans hvisible)
  · intro record hr resolution hfound
    have hvisible := hserves.resolution? hr hfound
    refine ⟨?_, ?_, ?_⟩
    · exact slot_eq_visible hvisible ▸ hvisible
    · rw [slot_eq_visible hvisible, Slot.value?, hvisible]
      rfl
    · cases resolution with
      | some value => exact hserves.exists_winner rfl (Slot.content_of_resolution? hvisible)
      | none => exact hserves.exists_marked (by simp [visible]) (Slot.content_of_resolution? hvisible)
  · intro user record? later hevents hcontent hstep
    have hpending : users.slot.content = .pending := by
      cases hslot : users.slot.content with
      | pending => rfl
      | assigned value => exact absurd hslot (not_assigned_of_run hrun hevents (by simp) value)
      | exhausted => exact absurd hslot hcontent
    obtain ⟨value, hslot, hraising⟩ := raising_of_enter hpending hstep
    refine ⟨value, hslot, fun more records' last hmore => ?_⟩
    refine (raising_of_run hraising hmore).imp_left fun hlast => ?_
    simp [step, hlast, raise, finish]

/-- A user waits while two others come with a value: both see the flag down, and the second to enter is
too late. -/
def crowd : List (Fin 3 × SlotEvent Nat) :=
  [(0, .call .wait), (0, .act), (1, .call (.trySet 7)), (2, .call (.trySet 8)), (2, .act), (1, .act),
    (1, .enter), (1, .act), (2, .enter), (0, .act)]

theorem crowd_written_once : ∃ users, ({} : SlotUsers (Fin 3) Nat).run crowd = some
      ([⟨1, .trySet 7, .tried true⟩, ⟨2, .trySet 8, .tried false⟩, ⟨0, .wait, .found (some (some 7))⟩],
        users) ∧
    users.slot.value? = some 7 ∧
    ∀ more records' later, users.run more = some (records', later) →
      later.slot.content = users.slot.content := by
  refine ⟨_, rfl, rfl, fun more records' later hmore => ?_⟩
  have hcrowd := written_once (rfl : SlotUsers.run {} crowd = some (_, _))
  exact hcrowd.2.2.1 more records' later hmore (by decide)

end SlotUsers

end StateSearch
