import StateSearch.Proofs.BestFirst
import Mathlib.Data.Finset.Card

/-!
# The closed list as a record of states

A closed list is one map, and every call reaches it through a view at some path cost. Whatever was called
before, the map files each state at the least cost it was inserted at (`ClosedAt.Remembers`). So a view knows
the states that were inserted at its cost or below it, and an insertion succeeds if all earlier ones of the
same state were dearer (`ClosedAt.recollection`).
-/

namespace StateSearch

namespace ClosedAt

/-! ### One insertion -/

section Insertion

variable {S : Type} [DecidableEq S] [Hashable S] {best : Std.HashMap S Cost} {s t : S} {c : Cost}

/-- The entry of the state is looked up once: a dearer one is replaced, another one stays, and a missing one
is made. -/
theorem insert_eq (closed : ClosedAt S) (s : S) : closed.insert s =
    match closed.best[s]? with
    | some known =>
      if closed.cost < known then (true, { closed with best := closed.best.insert s closed.cost })
      else (false, closed)
    | none => (true, { closed with best := closed.best.insert s closed.cost }) := by
  unfold insert holds
  cases closed.best[s]? with
  | none => rfl
  | some known => by_cases h : known ≤ closed.cost <;> simp [h, UInt64.not_le.1, UInt64.not_lt.2]

theorem insert_fst : (insert ⟨best, c⟩ s).1 = !holds best s c := by
  unfold insert
  split <;> simp_all

/-- The state is filed at the lesser cost, and no other state is touched. -/
theorem getElem?_insert : (insert ⟨best, c⟩ s).2.best[t]? =
    if s = t then some (best[s]?.elim c (min · c)) else best[t]? := by
  rw [insert_eq]
  dsimp only
  cases hs : best[s]? with
  | none => simp [Std.HashMap.getElem?_insert]
  | some known =>
    rw [Option.elim_some, Std.min_eq_if]
    by_cases hlt : c < known
    · simp [hlt, Std.HashMap.getElem?_insert, UInt64.not_le.2 hlt]
    · by_cases hst : s = t
      · subst hst
        simp [hlt, hs, UInt64.not_lt.1 hlt]
      · simp [hlt, hst]

theorem size_insert : (insert ⟨best, c⟩ s).2.best.size = if s ∈ best then best.size else best.size + 1 := by
  rw [insert_eq]
  dsimp only
  cases hs : best[s]? with
  | none => exact Std.HashMap.size_insert
  | some known =>
    have hm : s ∈ best := Std.HashMap.mem_iff_isSome_getElem?.2 (by rw [hs]; rfl)
    by_cases hlt : c < known <;> simp [hlt, Std.HashMap.size_insert, hm]

end Insertion

/-! ### What was called -/

/-- A call that reaches the map through a view at the cost `c`. -/
inductive Access (S : Type) where
  | insert (s : S) (c : Cost)
  | contains (s : S) (c : Cost)

variable {S : Type}

namespace Access

def cost : Access S → Cost
  | insert _ c => c
  | contains _ c => c

def insertion? : Access S → Option (S × Cost)
  | insert s c => some (s, c)
  | contains .. => none

end Access

/-- The states that were inserted, with the costs of their views. -/
def insertions (calls : List (Access S)) : List (S × Cost) := calls.filterMap Access.insertion?

def inserted (calls : List (Access S)) : List S := (insertions calls).map Prod.fst

theorem insertions_concat (calls : List (Access S)) (call : Access S) :
    insertions (calls ++ [call]) = insertions calls ++ call.insertion?.toList := by
  rw [insertions, List.filterMap_append]
  cases call <;> rfl

variable [DecidableEq S] {calls : List (Access S)} {s t : S} {c : Cost}

def costs (calls : List (Access S)) (s : S) : List Cost :=
  ((insertions calls).filter (·.1 = s)).map Prod.snd

theorem costs_concat (calls : List (Access S)) :
    costs (calls ++ [.insert s c]) t = costs calls t ++ if s = t then [c] else [] := by
  simp only [costs, insertions_concat, Access.insertion?, Option.toList_some, List.filter_append,
    List.map_append]
  by_cases h : s = t <;> simp [h]

theorem costs_eq_nil : costs calls s = [] ↔ s ∉ inserted calls := by
  simp only [costs, inserted, List.map_eq_nil_iff, List.filter_eq_nil_iff, List.mem_map, decide_eq_true_eq]
  exact ⟨fun h ⟨entry, hm, hs⟩ => h entry hm hs, fun h entry hm hs => h ⟨entry, hm, hs⟩⟩

/-! ### What is remembered -/

variable [Hashable S] {best : Std.HashMap S Cost}

/-- The answer, and the map that is left. -/
def Access.on (best : Std.HashMap S Cost) : Access S → Bool × Std.HashMap S Cost
  | insert s c =>
    let (absent, closed) := SeenSet.insert (⟨best, c⟩ : ClosedAt S) s
    (absent, closed.best)
  | contains s c => (SeenSet.contains (⟨best, c⟩ : ClosedAt S) s, best)

/-- The map after these calls on an empty one. -/
def after (calls : List (Access S)) : Std.HashMap S Cost :=
  calls.foldl (fun best call => (call.on best).2) ∅

theorem after_concat (calls : List (Access S)) (call : Access S) :
    after (calls ++ [call]) = (call.on (after calls)).2 :=
  List.foldl_concat ..

/-- Each state that was inserted is filed once, at the least of its costs. -/
structure Remembers (best : Std.HashMap S Cost) (calls : List (Access S)) : Prop where
  least : ∀ s, best[s]? = (costs calls s).min?
  size : best.size = (inserted calls).toFinset.card

theorem Remembers.mem_iff (h : Remembers best calls) : s ∈ best ↔ s ∈ inserted calls := by
  rw [Std.HashMap.mem_iff_isSome_getElem?, h.least, ← not_iff_not, ← costs_eq_nil]
  cases costs calls s <;> simp

theorem min?_concat (costs : List Cost) (c : Cost) :
    (costs ++ [c]).min? = some (costs.min?.elim c (min · c)) := by
  cases costs with
  | nil => rfl
  | cons d costs => rw [List.cons_append, List.min?_cons', List.min?_cons', List.foldl_concat, Option.elim_some]

theorem Remembers.on (h : Remembers best calls) (call : Access S) :
    Remembers (call.on best).2 (calls ++ [call]) := by
  cases call with
  | contains s c =>
    have hsame : insertions (calls ++ [.contains s c]) = insertions calls := by
      simp [insertions_concat, Access.insertion?]
    refine ⟨fun t => ?_, ?_⟩
    · rw [costs, hsame]
      exact h.least t
    · rw [inserted, hsame]
      exact h.size
  | insert s c =>
    refine ⟨fun t => ?_, ?_⟩
    · show (ClosedAt.insert ⟨best, c⟩ s).2.best[t]? = _
      rw [getElem?_insert, costs_concat, h.least t]
      split
      · rename_i hst
        rw [← hst, min?_concat, h.least]
      · rw [List.append_nil]
    · show (ClosedAt.insert ⟨best, c⟩ s).2.best.size = _
      have hstates :
          (inserted (calls ++ [.insert s c])).toFinset = Insert.insert s (inserted calls).toFinset := by
        ext t
        simp [inserted, insertions_concat, Access.insertion?]
      rw [size_insert, hstates, Finset.card_insert_eq_ite, ← h.size]
      simp only [List.mem_toFinset, h.mem_iff]

theorem remembers (calls : List (Access S)) : Remembers (after calls) calls := by
  induction calls using List.reverseRecOn with
  | nil => exact ⟨fun s => Std.HashMap.getElem?_empty, Std.HashMap.size_empty⟩
  | append_singleton calls call ih =>
    rw [after_concat]
    exact ih.on call

theorem holds_after : holds (after calls) s c = true ↔ ∃ d ∈ costs calls s, d ≤ c := by
  rw [holds_iff]
  constructor
  · rintro ⟨k, hk, hkc⟩
    rw [(remembers calls).least, List.min?_eq_some_iff] at hk
    exact ⟨k, hk.1, hkc⟩
  · rintro ⟨d, hd, hdc⟩
    obtain ⟨k, hk⟩ := Option.isSome_iff_exists.1 (List.isSome_min?_of_mem hd)
    have hkd := (List.min?_eq_some_iff.1 hk).2 d hd
    exact ⟨k, ((remembers calls).least s).trans hk, UInt64.le_trans hkd hdc⟩

/-- For all calls so far, the map has the least cost of each state, and this decides every further call: a
state is contained if it was inserted at this cost or below, an insertion succeeds if the state is not
contained, which is when it was dearer each time, and it touches no other state. -/
theorem recollection (calls : List (Access S)) :
    (∀ s, (after calls)[s]? = (costs calls s).min?) ∧
    (∀ s c, ((Access.contains s c).on (after calls)).1 = true ↔ ∃ d ∈ costs calls s, d ≤ c) ∧
    (∀ s c, ((Access.insert s c).on (after calls)).1 = !((Access.contains s c).on (after calls)).1) ∧
    (∀ s c, ((Access.insert s c).on (after calls)).1 = true ↔ ∀ d ∈ costs calls s, c < d) ∧
    (∀ s c t, s ≠ t → (after (calls ++ [.insert s c]))[t]? = (after calls)[t]?) ∧
    (∀ s c, after (calls ++ [.contains s c]) = after calls) ∧
    ∀ c, SeenSet.size (⟨after calls, c⟩ : ClosedAt S) = (inserted calls).toFinset.card := by
  have hinsert (s : S) (c : Cost) : ((Access.insert s c).on (after calls)).1 = !holds (after calls) s c :=
    insert_fst
  refine ⟨(remembers calls).least, fun s c => holds_after, hinsert, ?_, ?_, ?_, fun c => (remembers calls).size⟩
  · intro s c
    rw [hinsert, Bool.not_eq_true', ← Bool.not_eq_true, holds_after]
    simp only [not_exists, not_and, UInt64.not_le]
  · intro s c t hst
    rw [after_concat]
    exact getElem?_insert.trans (if_neg hst)
  · intro s c
    rw [after_concat]
    rfl

/-- The state 1 is closed at 5, and again at 3 when it is reached more cheaply. -/
def reopened : List (Access Nat) := [.insert 1 5, .contains 1 4, .insert 1 3, .insert 1 3, .insert 2 0]

theorem recollection_reopened : (after reopened)[1]? = some 3 ∧
    ((Access.insert 1 3).on (after reopened)).1 = false ∧ ((Access.insert 1 2).on (after reopened)).1 = true ∧
    1 ≠ 2 ∧ (after (reopened ++ [.insert 1 2]))[2]? = some 0 ∧
    SeenSet.size (⟨after reopened, 7⟩ : ClosedAt Nat) = 2 := by
  have hone : costs reopened 1 = [5, 3, 3] := rfl
  have htwo : costs reopened 2 = [0] := rfl
  have hne : 1 ≠ 2 := by simp
  obtain ⟨hleast, -, -, hinsert, hother, -, hsize⟩ := recollection reopened
  refine ⟨?_, ?_, ?_, hne, ?_, (hsize 7).trans rfl⟩
  · rw [hleast, hone]
    rfl
  · have hagain := hinsert 1 3
    simpa [hone] using hagain
  · rw [hinsert, hone]
    simp
  · rw [hother 1 2 2 hne, hleast, htwo]
    rfl

end ClosedAt

end StateSearch
