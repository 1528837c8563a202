import StateSearch.Search.OpenList
import Mathlib.Data.List.Basic

/-!
# The nodes of an open list

An open list is sound if every entry is filed under the estimate of its node, and under a number that
has been given out already. Then no node that is put in meets an entry of the same key, and the
operations do to the list of nodes what they should: `toList_push`, `toList_of_pop?`, and
`estimate_le_of_pop?` for the node that leaves first.
-/

namespace StateSearch

instance : Std.LawfulEqCmp OpenKey.order where
  eq_of_compare {a b} h := by
    obtain ⟨h₁, h₂⟩ := Ordering.then_eq_eq.mp h
    exact Prod.ext (Std.LawfulEqOrd.eq_of_compare h₁) (Std.LawfulEqOrd.eq_of_compare h₂)

theorem OpenKey.fst_le_of_isLE {a b : OpenKey} (h : (order a b).isLE) : a.1 ≤ b.1 := by
  simp only [order, compareLex, compareOn] at h
  cases h₁ : compare a.1 b.1 with
  | lt => exact UInt64.le_of_lt (Std.compare_eq_lt.mp h₁)
  | eq => exact UInt64.le_of_eq (Std.LawfulEqOrd.eq_of_compare h₁)
  | gt => rw [h₁] at h; cases h

namespace OpenList

variable {S M : Type} {waiting rest : OpenList S M} {n n' : Node S M}

/-- Every entry is filed where it belongs. -/
structure Sound (waiting : OpenList S M) : Prop where
  estimate : ∀ (key : OpenKey) (n : Node S M), waiting.entries[key]? = some n → key.1 = n.estimate
  number : ∀ key ∈ waiting.entries, key.2 ≤ waiting.pushed

theorem Sound.empty : (empty : OpenList S M).Sound := by
  refine ⟨?_, ?_⟩
  · intro key n h
    simp [OpenList.empty] at h
  · intro key h
    simp [OpenList.empty] at h

theorem Sound.fresh (h : waiting.Sound) (n : Node S M) :
    (n.estimate, waiting.pushed + 1) ∉ waiting.entries := by
  intro hm
  have := h.number _ hm
  simp only at this
  omega

theorem getElem?_push (h : waiting.Sound) (n : Node S M) (key : OpenKey) :
    (waiting.push n).entries[key]? =
      if key = (n.estimate, waiting.pushed + 1) then some n else waiting.entries[key]? := by
  simp only [push, Std.TreeMap.getElem?_insertIfNew, Std.LawfulEqCmp.compare_eq_iff_eq]
  simp [h.fresh n, eq_comm]

theorem Sound.push (h : waiting.Sound) (n : Node S M) : (waiting.push n).Sound := by
  refine ⟨?_, ?_⟩
  · intro key n' hk
    rw [getElem?_push h] at hk
    split at hk
    · rename_i heq
      cases hk
      rw [heq]
    · exact h.estimate _ _ hk
  · intro key hk
    simp only [OpenList.push, Std.TreeMap.mem_insertIfNew, Std.LawfulEqCmp.compare_eq_iff_eq] at hk ⊢
    rcases hk with rfl | hk
    · exact Nat.le_refl _
    · exact Nat.le_succ_of_le (h.number _ hk)

theorem nodup_toList_entries (waiting : OpenList S M) : waiting.entries.toList.Nodup := by
  refine Std.TreeMap.distinct_keys_toList.imp ?_
  rintro a b h rfl
  exact h Std.ReflCmp.compare_self

/-- Putting a node in adds it to the nodes that wait. -/
theorem toList_push (h : waiting.Sound) (n : Node S M) :
    (waiting.push n).toList.Perm (n :: waiting.toList) := by
  have hk : ((n.estimate, waiting.pushed + 1), n) ∉ waiting.entries.toList := by
    rw [Std.TreeMap.mem_toList_iff_getElem?_eq_some]
    intro hm
    exact h.fresh n (Std.TreeMap.mem_iff_isSome_getElem?.mpr (by rw [hm]; rfl))
  show List.Perm _ ((((n.estimate, waiting.pushed + 1), n) :: waiting.entries.toList).map Prod.snd)
  refine List.Perm.map Prod.snd ((List.perm_ext_iff_of_nodup (nodup_toList_entries _)
    (List.nodup_cons.mpr ⟨hk, nodup_toList_entries _⟩)).mpr ?_)
  rintro ⟨key, n'⟩
  rw [List.mem_cons, Std.TreeMap.mem_toList_iff_getElem?_eq_some,
    Std.TreeMap.mem_toList_iff_getElem?_eq_some, getElem?_push h]
  by_cases heq : key = (n.estimate, waiting.pushed + 1)
  · subst heq
    have hnone : waiting.entries[(n.estimate, waiting.pushed + 1)]? = none :=
      Std.TreeMap.getElem?_eq_none (h.fresh n)
    simp [hnone, eq_comm]
  · simp [heq]

theorem Sound.pushAll (h : waiting.Sound) (nodes : List (Node S M)) :
    (nodes.foldl OpenList.push waiting).Sound := by
  induction nodes generalizing waiting with
  | nil => exact h
  | cons n nodes ih => exact ih (h.push n)

theorem toList_pushAll (h : waiting.Sound) (nodes : List (Node S M)) :
    (nodes.foldl push waiting).toList.Perm (nodes ++ waiting.toList) := by
  induction nodes generalizing waiting with
  | nil => exact .refl _
  | cons n nodes ih =>
    refine (ih (h.push n)).trans ?_
    exact ((toList_push h n).append_left nodes).trans List.perm_middle

theorem pop?_eq_some (h : waiting.pop? = some (n, rest)) :
    ∃ key, waiting.entries.minKey? = some key ∧ waiting.entries[key]? = some n ∧
      rest = { waiting with entries := waiting.entries.erase key } := by
  unfold pop? at h
  split at h
  · cases h
  · rename_i key hmin
    cases h
    exact ⟨key, hmin, Std.TreeMap.getElem?_eq_some_getElem (mem_of_minKey? hmin), rfl⟩

theorem pop?_eq_none (h : waiting.pop? = none) : waiting.toList = [] := by
  unfold pop? at h
  split at h
  · rename_i hmin
    rw [Std.TreeMap.minKey?_eq_none_iff, ← Std.TreeMap.isEmpty_toList] at hmin
    simp [toList, List.isEmpty_iff.mp hmin]
  · cases h

theorem peek?_eq_map_pop? (waiting : OpenList S M) : waiting.peek? = waiting.pop?.map Prod.fst := by
  unfold peek? pop?
  split <;> rfl

theorem Sound.of_pop? (h : waiting.Sound) (hp : waiting.pop? = some (n, rest)) : rest.Sound := by
  obtain ⟨key, -, -, rfl⟩ := pop?_eq_some hp
  refine ⟨?_, ?_⟩
  · intro key' n' hk
    rw [Std.TreeMap.getElem?_erase] at hk
    split at hk
    · cases hk
    · exact h.estimate _ _ hk
  · intro key' hk
    exact h.number _ (Std.TreeMap.mem_of_mem_erase hk)

/-- The node that leaves is taken from the nodes that wait. -/
theorem toList_of_pop? (hp : waiting.pop? = some (n, rest)) :
    waiting.toList.Perm (n :: rest.toList) := by
  obtain ⟨key, -, hk, rfl⟩ := pop?_eq_some hp
  have hkey : (key, n) ∉ (waiting.entries.erase key).toList := by
    rw [Std.TreeMap.mem_toList_iff_getElem?_eq_some, Std.TreeMap.getElem?_erase]
    simp
  show List.Perm _ (((key, n) :: (waiting.entries.erase key).toList).map Prod.snd)
  refine List.Perm.map Prod.snd ((List.perm_ext_iff_of_nodup (nodup_toList_entries _)
    (List.nodup_cons.mpr ⟨hkey,
      nodup_toList_entries { waiting with entries := waiting.entries.erase key }⟩)).mpr ?_)
  rintro ⟨key', n'⟩
  rw [List.mem_cons, Std.TreeMap.mem_toList_iff_getElem?_eq_some,
    Std.TreeMap.mem_toList_iff_getElem?_eq_some, Std.TreeMap.getElem?_erase]
  by_cases heq : key' = key
  · subst heq
    simp [hk, eq_comm]
  · simp [heq, Ne.symm heq, Std.LawfulEqCmp.compare_eq_iff_eq]

theorem mem_of_pop? (hp : waiting.pop? = some (n, rest)) : n ∈ waiting.toList :=
  (toList_of_pop? hp).mem_iff.2 (List.mem_cons_self ..)

theorem mem_of_mem_pop? (hp : waiting.pop? = some (n, rest)) {n' : Node S M} (hn : n' ∈ rest.toList) :
    n' ∈ waiting.toList :=
  (toList_of_pop? hp).mem_iff.2 (List.mem_cons_of_mem _ hn)

/-- The node that leaves has the least estimate of all that wait. -/
theorem estimate_le_of_pop? (h : waiting.Sound) (hp : waiting.pop? = some (n, rest))
    (hn : n' ∈ waiting.toList) : n.estimate ≤ n'.estimate := by
  obtain ⟨key, hmin, hk, -⟩ := pop?_eq_some hp
  obtain ⟨⟨key', _⟩, hm, rfl⟩ := List.mem_map.mp hn
  rw [Std.TreeMap.mem_toList_iff_getElem?_eq_some] at hm
  have hle := (Std.TreeMap.minKey?_eq_some_iff_mem_and_forall.mp hmin).2 key'
    (Std.TreeMap.mem_iff_isSome_getElem?.mpr (by rw [hm]; rfl))
  rw [← h.estimate _ _ hk, ← h.estimate _ _ hm]
  exact OpenKey.fst_le_of_isLE hle

/-- The node that leaves stands at the head of the list. -/
theorem pop?_eq_head? (waiting : OpenList S M) : waiting.pop? =
    waiting.entries.toList.head?.map fun (key, n) =>
      (n, { waiting with entries := waiting.entries.erase key }) := by
  cases hp : waiting.pop? with
  | none =>
    have hnil := pop?_eq_none hp
    rw [toList, List.map_eq_nil_iff] at hnil
    rw [hnil]
    rfl
  | some taken =>
    obtain ⟨key, hmin, hk, hrest⟩ := pop?_eq_some hp
    rw [Std.TreeMap.minKey?_eq_head?_keys, ← Std.TreeMap.map_fst_toList_eq_keys, List.head?_map,
      Option.map_eq_some_iff] at hmin
    obtain ⟨⟨key', n⟩, hhead, rfl⟩ := hmin
    have hn := Std.TreeMap.mem_toList_iff_getElem?_eq_some.1 (List.mem_of_head? hhead)
    cases hk.symm.trans hn
    rw [hhead, Option.map_some]
    exact congrArg some (Prod.ext rfl hrest)

theorem size_eq_length (waiting : OpenList S M) : waiting.size = waiting.toList.length := by
  rw [toList, List.length_map, Std.TreeMap.length_toList]
  rfl

end OpenList

end StateSearch
