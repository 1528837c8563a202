import StateSearch.Proofs.OpenList
import StateSearch.Pool.Frontier
import Mathlib.Data.List.Induction

/-!
# The open list as a queue

The workers of a best-first search share one open list, which files each node under its estimate and a number.
Seen from outside it is a queue: the nodes stand in a line in the order in which they were put in, and of the
cheapest ones the first leaves (`OpenList.queued`). The numbers are the tickets of the line. No number is given
out twice, so no two nodes are filed in the same place, and none gets lost (`OpenList.lossless`). Nor is any
number greater than the count of the nodes put in, so 64 bits hold them all as long as they hold this count.
-/

namespace StateSearch

/-- A key with the higher number that comes first has the lower estimate. -/
theorem OpenKey.fst_lt_of_isLE {a b : OpenKey} (h : (order a b).isLE) (hn : b.2 < a.2) : a.1 < b.1 := by
  refine UInt64.lt_of_le_of_ne (fst_le_of_isLE h) fun heq => ?_
  simp only [order, compareLex, compareOn, heq, Std.ReflCmp.compare_self, Ordering.eq_then] at h
  exact absurd (Std.isLE_compare.1 h) (Nat.not_le.2 hn)

namespace OpenList

variable {S M : Type} {waiting rest : OpenList S M} {n : Node S M}

/-! ### The line -/

inductive Use (S M : Type) where
  | push (n : Node S M)
  | pop

def isCheapest (line : List (Node S M)) (n : Node S M) : Bool := line.all (n.estimate ≤ ·.estimate)

def Use.inLine (line : List (Node S M)) : Use S M → List (Node S M)
  | push n => line ++ [n]
  | pop => line.eraseP (isCheapest line)

/-- The nodes that wait after these uses, in the order in which they were put in. -/
def queued (uses : List (Use S M)) : List (Node S M) := uses.foldl Use.inLine []

def pushes (uses : List (Use S M)) : List (Node S M) :=
  uses.filterMap fun
    | .push n => some n
    | .pop => none

theorem queued_concat (uses : List (Use S M)) (use : Use S M) :
    queued (uses ++ [use]) = use.inLine (queued uses) :=
  List.foldl_concat ..

theorem pushes_concat_push (uses : List (Use S M)) (n : Node S M) :
    pushes (uses ++ [.push n]) = pushes uses ++ [n] := by
  simp [pushes]

theorem pushes_concat_pop (uses : List (Use S M)) : pushes (uses ++ [.pop]) = pushes uses := by
  simp [pushes]

/-- The node `n` is cheaper than all before it and not dearer than those after it, and leaves the `others` as
they stand. -/
def First (line : List (Node S M)) (n : Node S M) (others : List (Node S M)) : Prop :=
  ∃ before later, line = before ++ n :: later ∧ others = before ++ later ∧
    (∀ m ∈ before, n.estimate < m.estimate) ∧ ∀ m ∈ later, n.estimate ≤ m.estimate

theorem First.perm {line others : List (Node S M)} (h : First line n others) : line.Perm (n :: others) := by
  obtain ⟨before, later, rfl, rfl, -, -⟩ := h
  exact List.perm_middle

theorem First.inLine {line others : List (Node S M)} (h : First line n others) :
    Use.pop.inLine line = others := by
  obtain ⟨before, later, rfl, rfl, hbefore, hlater⟩ := h
  have hn : isCheapest (before ++ n :: later) n = true := by
    simp only [isCheapest, List.all_append, List.all_cons, List.all_eq_true, Bool.and_eq_true,
      decide_eq_true_eq]
    exact ⟨fun m hm => UInt64.le_of_lt (hbefore m hm), UInt64.le_refl _, hlater⟩
  have hdearer (m : Node S M) (hm : m ∈ before) : ¬ isCheapest (before ++ n :: later) m = true := by
    intro h
    have := List.all_eq_true.1 h n (by simp)
    exact UInt64.not_le.2 (hbefore m hm) (by simpa using this)
  rw [Use.inLine, List.eraseP_append_right _ hdearer, List.eraseP_cons_of_pos hn]

/-! ### The tickets -/

/-- The nodes with these tickets, in the order of the line, are what is filed. -/
structure Files (waiting : OpenList S M) (tickets : List (Nat × Node S M)) : Prop where
  sound : waiting.Sound
  entries : ∀ (key : OpenKey) (n : Node S M),
    waiting.entries[key]? = some n ↔ key.1 = n.estimate ∧ (key.2, n) ∈ tickets
  ascending : tickets.Pairwise (·.1 < ·.1)

variable {tickets : List (Nat × Node S M)}

theorem Files.le_pushed (h : waiting.Files tickets) {ticket : Nat × Node S M} (hm : ticket ∈ tickets) :
    ticket.1 ≤ waiting.pushed := by
  have hentry := (h.entries (ticket.2.estimate, ticket.1) ticket.2).2 ⟨rfl, hm⟩
  exact h.sound.number _ (Std.TreeMap.mem_iff_isSome_getElem?.2 (by rw [hentry]; rfl))

theorem Files.push (h : waiting.Files tickets) (n : Node S M) :
    (waiting.push n).Files (tickets ++ [(waiting.pushed + 1, n)]) := by
  have hnew {ticket : Nat × Node S M} (hm : ticket ∈ tickets) : ticket.1 < waiting.pushed + 1 :=
    Nat.lt_succ_of_le (h.le_pushed hm)
  refine ⟨h.sound.push n, ?_, ?_⟩
  · intro key m
    rw [getElem?_push h.sound, List.mem_append, List.mem_singleton]
    split
    · rename_i hkey
      rw [hkey]
      constructor
      · rintro ⟨⟩
        exact ⟨rfl, .inr rfl⟩
      · rintro ⟨-, hm | hm⟩
        · exact absurd (hnew hm) (Nat.lt_irrefl _)
        · rw [(Prod.mk.inj hm).2]
    · rename_i hkey
      rw [h.entries]
      refine and_congr_right fun hestimate => ⟨.inl, ?_⟩
      rintro (hm | hm)
      · exact hm
      · obtain ⟨hnumber, rfl⟩ := Prod.mk.inj hm
        exact absurd (Prod.ext hestimate hnumber) hkey
  · refine List.pairwise_append.2 ⟨h.ascending, List.pairwise_singleton _ _, ?_⟩
    intro ticket hm last hlast
    cases List.mem_singleton.1 hlast
    exact hnew hm

/-- What stands before the node that leaves is dearer, for its number is lower and it did not leave. -/
theorem Files.pop (h : waiting.Files tickets) (hp : waiting.pop? = some (n, rest)) :
    ∃ left, rest.Files left ∧ First (tickets.map Prod.snd) n (left.map Prod.snd) := by
  obtain ⟨key, hmin, hk, hrest⟩ := pop?_eq_some hp
  obtain ⟨hestimate, hm⟩ := (h.entries key n).1 hk
  obtain ⟨before, later, rfl⟩ := List.append_of_mem hm
  obtain ⟨hbefore, hafter, hacross⟩ := List.pairwise_append.1 h.ascending
  have hleast {ticket : Nat × Node S M} (hm : ticket ∈ before ++ (key.2, n) :: later) :
      (OpenKey.order key (ticket.2.estimate, ticket.1)).isLE := by
    have hentry := (h.entries (ticket.2.estimate, ticket.1) ticket.2).2 ⟨rfl, hm⟩
    exact (Std.TreeMap.minKey?_eq_some_iff_mem_and_forall.1 hmin).2 _
      (Std.TreeMap.mem_iff_isSome_getElem?.2 (by rw [hentry]; rfl))
  have hothers {ticket : Nat × Node S M} (hm : ticket ∈ before ++ later) : ticket.1 ≠ key.2 := by
    rcases List.mem_append.1 hm with hm | hm
    · exact Nat.ne_of_lt (hacross ticket hm _ List.mem_cons_self)
    · exact Nat.ne_of_gt ((List.pairwise_cons.1 hafter).1 ticket hm)
  refine ⟨before ++ later, ⟨h.sound.of_pop? hp, ?_, ?_⟩,
    before.map Prod.snd, later.map Prod.snd, ?_, ?_, ?_, ?_⟩
  · intro key' m
    rw [hrest, Std.TreeMap.getElem?_erase]
    split
    · rename_i heq
      rw [Std.LawfulEqCmp.compare_eq_iff_eq] at heq
      subst heq
      exact ⟨nofun, fun ⟨_, hm⟩ => absurd rfl (hothers hm)⟩
    · rename_i hne
      rw [Std.LawfulEqCmp.compare_eq_iff_eq] at hne
      rw [h.entries, List.perm_middle.mem_iff, List.mem_cons]
      refine and_congr_right fun hestimate' => ⟨?_, .inr⟩
      rintro (hm | hm)
      · obtain ⟨hnumber, rfl⟩ := Prod.mk.inj hm
        exact absurd (Prod.ext (hestimate.trans hestimate'.symm) hnumber.symm) hne
      · exact hm
  · exact h.ascending.sublist ((List.sublist_cons_self _ _).append_left before)
  · rw [List.map_append, List.map_cons]
  · rw [List.map_append]
  · intro m hm
    obtain ⟨ticket, hticket, rfl⟩ := List.mem_map.1 hm
    rw [← hestimate]
    exact OpenKey.fst_lt_of_isLE (hleast (List.mem_append_left _ hticket))
      (hacross ticket hticket _ List.mem_cons_self)
  · intro m hm
    obtain ⟨ticket, hticket, rfl⟩ := List.mem_map.1 hm
    rw [← hestimate]
    exact OpenKey.fst_le_of_isLE (hleast (List.mem_append_right _ (List.mem_cons_of_mem _ hticket)))

/-! ### Many uses -/

variable {ρ : Type} [StateSearch.Random.Coin ρ]

def Use.on : List (Node S M) × OpenList S M × ρ → Use S M → List (Node S M) × OpenList S M × ρ
  | (taken, waiting, coin), push n => (taken, Frontier.push waiting n coin)
  | (taken, waiting, coin), pop =>
    match Frontier.pop? waiting with
    | some (n, waiting) => (taken ++ [n], waiting, coin)
    | none => (taken, waiting, coin)

def serve (uses : List (Use S M)) (coin : ρ) : List (Node S M) × OpenList S M × ρ :=
  uses.foldl Use.on ([], empty, coin)

theorem serve_concat (uses : List (Use S M)) (use : Use S M) (coin : ρ) :
    serve (uses ++ [use]) coin = use.on (serve uses coin) :=
  List.foldl_concat ..

structure Keeps (uses : List (Use S M)) (coin : ρ) (taken : List (Node S M)) (waiting : OpenList S M) :
    Prop where
  run : serve uses coin = (taken, waiting, coin)
  all : (pushes uses).Perm (taken ++ waiting.toList)
  left : waiting.toList.Perm (queued uses)
  order : (queued uses).Sublist (pushes uses)
  numbers : waiting.pushed = (pushes uses).length
  filed : ∃ tickets, waiting.Files tickets ∧ tickets.map Prod.snd = queued uses

variable {uses : List (Use S M)} {coin : ρ} {taken : List (Node S M)}

theorem Keeps.push (h : Keeps uses coin taken waiting) (n : Node S M) :
    Keeps (uses ++ [.push n]) coin taken (waiting.push n) := by
  obtain ⟨tickets, hfiles, hline⟩ := h.filed
  have hlist : (waiting.push n).toList.Perm (waiting.toList ++ [n]) :=
    (toList_push hfiles.sound n).trans (List.perm_append_singleton n _).symm
  have hqueued : queued (uses ++ [.push n]) = queued uses ++ [n] := queued_concat ..
  refine ⟨?_, ?_, ?_, ?_, ?_, _, hfiles.push n, ?_⟩
  · rw [serve_concat, h.run]
    rfl
  · rw [pushes_concat_push]
    refine (h.all.append_right [n]).trans ?_
    rw [List.append_assoc]
    exact hlist.symm.append_left taken
  · rw [hqueued]
    exact hlist.trans (h.left.append_right [n])
  · rw [hqueued, pushes_concat_push]
    exact h.order.append (List.Sublist.refl _)
  · rw [pushes_concat_push, List.length_append, ← h.numbers]
    rfl
  · rw [List.map_append, hline, hqueued]
    rfl

theorem Keeps.first (h : Keeps uses coin taken waiting) (hp : waiting.pop? = some (n, rest)) :
    First (queued uses) n (queued (uses ++ [.pop])) := by
  obtain ⟨tickets, hfiles, hline⟩ := h.filed
  obtain ⟨left, -, hfirst⟩ := hfiles.pop hp
  rw [hline] at hfirst
  rw [queued_concat, hfirst.inLine]
  exact hfirst

theorem Keeps.pop (h : Keeps uses coin taken waiting) (hp : waiting.pop? = some (n, rest)) :
    Keeps (uses ++ [.pop]) coin (taken ++ [n]) rest := by
  obtain ⟨tickets, hfiles, hline⟩ := h.filed
  obtain ⟨left, hfiles', hfirst⟩ := hfiles.pop hp
  rw [hline] at hfirst
  have hqueued : queued (uses ++ [.pop]) = left.map Prod.snd := (queued_concat ..).trans hfirst.inLine
  have hlist := toList_of_pop? hp
  refine ⟨?_, ?_, ?_, ?_, ?_, left, hfiles', hqueued.symm⟩
  · rw [serve_concat, h.run, Use.on, show Frontier.pop? waiting = _ from hp]
  · rw [pushes_concat_pop, List.append_assoc]
    exact h.all.trans (hlist.append_left taken)
  · rw [hqueued]
    exact (hlist.symm.trans (h.left.trans hfirst.perm)).cons_inv
  · rw [queued_concat, pushes_concat_pop]
    exact List.eraseP_sublist.trans h.order
  · rw [pushes_concat_pop, ← h.numbers]
    obtain ⟨key, -, -, rfl⟩ := pop?_eq_some hp
    rfl

theorem Keeps.queued_eq_nil (h : Keeps uses coin taken waiting) (hp : waiting.pop? = none) :
    queued uses = [] := by
  have hnil := h.left
  rw [pop?_eq_none hp] at hnil
  exact List.nil_perm.1 hnil

/-- Whoever takes from an empty list changes nothing. -/
theorem Keeps.idle (h : Keeps uses coin taken waiting) (hp : waiting.pop? = none) :
    Keeps (uses ++ [.pop]) coin taken waiting := by
  have hnil := h.queued_eq_nil hp
  have hqueued : queued (uses ++ [.pop]) = queued uses := by
    rw [queued_concat, hnil]
    rfl
  obtain ⟨hrun, hall, hleft, horder, hnumbers, hfiled⟩ := h
  rw [← hqueued] at hleft horder hfiled
  rw [← pushes_concat_pop] at hall horder hnumbers
  refine ⟨?_, hall, hleft, horder, hnumbers, hfiled⟩
  rw [serve_concat, hrun, Use.on, show Frontier.pop? waiting = _ from hp]

theorem exists_keeps (uses : List (Use S M)) (coin : ρ) :
    ∃ taken waiting, Keeps uses coin taken waiting := by
  induction uses using List.reverseRecOn with
  | nil =>
    refine ⟨[], empty, rfl, .refl _, .refl _, .refl _, rfl, [], ⟨Sound.empty, ?_, List.Pairwise.nil⟩, rfl⟩
    intro key n
    simp [empty]
  | append_singleton uses use ih =>
    obtain ⟨taken, waiting, h⟩ := ih
    cases use with
    | push n => exact ⟨taken, _, h.push n⟩
    | pop =>
      cases hp : waiting.pop? with
      | none => exact ⟨taken, waiting, h.idle hp⟩
      | some next => exact ⟨taken ++ [next.1], next.2, h.pop hp⟩

/-- After any uses of the open list, in whatever order, the nodes put in are those taken and those left, which
are counted right. The next one taken, which can be looked at before, is the cheapest in the line and the first
of these. -/
theorem lossless (uses : List (Use S M)) (coin : ρ) :
    ∃ taken waiting, serve uses coin = (taken, waiting, coin) ∧
      (pushes uses).Perm (taken ++ waiting.toList) ∧
      waiting.toList.Perm (queued uses) ∧ (queued uses).Sublist (pushes uses) ∧
      Frontier.size waiting = waiting.toList.length ∧
      waiting.pushed = (pushes uses).length ∧ (∀ key ∈ waiting.entries, key.2 ≤ (pushes uses).length) ∧
      Frontier.peek? waiting = (Frontier.pop? waiting).map Prod.fst ∧
      match Frontier.pop? waiting with
      | none => queued uses = []
      | some (n, rest) => serve (uses ++ [.pop]) coin = (taken ++ [n], rest, coin) ∧
          First (queued uses) n (queued (uses ++ [.pop])) := by
  obtain ⟨taken, waiting, h⟩ := exists_keeps uses coin
  obtain ⟨tickets, hfiles, -⟩ := h.filed
  refine ⟨taken, waiting, h.run, h.all, h.left, h.order, size_eq_length waiting, h.numbers, ?_,
    peek?_eq_map_pop? waiting, ?_⟩
  · rw [← h.numbers]
    exact hfiles.sound.number
  · show match waiting.pop? with | none => _ | some (n, rest) => _
    cases hp : waiting.pop? with
    | none => exact h.queued_eq_nil hp
    | some next => exact ⟨(h.pop hp).run, h.first hp⟩

/-- Of the nodes 1 and 3, both cheapest, the first has left. -/
example : (queued [.push (.root 0 5), .push (.root 1 3), .push (.root 2 5), .push (.root 3 3), .pop] :
    List (Node Nat Char)).map Node.state = [0, 2, 3] := by decide

end OpenList

end StateSearch
