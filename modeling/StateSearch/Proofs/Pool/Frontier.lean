import StateSearch.Pool.WorkQueue
import StateSearch.Proofs.Exhaustive
import StateSearch.Proofs.OpenList

/-!
# What frontiers and work queues do to their nodes

A lawful frontier loses no node and makes none up: `nodes` lists what it holds, `push` adds to the
list and `pop?` takes from it. Both frontiers are lawful. For a work queue over a lawful frontier,
`take_eq_taken` and `complete_eq_ok` say all that these operations do, and `exists_complete_eq_ok`
that `complete` finds nothing wrong while the count of outstanding tasks is right.
-/

namespace StateSearch

open StateSearch.Random

/-- A frontier whose operations mean what they say on the list of its nodes. -/
class LawfulFrontier (F : Type) (N : outParam Type) [Frontier F N] where
  nodes : F → List N
  /-- What the frontier has to keep true of itself. -/
  Sound : F → Prop
  sound_push : ∀ {ρ : Type} [Coin ρ] {f : F} (n : N) (coin : ρ), Sound f →
    Sound (Frontier.push f n coin).1
  nodes_push : ∀ {ρ : Type} [Coin ρ] {f : F} (n : N) (coin : ρ), Sound f →
    (nodes (Frontier.push f n coin).1).Perm (n :: nodes f)
  sound_pop : ∀ {f f' : F} {n : N}, Sound f → Frontier.pop? f = some (n, f') → Sound f'
  nodes_pop : ∀ {f f' : F} {n : N}, Sound f → Frontier.pop? f = some (n, f') →
    (nodes f).Perm (n :: nodes f')
  nodes_of_pop?_eq_none : ∀ {f : F}, Frontier.pop? f = none → nodes f = []
  peek?_eq : ∀ f : F, Frontier.peek? f = (Frontier.pop? f).map Prod.fst
  size_eq : ∀ f : F, Frontier.size f = (nodes f).length
  layerOf_push : ∀ {ρ : Type} [Coin ρ] (f : F) (n : N) (coin : ρ),
    Frontier.layerOf (Frontier.push f n coin).1 = Frontier.layerOf f
  layerOf_pop : ∀ {f f' : F} {n : N}, Frontier.pop? f = some (n, f') →
    Frontier.layerOf f' = Frontier.layerOf f
  /-- Either all nodes have a layer, or none has. -/
  isSome_layerOf : ∀ (f : F) (n n' : N),
    (Frontier.layerOf f n).isSome = (Frontier.layerOf f n').isSome

namespace LawfulFrontier

variable {F N ρ : Type} [Frontier F N] [LawfulFrontier F N] [Coin ρ] {f : F}

theorem sound_pushAll (h : Sound f) (ns : List N) (coin : ρ) :
    Sound (Frontier.pushAll f ns coin).1 := by
  unfold Frontier.pushAll
  induction ns generalizing f coin with
  | nil => exact h
  | cons n ns ih => exact ih (sound_push n coin h) _

theorem nodes_pushAll (h : Sound f) (ns : List N) (coin : ρ) :
    (nodes (Frontier.pushAll f ns coin).1).Perm (ns ++ nodes f) := by
  unfold Frontier.pushAll
  induction ns generalizing f coin with
  | nil => exact .refl _
  | cons n ns ih =>
    refine (ih (sound_push n coin h) _).trans ?_
    exact ((nodes_push n coin h).append_left ns).trans List.perm_middle

theorem layerOf_pushAll (f : F) (ns : List N) (coin : ρ) :
    Frontier.layerOf (Frontier.pushAll f ns coin).1 = Frontier.layerOf f := by
  unfold Frontier.pushAll
  induction ns generalizing f coin with
  | nil => rfl
  | cons n ns ih => exact (ih _ _).trans (layerOf_push f n coin)

end LawfulFrontier

/-! ### The two frontiers -/

namespace BiasedDeque

variable {S M ρ : Type} [Coin ρ]

theorem nodes_push_perm (queue : BiasedDeque S M) (n : Node S M) (coin : ρ) :
    (queue.push n coin).1.nodes.toList.Perm (n :: queue.nodes.toList) := by
  unfold push
  split
  · simp
  · split
    · simp
    · exact .refl _

theorem placement_push (queue : BiasedDeque S M) (n : Node S M) (coin : ρ) :
    (queue.push n coin).1.placement = queue.placement := by
  unfold push
  split
  · rfl
  · split <;> rfl

end BiasedDeque

theorem Deque.popFront?_eq_none {α : Type} {queue : Deque α} (h : queue.popFront? = none) :
    queue.toList = [] := by
  have := queue.map_popFront?
  rw [h] at this
  cases hl : queue.toList with
  | nil => rfl
  | cons first others => rw [hl] at this; cases this

instance {S M : Type} : LawfulFrontier (BiasedDeque S M) (Node S M) where
  nodes queue := queue.nodes.toList
  Sound _ := True
  sound_push _ _ _ := trivial
  nodes_push {_ _ f} n coin _ := f.nodes_push_perm n coin
  sound_pop _ _ := trivial
  nodes_pop _ hp := by
    obtain ⟨⟨_, rest⟩, hp', heq⟩ := Option.map_eq_some_iff.1 hp
    cases heq
    exact .of_eq (Deque.toList_of_popFront? hp')
  nodes_of_pop?_eq_none hp := Deque.popFront?_eq_none (Option.map_eq_none_iff.1 hp)
  peek?_eq queue := by
    show queue.nodes.peekFront? = (queue.nodes.popFront?.map _).map _
    rw [Deque.peekFront?_eq]
    cases hp : queue.nodes.popFront? with
    | none => rw [Deque.popFront?_eq_none hp]; rfl
    | some taken => rw [Deque.toList_of_popFront? hp]; rfl
  size_eq queue := queue.nodes.size_eq_length
  layerOf_push queue n coin := by
    funext n'
    show BiasedDeque.layerOf _ n' = BiasedDeque.layerOf queue n'
    unfold BiasedDeque.layerOf
    rw [show (Frontier.push queue n coin).1.placement = queue.placement from
      queue.placement_push n coin]
  layerOf_pop hp := by
    obtain ⟨_, _, heq⟩ := Option.map_eq_some_iff.1 hp
    cases heq
    rfl
  isSome_layerOf queue n n' := by
    show (BiasedDeque.layerOf queue n).isSome = (BiasedDeque.layerOf queue n').isSome
    unfold BiasedDeque.layerOf
    split <;> rfl

instance {S M : Type} : LawfulFrontier (OpenList S M) (Node S M) where
  nodes waiting := waiting.toList
  Sound := OpenList.Sound
  sound_push n _ h := h.push n
  nodes_push n _ h := OpenList.toList_push h n
  sound_pop h hp := h.of_pop? hp
  nodes_pop _ hp := OpenList.toList_of_pop? hp
  nodes_of_pop?_eq_none hp := OpenList.pop?_eq_none hp
  peek?_eq := OpenList.peek?_eq_map_pop?
  size_eq := OpenList.size_eq_length
  layerOf_push _ _ _ := rfl
  layerOf_pop _ := rfl
  isSome_layerOf _ _ _ := rfl

namespace BiasedDeque

variable {S M ρ : Type} [Coin ρ] {queue rest : BiasedDeque S M}

theorem pushAll_tail (h : queue.placement = .tail) (ns : List (Node S M)) (coin : ρ) :
    LawfulFrontier.nodes (Frontier.pushAll queue ns coin).1 = LawfulFrontier.nodes queue ++ ns ∧
      (Frontier.pushAll queue ns coin).1.placement = .tail := by
  unfold Frontier.pushAll
  induction ns generalizing queue coin with
  | nil => exact ⟨(List.append_nil _).symm, h⟩
  | cons n ns ih =>
    have hpush : Frontier.push queue n coin = ({ queue with nodes := queue.nodes.pushBack n }, coin) := by
      show queue.push n coin = _
      rw [push, h]
    simp only [List.foldl_cons, hpush]
    have h' : ({ queue with nodes := queue.nodes.pushBack n } : BiasedDeque S M).placement = .tail := h
    obtain ⟨hnodes, hplacement⟩ := ih h' coin
    refine ⟨hnodes.trans ?_, hplacement⟩
    show (queue.nodes.pushBack n).toList ++ ns = _
    rw [Deque.toList_pushBack, List.append_assoc]
    rfl

/-- The last of several nodes that are put at the head is the next to leave. -/
theorem pushAll_head {threshold : UInt64} (h : queue.placement = .byChance threshold)
    (hblind : ∀ coin : ρ, (Coin.toss threshold coin).1 = false) (ns : List (Node S M)) (coin : ρ) :
    LawfulFrontier.nodes (Frontier.pushAll queue ns coin).1 =
        ns.reverse ++ LawfulFrontier.nodes queue ∧
      (Frontier.pushAll queue ns coin).1.placement = .byChance threshold := by
  unfold Frontier.pushAll
  induction ns generalizing queue coin with
  | nil => exact ⟨rfl, h⟩
  | cons n ns ih =>
    obtain ⟨coin', htoss⟩ : ∃ coin', Coin.toss threshold coin = (false, coin') :=
      ⟨_, Prod.ext (hblind coin) rfl⟩
    have hpush : Frontier.push queue n coin = ({ queue with nodes := queue.nodes.pushFront n }, coin') := by
      show queue.push n coin = _
      simp only [push, h, htoss]
    simp only [List.foldl_cons, hpush]
    have h' : ({ queue with nodes := queue.nodes.pushFront n } : BiasedDeque S M).placement =
        .byChance threshold := h
    obtain ⟨hnodes, hplacement⟩ := ih h' coin'
    refine ⟨hnodes.trans ?_, hplacement⟩
    show ns.reverse ++ (queue.nodes.pushFront n).toList = _
    rw [Deque.toList_pushFront, List.reverse_cons, List.append_assoc]
    rfl

omit [Coin ρ] in
theorem pop?_eq_some (h : Frontier.pop? queue = some (n, rest)) :
    LawfulFrontier.nodes queue = n :: LawfulFrontier.nodes rest ∧ rest.placement = queue.placement := by
  obtain ⟨⟨_, others⟩, hpop, heq⟩ := Option.map_eq_some_iff.1 h
  cases heq
  exact ⟨Deque.toList_of_popFront? hpop, rfl⟩

end BiasedDeque

/-- The open list again, as a frontier that reads everything off the list of its entries. Reduction can
evaluate this form, while the search in a tree is hidden from it. -/
@[reducible] def OpenList.listed {S M : Type} : Frontier (OpenList S M) (Node S M) where
  push waiting node coin := (waiting.push node, coin)
  peek? waiting := waiting.entries.toList.head?.map Prod.snd
  pop? waiting := waiting.entries.toList.head?.map fun (key, n) =>
    (n, { waiting with entries := waiting.entries.erase key })
  layerOf _ node := some node.estimate.toNat
  size waiting := waiting.size

theorem OpenList.frontier_eq_listed {S M : Type} :
    (instFrontierOpenListNode : Frontier (OpenList S M) (Node S M)) = listed := by
  have hpop : (OpenList.pop? : OpenList S M → _) = _ := funext OpenList.pop?_eq_head?
  have hpeek : (OpenList.peek? : OpenList S M → _) =
      fun waiting => waiting.entries.toList.head?.map Prod.snd := by
    funext waiting
    rw [peek?_eq_map_pop?, pop?_eq_head?, Option.map_map]
    rfl
  unfold instFrontierOpenListNode listed
  rw [hpeek, hpop]

/-! ### The work queue -/

namespace WorkQueue

open LawfulFrontier

variable {F N ρ : Type} [Frontier F N] [LawfulFrontier F N] [Coin ρ] {queue queue' : WorkQueue F}
  {stopped exhausted : Bool} {n : N} {children : List N} {coin coin' : ρ}

/-- Whoever gets no node without having to wait will never get one. -/
theorem take_eq_refused (h : queue.take stopped = (.refused : Taking F N)) :
    queue.closed = true ∨ stopped = true := by
  unfold take at h
  split at h
  · rename_i hc
    simpa using hc
  · split at h
    · rename_i hc
      unfold canTake at hc
      rw [peek?_eq] at hc
      split at h
      · rename_i hp
        rw [hp] at hc
        cases hc
      · cases h
    · cases h

theorem take_eq_taken (h : queue.take stopped = .taken n queue') :
    queue.closed = false ∧ stopped = false ∧ ∃ frontier,
      Frontier.pop? queue.frontier = some (n, frontier) ∧
      queue' = { queue with
        frontier, layer := Frontier.layerOf frontier n, inFlight := queue.inFlight + 1 } ∧
      (queue.inFlight = 0 ∨ ∀ layer, queue.layer = some layer →
        ∀ layer', Frontier.layerOf queue.frontier n = some layer' → layer' = layer) := by
  unfold take at h
  split at h
  · cases h
  · rename_i hopen
    rw [Bool.or_eq_true, not_or, Bool.not_eq_true, Bool.not_eq_true] at hopen
    refine ⟨hopen.1, hopen.2, ?_⟩
    split at h
    · rename_i hc
      split at h
      · cases h
      · rename_i n₁ frontier hp
        cases h
        refine ⟨frontier, hp, rfl, ?_⟩
        unfold canTake at hc
        rw [peek?_eq, hp, Option.map_some] at hc
        rcases Bool.or_eq_true _ _ ▸ hc with hc | hc
        · exact .inl (by simpa using hc)
        · refine .inr fun layer hl layer' hl' => ?_
          rw [hl, hl'] at hc
          simpa using hc
    · cases h

/-- The gate lets a node pass only if it is of the layer of those in flight. -/
theorem layerOf_eq_of_gate {n' : N} (hn' : Frontier.layerOf queue.frontier n' = queue.layer)
    (hgate : ∀ layer, queue.layer = some layer →
      ∀ layer', Frontier.layerOf queue.frontier n = some layer' → layer' = layer) :
    Frontier.layerOf queue.frontier n' = Frontier.layerOf queue.frontier n := by
  have hsome := isSome_layerOf queue.frontier n n'
  cases hl' : Frontier.layerOf queue.frontier n' with
  | none =>
    rw [hl'] at hsome
    exact (Option.isNone_iff_eq_none.1 (by simpa using hsome)).symm
  | some layer =>
    rw [hl', Option.isSome_some, Option.isSome_iff_exists] at hsome
    obtain ⟨layer', hl⟩ := hsome
    rw [hl, hgate layer (hn'.symm.trans hl') layer' hl]

/-- Some node can be taken when none is in flight, unless there is none. -/
theorem nodes_of_isBlocked (h : queue.isBlocked stopped = true) (hf : queue.inFlight = 0) :
    nodes queue.frontier = [] := by
  unfold isBlocked canTake at h
  rw [peek?_eq] at h
  cases hp : Frontier.pop? queue.frontier with
  | none => exact nodes_of_pop?_eq_none hp
  | some taken => simp [hp, hf] at h

omit [LawfulFrontier F N] in
theorem frontier_of_complete (h : queue.complete children coin = .ok (exhausted, queue', coin')) :
    queue'.frontier = (Frontier.pushAll queue.frontier children coin).1 := by
  unfold complete at h
  simp only at h
  split at h
  · cases h
  · split at h <;> cases h
    rfl

theorem complete_eq_ok (hs : Sound queue.frontier)
    (h : queue.complete children coin = .ok (exhausted, queue', coin')) :
    Sound queue'.frontier ∧ (nodes queue'.frontier).Perm (children ++ nodes queue.frontier) ∧
      queue.inFlight = queue'.inFlight + 1 ∧
      queue'.outstanding = (nodes queue'.frontier).length + queue'.inFlight ∧
      Frontier.layerOf queue'.frontier = Frontier.layerOf queue.frontier ∧
      queue'.layer = (if queue'.inFlight = 0 then none else queue.layer) ∧
      queue'.closed = (queue.closed || exhausted) ∧
      (exhausted = true ↔ nodes queue'.frontier = [] ∧ queue'.inFlight = 0) := by
  unfold complete at h
  have hsound := sound_pushAll hs children coin
  have hnodes := nodes_pushAll hs children coin
  have hlayer := layerOf_pushAll queue.frontier children coin
  simp only [size_eq] at h
  split at h
  · cases h
  · split at h
    · cases h
    · rename_i hf hcount
      cases h
      refine ⟨hsound, hnodes, by simp only; omega, ?_, hlayer, rfl, rfl, ?_⟩
      · simp only
        omega
      · simp only [beq_iff_eq, Nat.add_eq_zero_iff, List.length_eq_zero_iff]

theorem exists_complete_eq_ok (hs : Sound queue.frontier) (hf : queue.inFlight ≠ 0)
    (ho : queue.outstanding = (nodes queue.frontier).length + queue.inFlight)
    (children : List N) (coin : ρ) : ∃ result, queue.complete children coin = .ok result := by
  unfold complete
  have hlength := (nodes_pushAll hs children coin).length_eq
  rw [List.length_append] at hlength
  simp only [size_eq, hf, if_false]
  split
  · omega
  · exact ⟨_, rfl⟩

theorem sound_seed (hs : Sound queue.frontier) (root : N) (coin : ρ) :
    Sound (queue.seed root coin).1.frontier :=
  sound_push root coin hs

theorem nodes_seed (hs : Sound queue.frontier) (root : N) (coin : ρ) :
    (nodes (queue.seed root coin).1.frontier).Perm (root :: nodes queue.frontier) :=
  nodes_push root coin hs

end WorkQueue

end StateSearch
