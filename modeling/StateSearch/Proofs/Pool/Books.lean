import StateSearch.Proofs.Pool.Frontier

/-!
# The books of a work queue

A `Book` is a work queue with a record of all that was done with it: the nodes that were handed in, the
nodes that were taken, those of them that are still in flight, and what each request came to. Requests may
be made in any order. The only rule is that a task is completed once, by somebody who took its node
(`Book.fulfil`).

Whatever the requests, the books balance (`books_balance`): no node is lost, the queue never finds its own
count wrong, nodes in flight are of one layer, and the queue says that nothing is left exactly when this is
so, once, and hands out nothing from then on. What one request preserves is `Balanced.fulfil`.
-/

namespace StateSearch

open StateSearch.Random LawfulFrontier

namespace WorkQueue

/-- What can be asked of a queue. Whoever puts in nodes brings a coin. -/
inductive Request (N ρ : Type) where
  | seed (root : N) (coin : ρ)
  | take (stopped : Bool)
  /-- Complete the task on the node at `index` of those in flight, and hand in the nodes found from it. -/
  | complete (index : Nat) (children : List N) (coin : ρ)
  | close

/-- What a request comes to. -/
inductive Answer (N : Type) where
  | seeded
  | taken (node : N)
  | refused
  | blocked
  /-- The flag says whether the queue found nothing left; so many nodes did wait, and so many were in
  flight. -/
  | completed (exhausted : Bool) (waiting inFlight : Nat)
  | closed

namespace Answer

variable {N : Type}

/-- The queue says that nothing is left. -/
def isLast : Answer N → Bool
  | completed exhausted .. => exhausted
  | _ => false

/-- Nobody got a node or completed a task, and nobody is made to wait. -/
def isIdle : Answer N → Bool
  | seeded | refused | closed => true
  | taken _ | blocked | completed .. => false

end Answer

/-- A work queue and what was done with it. All lists have the latest entry first. -/
structure Book (F N : Type) where
  queue : WorkQueue F
  handedIn : List N := []
  taken : List N := []
  /-- The nodes that were taken and whose tasks are not completed. -/
  inFlight : List N := []
  answers : List (Answer N) := []

variable {F N ρ : Type} [Frontier F N] [Coin ρ]

namespace Book

/-- Make a request. Nobody completes a task that is not in flight. -/
def fulfil (book : Book F N) : Request N ρ → Except QueueError (Book F N)
  | .seed root coin => .ok { book with
      queue := (book.queue.seed root coin).1
      handedIn := root :: book.handedIn
      answers := .seeded :: book.answers }
  | .take stopped =>
    match book.queue.take stopped with
    | .refused => .ok { book with answers := .refused :: book.answers }
    | .blocked => .ok { book with answers := .blocked :: book.answers }
    | .taken node queue => .ok { book with
        queue
        taken := node :: book.taken
        inFlight := node :: book.inFlight
        answers := .taken node :: book.answers }
  | .complete index children coin =>
    if index < book.inFlight.length then
      match book.queue.complete children coin with
      | .error error => .error error
      | .ok (exhausted, queue, _) => .ok { book with
          queue
          handedIn := children ++ book.handedIn
          inFlight := book.inFlight.eraseIdx index
          answers := .completed exhausted (Frontier.size queue.frontier) queue.inFlight ::
            book.answers }
    else .ok book
  | .close => .ok { book with
      queue := book.queue.close
      answers := .closed :: book.answers }

/-- Make several requests, one after the other. -/
def run (book : Book F N) (requests : List (Request N ρ)) : Except QueueError (Book F N) :=
  requests.foldlM fulfil book

end Book

/-! ### The answers -/

theorem Answer.exists_isLast_cons {N : Type} {answers : List (Answer N)} {answer : Answer N}
    (h : answer.isLast = false) : (∃ last ∈ answer :: answers, last.isLast = true) ↔
      ∃ last ∈ answers, last.isLast = true := by
  simp [h]

/-- The queue says at most once that nothing is left, and is idle from then on. -/
structure Conclusive {N : Type} (answers : List (Answer N)) : Prop where
  once : answers.countP Answer.isLast ≤ 1
  idle : ∀ later last earlier, answers = later ++ last :: earlier → last.isLast = true →
    ∀ answer ∈ later, answer.isIdle = true

namespace Conclusive

variable {N : Type} {answers : List (Answer N)} {answer : Answer N}

theorem nil : Conclusive ([] : List (Answer N)) := by
  refine ⟨Nat.zero_le 1, fun later last earlier h => ?_⟩
  cases later <;> cases h

theorem cons (h : Conclusive answers)
    (hidle : (∃ last ∈ answers, last.isLast = true) → answer.isIdle = true) :
    Conclusive (answer :: answers) := by
  constructor
  · by_cases hlast : ∃ last ∈ answers, last.isLast = true
    · have hnot : answer.isLast = false := by
        have := hidle hlast
        cases answer <;> first | rfl | cases this
      rw [List.countP_cons, hnot]
      exact h.once
    · have hnone : answers.countP Answer.isLast = 0 :=
        List.countP_eq_zero.2 fun last hmem hl => hlast ⟨last, hmem, hl⟩
      rw [List.countP_cons, hnone]
      split <;> omega
  · intro later last earlier heq hl a ha
    cases later with
    | nil => cases ha
    | cons first later =>
      obtain ⟨rfl, hrest⟩ := List.cons.inj heq
      rcases List.mem_cons.1 ha with rfl | ha
      · exact hidle ⟨last, hrest ▸ List.mem_append_right _ (List.mem_cons_self ..), hl⟩
      · exact h.idle later last earlier hrest hl a ha

end Conclusive

/-! ### The invariant -/

variable [LawfulFrontier F N]

/-- What is true of a queue after any requests. -/
structure Balanced (book : Book F N) : Prop where
  sound : Sound book.queue.frontier
  /-- What was handed in was taken or still waits. -/
  handedIn : book.handedIn.Perm (book.taken ++ nodes book.queue.frontier)
  inFlight : book.queue.inFlight = book.inFlight.length
  outstanding : book.queue.outstanding = Frontier.size book.queue.frontier + book.queue.inFlight
  /-- The nodes in flight are all of the layer that the queue has noted, if nodes have layers. -/
  layer : ∀ n ∈ book.inFlight, Frontier.layerOf book.queue.frontier n = book.queue.layer
  /-- The queue says that nothing is left exactly when no node waits and none is in flight. -/
  exhausted : ∀ exhausted waiting inFlight, .completed exhausted waiting inFlight ∈ book.answers →
    (exhausted = true ↔ waiting = 0 ∧ inFlight = 0)
  conclusive : Conclusive book.answers
  finished : (∃ answer ∈ book.answers, answer.isLast = true) →
    book.queue.closed = true ∧ book.inFlight = []

namespace Balanced

variable {book : Book F N}

theorem start {frontier : F} (hs : Sound frontier) (hn : nodes frontier = []) :
    Balanced { queue := { frontier } : Book F N } := by
  refine ⟨hs, ?_, rfl, ?_, nofun, nofun, .nil, ?_⟩
  · rw [hn]
    exact .refl _
  · rw [size_eq, hn]
    rfl
  · rintro ⟨_, hmem, -⟩
    cases hmem

theorem seed (h : Balanced book) (root : N) (coin : ρ) :
    Balanced { book with
      queue := (book.queue.seed root coin).1
      handedIn := root :: book.handedIn
      answers := .seeded :: book.answers } := by
  have hnodes := nodes_seed h.sound root coin
  have hout := h.outstanding
  have hlayer : Frontier.layerOf (book.queue.seed root coin).1.frontier =
      Frontier.layerOf book.queue.frontier := layerOf_push _ root coin
  refine ⟨sound_seed h.sound root coin, ?_, h.inFlight, ?_, ?_, ?_, h.conclusive.cons fun _ => rfl, ?_⟩
  · exact ((h.handedIn.cons root).trans List.perm_middle.symm).trans (hnodes.symm.append_left _)
  · rw [size_eq] at hout
    rw [size_eq, hnodes.length_eq, List.length_cons]
    show book.queue.outstanding + 1 = _ + book.queue.inFlight
    omega
  · intro n hn
    rw [hlayer]
    exact h.layer n hn
  · intro exhausted waiting inFlight hmem
    exact h.exhausted _ _ _ ((List.mem_cons.1 hmem).resolve_left nofun)
  · exact fun hlast => h.finished ((Answer.exists_isLast_cons rfl).1 hlast)

/-- A request that leaves the queue as it is changes the record of answers only. -/
theorem note (h : Balanced book) {answer : Answer N} (hnew : ∀ e w f, answer ≠ .completed e w f)
    (hidle : (∃ last ∈ book.answers, last.isLast = true) → answer.isIdle = true) :
    Balanced { book with answers := answer :: book.answers } := by
  have hlast : answer.isLast = false := by
    cases answer with
    | completed e w f => exact absurd rfl (hnew e w f)
    | _ => rfl
  refine ⟨h.sound, h.handedIn, h.inFlight, h.outstanding, h.layer, ?_, h.conclusive.cons hidle,
    fun hover => h.finished ((Answer.exists_isLast_cons hlast).1 hover)⟩
  intro e w f hmem
  exact h.exhausted e w f ((List.mem_cons.1 hmem).resolve_left (hnew e w f).symm)

theorem close (h : Balanced book) :
    Balanced { book with queue := book.queue.close, answers := .closed :: book.answers } := by
  have hnoted : Balanced { book with answers := .closed :: book.answers } := h.note nofun fun _ => rfl
  exact ⟨hnoted.sound, hnoted.handedIn, hnoted.inFlight, hnoted.outstanding, hnoted.layer,
    hnoted.exhausted, hnoted.conclusive, fun hlast => ⟨rfl, (hnoted.finished hlast).2⟩⟩

/-- As long as nodes are handed out, the queue has not said that nothing is left. -/
theorem not_over (h : Balanced book) (ho : book.queue.closed = false ∨ book.inFlight ≠ []) :
    ¬ ∃ answer ∈ book.answers, answer.isLast = true := by
  intro hlast
  obtain ⟨hclosed, hnone⟩ := h.finished hlast
  rcases ho with hopen | hsome
  · cases hopen.symm.trans hclosed
  · exact hsome hnone

theorem take (h : Balanced book) {stopped : Bool} {n : N} {queue : WorkQueue F}
    (ht : book.queue.take stopped = .taken n queue) :
    Balanced { book with
      queue
      taken := n :: book.taken
      inFlight := n :: book.inFlight
      answers := .taken n :: book.answers } := by
  obtain ⟨hopen, -, frontier, hpop, rfl, hgate⟩ := take_eq_taken ht
  have hnodes := nodes_pop h.sound hpop
  have hlayer := layerOf_pop hpop
  have hnot := h.not_over (.inl hopen)
  refine ⟨sound_pop h.sound hpop, ?_, ?_, ?_, ?_, ?_, h.conclusive.cons fun hlast => absurd hlast hnot,
    fun hlast => absurd ((Answer.exists_isLast_cons rfl).1 hlast) hnot⟩
  · exact h.handedIn.trans ((hnodes.append_left _).trans List.perm_middle)
  · show book.queue.inFlight + 1 = _
    rw [h.inFlight]
    rfl
  · have hout := h.outstanding
    rw [size_eq, hnodes.length_eq, List.length_cons] at hout
    show book.queue.outstanding = Frontier.size frontier + (book.queue.inFlight + 1)
    rw [size_eq]
    omega
  · intro n' hn'
    show Frontier.layerOf frontier n' = Frontier.layerOf frontier n
    rw [hlayer]
    rcases List.mem_cons.1 hn' with rfl | hn'
    · rfl
    · -- Others are in flight, so the gate let the node pass only because it is of their layer.
      refine layerOf_eq_of_gate (h.layer n' hn') (hgate.resolve_left fun hzero => ?_)
      rw [h.inFlight] at hzero
      exact List.ne_nil_of_mem hn' (List.eq_nil_of_length_eq_zero hzero)
  · intro e w f hmem
    exact h.exhausted e w f ((List.mem_cons.1 hmem).resolve_left nofun)

theorem complete (h : Balanced book) {index : Nat} (hi : index < book.inFlight.length)
    {children : List N} {coin coin' : ρ} {exhausted : Bool} {queue : WorkQueue F}
    (hc : book.queue.complete children coin = .ok (exhausted, queue, coin')) :
    Balanced { book with
      queue
      handedIn := children ++ book.handedIn
      inFlight := book.inFlight.eraseIdx index
      answers := .completed exhausted (Frontier.size queue.frontier) queue.inFlight ::
        book.answers } := by
  obtain ⟨hsound, hnodes, hflight, hout, hlayer, hqlayer, hclosed, hexhausted⟩ :=
    complete_eq_ok h.sound hc
  have hlength := List.length_eraseIdx_of_lt hi
  have hcount := h.inFlight
  have hnot := h.not_over (.inr (List.ne_nil_of_length_pos (Nat.zero_lt_of_lt hi)))
  refine ⟨hsound, ?_, ?_, ?_, ?_, ?_, h.conclusive.cons fun hlast => absurd hlast hnot, ?_⟩
  · refine (h.handedIn.append_left children).trans ?_
    refine List.Perm.trans ?_ (hnodes.symm.append_left book.taken)
    rw [← List.append_assoc, ← List.append_assoc]
    exact List.perm_append_comm.append_right _
  · show queue.inFlight = (book.inFlight.eraseIdx index).length
    omega
  · rw [size_eq]
    exact hout
  · intro n hn
    have hpos := List.length_pos_of_mem hn
    simp only at hn hpos
    show Frontier.layerOf queue.frontier n = queue.layer
    rw [hlayer, hqlayer, if_neg (by omega)]
    exact h.layer n (List.mem_of_mem_eraseIdx hn)
  · intro e w f hmem
    rcases List.mem_cons.1 hmem with heq | hmem
    · cases heq
      rw [hexhausted, size_eq, List.length_eq_zero_iff]
    · exact h.exhausted e w f hmem
  · -- The queue says that nothing is left only when no task remains, and it closes then.
    rintro ⟨answer, hmem, hlast⟩
    rcases List.mem_cons.1 hmem with rfl | hmem
    · obtain rfl : exhausted = true := hlast
      refine ⟨by rw [hclosed, Bool.or_true], List.eq_nil_of_length_eq_zero ?_⟩
      have := (hexhausted.1 rfl).2
      show (book.inFlight.eraseIdx index).length = 0
      omega
    · exact absurd ⟨answer, hmem, hlast⟩ hnot

/-- No request makes the queue find its bookkeeping wrong, and each keeps the books balanced. -/
theorem fulfil (h : Balanced book) (request : Request N ρ) :
    ∃ book', book.fulfil request = .ok book' ∧ Balanced book' := by
  cases request with
  | seed root coin => exact ⟨_, rfl, h.seed root coin⟩
  | take stopped =>
    simp only [Book.fulfil]
    cases ht : book.queue.take stopped with
    | refused => exact ⟨_, rfl, h.note nofun fun _ => rfl⟩
    | blocked =>
      refine ⟨_, rfl, h.note nofun fun hlast => ?_⟩
      rw [take_eq_blocked_iff, isBlocked, (h.finished hlast).1] at ht
      cases ht
    | taken n queue => exact ⟨_, rfl, h.take ht⟩
  | complete index children coin =>
    simp only [Book.fulfil]
    split
    · rename_i hi
      have hpos : book.queue.inFlight ≠ 0 := by
        rw [h.inFlight]
        omega
      obtain ⟨⟨exhausted, queue, coin'⟩, hc⟩ := exists_complete_eq_ok h.sound hpos
        (size_eq book.queue.frontier ▸ h.outstanding) children coin
      rw [hc]
      exact ⟨_, rfl, h.complete hi hc⟩
    · exact ⟨book, rfl, h⟩
  | close => exact ⟨_, rfl, h.close⟩

theorem run (h : Balanced book) (requests : List (Request N ρ)) :
    ∃ book', book.run requests = .ok book' ∧ Balanced book' := by
  induction requests generalizing book with
  | nil => exact ⟨book, rfl, h⟩
  | cons request requests ih =>
    obtain ⟨middle, hfulfil, hmiddle⟩ := h.fulfil request
    obtain ⟨book', hrun, hbook⟩ := ih hmiddle
    refine ⟨book', ?_, hbook⟩
    show (book.fulfil request).bind (fun book => book.run requests) = _
    rw [hfulfil]
    exact hrun

end Balanced

/-- The books of both kinds of queues balance, wherever new nodes are put and in whatever order the
requests are made. -/
theorem books_balance {S M : Type} (placement : Placement) (requests : List (Request (Node S M) ρ)) :
    (∃ book, Book.run { queue := { frontier := ({ placement } : BiasedDeque S M) } } requests = .ok book ∧
      Balanced book) ∧
    ∃ book, Book.run { queue := { frontier := (.empty : OpenList S M) } } requests = .ok book ∧
      Balanced book :=
  ⟨(Balanced.start trivial rfl).run requests, (Balanced.start OpenList.Sound.empty rfl).run requests⟩

end WorkQueue

end StateSearch
