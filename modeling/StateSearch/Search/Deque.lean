/-!
# Double-ended queues

A queue that takes entries at either end. It is kept as two stacks, one for each end, and its
meaning is the list `toList` of its entries from front to back. Main statements: what each operation
does to that list.
-/

namespace StateSearch

/-- A list of entries with cheap access to both ends. -/
structure Deque (α : Type) where
  /-- The entries next to the front, the first one on top. -/
  front : List α := []
  /-- The entries next to the back, the last one on top. -/
  back : List α := []
  size : Nat := 0
  size_eq : size = front.length + back.length := by simp

namespace Deque

variable {α : Type}

def empty : Deque α := ⟨[], [], 0, rfl⟩

/-- The entries from front to back. -/
def toList (queue : Deque α) : List α := queue.front ++ queue.back.reverse

def pushFront (queue : Deque α) (entry : α) : Deque α where
  front := entry :: queue.front
  back := queue.back
  size := queue.size + 1
  size_eq := by have := queue.size_eq; simp; omega

def pushBack (queue : Deque α) (entry : α) : Deque α where
  front := queue.front
  back := entry :: queue.back
  size := queue.size + 1
  size_eq := by have := queue.size_eq; simp; omega

/-- The first entry. -/
def peekFront? (queue : Deque α) : Option α :=
  match queue.front with
  | entry :: _ => some entry
  | [] => queue.back.getLast?

/-- The first entry and the queue without it. -/
def popFront? (queue : Deque α) : Option (α × Deque α) :=
  match hf : queue.front with
  | entry :: front => some (entry,
      { front, back := queue.back, size := queue.size - 1
        size_eq := by have := queue.size_eq; simp only [hf, List.length_cons] at this; omega })
  | [] =>
    match hb : queue.back.reverse with
    | [] => none
    | entry :: front => some (entry,
        { front, size := queue.size - 1
          size_eq := by
            have := queue.size_eq
            have hl := congrArg List.length hb
            simp only [hf, List.length_reverse, List.length_cons, List.length_nil] at this hl ⊢
            omega })

/-- The last entry and the queue without it. -/
def popBack? (queue : Deque α) : Option (α × Deque α) :=
  match hb : queue.back with
  | entry :: back => some (entry,
      { front := queue.front, back, size := queue.size - 1
        size_eq := by have := queue.size_eq; simp only [hb, List.length_cons] at this; omega })
  | [] =>
    match hf : queue.front.reverse with
    | [] => none
    | entry :: back => some (entry,
        { back, size := queue.size - 1
          size_eq := by
            have := queue.size_eq
            have hl := congrArg List.length hf
            simp only [hb, List.length_reverse, List.length_cons, List.length_nil] at this hl ⊢
            omega })

/-! ### The operations on the list of entries -/

@[simp] theorem toList_empty : (empty : Deque α).toList = [] := rfl

@[simp] theorem toList_pushFront (queue : Deque α) (entry : α) :
    (queue.pushFront entry).toList = entry :: queue.toList := rfl

@[simp] theorem toList_pushBack (queue : Deque α) (entry : α) :
    (queue.pushBack entry).toList = queue.toList ++ [entry] := by
  simp [toList, pushBack]

theorem size_eq_length (queue : Deque α) : queue.size = queue.toList.length := by
  simp [toList, queue.size_eq]

theorem peekFront?_eq (queue : Deque α) : queue.peekFront? = queue.toList.head? := by
  unfold peekFront?
  split <;> rename_i hf <;> simp [toList, hf]

/-- Taking from the front gives the head of the list and leaves the tail. -/
theorem map_popFront? (queue : Deque α) :
    (queue.popFront?.map fun (entry, rest) => (entry, rest.toList)) =
      match queue.toList with
      | [] => none
      | entry :: rest => some (entry, rest) := by
  unfold popFront?
  split
  · rename_i hf
    simp [toList, hf]
  · rename_i hf
    split <;> rename_i hb <;> simp [toList, hf, hb]

/-- Taking from the back gives the last entry and leaves the others. -/
theorem map_popBack? (queue : Deque α) :
    (queue.popBack?.map fun (entry, rest) => (entry, rest.toList.reverse)) =
      match queue.toList.reverse with
      | [] => none
      | entry :: rest => some (entry, rest) := by
  unfold popBack?
  split
  · rename_i hb
    simp [toList, hb]
  · rename_i hb
    split <;> rename_i hf <;> simp [toList, hb, hf]

end Deque

end StateSearch
