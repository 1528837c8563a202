/-!
# Write-once slots

A slot holds the first value that is put into it, for good. When nobody is going to put in a value
any more the slot is marked as exhausted instead. A flag beside the slot says whether a value is
there, so that it can be asked without looking into the slot itself.

The operations are the steps that happen at one moment each. Putting in a value takes two: look at
the flag, and then, with the slot locked, at the slot (`trySet`).
-/

namespace StateSearch

/-- What a slot holds. -/
inductive SlotContent (α : Type) where
  | pending
  | assigned (value : α)
  /-- Nobody will put in a value. -/
  | exhausted
  deriving DecidableEq, Repr

/-- A slot with its flag. -/
structure Slot (α : Type) where
  content : SlotContent α := .pending
  /-- Whether a value has been put in. -/
  flag : Bool := false
  deriving DecidableEq, Repr

namespace Slot

variable {α : Type}

/-- Put in a value unless the slot is taken or exhausted. The answer says whether it went in. -/
def assign (slot : Slot α) (value : α) : Bool × Slot α :=
  match slot.content with
  | .pending => (true, ⟨.assigned value, true⟩)
  | _ => (false, slot)

/-- Look at the flag, and put in the value if the flag is down. -/
def trySet (slot : Slot α) (value : α) : Bool × Slot α :=
  if slot.flag then (false, slot) else slot.assign value

/-- Say that nobody will put in a value. A value that is there stays. -/
def markExhausted (slot : Slot α) : Slot α :=
  match slot.content with
  | .pending => { slot with content := .exhausted }
  | _ => slot

def isResolved (slot : Slot α) : Bool :=
  match slot.content with
  | .pending => false
  | _ => true

/-- The outcome of a resolved slot: its value, or nothing if it is exhausted. -/
def resolution? (slot : Slot α) : Option (Option α) :=
  match slot.content with
  | .pending => none
  | .assigned value => some (some value)
  | .exhausted => some none

theorem content_of_resolution? {slot : Slot α} {outcome : Option α} (h : slot.resolution? = some outcome) :
    slot.content = outcome.elim .exhausted .assigned := by
  unfold resolution? at h
  split at h <;> cases h <;> assumption

/-- The value, if there is one. -/
def value? (slot : Slot α) : Option α :=
  slot.resolution?.join

end Slot

end StateSearch
