import StateSearch.Pool.Slot
import Mathlib.Logic.Function.Basic

/-!
# Users of a slot

Any number of users work on one slot, each with one operation at a time, in steps that happen at one
moment each. Between the steps of one user every other user can make steps of its own.

* The flag is looked at without the lock, the slot only with it.
* Putting in a value takes three steps: look at the flag (`act`), enter the locked section and write the
  value (`enter`), and raise the flag, wake whoever sleeps and unlock the slot (`act`). The flag is still
  down between the last two, and whoever looks at it then is told so.
* One who waits looks at the slot, and sleeps while nothing is in it. It is woken when the slot is
  resolved, may wake for no reason at all, and with a time limit it looks once more when the time is over.
-/

namespace StateSearch

/-- What can be asked of a slot. -/
inductive SlotOperation (α : Type) where
  | trySet (value : α)
  | markExhausted
  | isSet
  | isResolved
  | wait
  /-- Wait until the slot is resolved or the time is over. -/
  | waitTimeout
  deriving DecidableEq, Repr

/-- What an operation comes back with. -/
inductive SlotAnswer (α : Type) where
  /-- Whether the value went in. -/
  | tried (won : Bool)
  | marked
  /-- The flag, or whether the slot is resolved. -/
  | told (answer : Bool)
  /-- The outcome that the slot is resolved to, or nothing if it is not resolved. -/
  | found (resolution? : Option (Option α))
  deriving DecidableEq, Repr

/-- What a user is doing. -/
inductive SlotActivity (α : Type) where
  | idle
  /-- The first step of an operation comes next, or the next look at the slot. -/
  | ready (operation : SlotOperation α)
  /-- The flag was down, and the locked section comes next. -/
  | offering (value : α)
  /-- The value is written, and the flag comes next. The slot is locked. -/
  | raising (value : α)
  | asleep (isLimited : Bool)
  /-- The time is over, and the last look at the slot comes next. -/
  | late
  deriving DecidableEq, Repr

namespace SlotActivity

variable {α : Type}

/-- What a user does when everybody is woken. -/
def woken : SlotActivity α → SlotActivity α
  | .asleep false => .ready .wait
  | .asleep true => .ready .waitTimeout
  | activity => activity

end SlotActivity

/-- An answer that a user got. -/
structure SlotRecord (ι α : Type) where
  user : ι
  operation : SlotOperation α
  answer : SlotAnswer α
  deriving DecidableEq, Repr

/-- Whether a value of the user's went in. -/
def SlotRecord.won {ι α : Type} (record : SlotRecord ι α) : Bool :=
  match record.answer with
  | .tried won => won
  | _ => false

/-- What can happen to a user next. -/
inductive SlotEvent (α : Type) where
  /-- An idle user begins an operation. -/
  | call (operation : SlotOperation α)
  /-- A user makes the next step of its operation. -/
  | act
  /-- A user who saw the flag down enters the locked section. -/
  | enter
  /-- A sleeper wakes up for no reason. -/
  | wake
  /-- A sleeper's time is over. -/
  | expire
  deriving DecidableEq, Repr

/-- A slot with its users, and the user who has it locked from one step to another. -/
structure SlotUsers (ι α : Type) where
  slot : Slot α := {}
  holder : Option ι := none
  activity : ι → SlotActivity α := fun _ => .idle

namespace SlotUsers

variable {ι α : Type} [DecidableEq ι]

/-- What a step comes to: an answer, if the operation is done, and the users afterwards. -/
abbrev Outcome (ι α : Type) : Type := Option (SlotRecord ι α) × SlotUsers ι α

/-- One user does something else from now on. -/
def turnTo (users : SlotUsers ι α) (user : ι) (activity : SlotActivity α) : SlotUsers ι α :=
  { users with activity := Function.update users.activity user activity }

/-- Wake whoever sleeps. -/
def wakeAll (users : SlotUsers ι α) : SlotUsers ι α :=
  { users with activity := fun user => (users.activity user).woken }

/-- The operation of a user is done. -/
def finish (users : SlotUsers ι α) (user : ι) (operation : SlotOperation α)
    (answer : SlotAnswer α) : Outcome ι α :=
  (some ⟨user, operation, answer⟩, users.turnTo user .idle)

/-- A look at the slot by one who waits. -/
def look (users : SlotUsers ι α) (user : ι) (operation : SlotOperation α) (isLimited : Bool) :
    Outcome ι α :=
  match users.slot.resolution? with
  | some resolution => users.finish user operation (.found (some resolution))
  | none => (none, users.turnTo user (.asleep isLimited))

/-- The locked section of one who says that nobody will put in a value. -/
def exhaust (users : SlotUsers ι α) (user : ι) : Outcome ι α :=
  let marked := { users with slot := users.slot.markExhausted }
  (if users.slot.isResolved then marked else marked.wakeAll).finish user .markExhausted .marked

/-- The first step of an operation. -/
def start (users : SlotUsers ι α) (user : ι) : SlotOperation α → Option (Outcome ι α)
  | .trySet value =>
    some (if users.slot.flag then users.finish user (.trySet value) (.tried false)
      else (none, users.turnTo user (.offering value)))
  | .isSet => some (users.finish user .isSet (.told users.slot.flag))
  | .markExhausted => if users.holder.isSome then none else some (users.exhaust user)
  | .isResolved =>
    if users.holder.isSome then none
    else some (users.finish user .isResolved (.told users.slot.isResolved))
  | .wait => if users.holder.isSome then none else some (users.look user .wait false)
  | .waitTimeout => if users.holder.isSome then none else some (users.look user .waitTimeout true)

/-- Enter the locked section with a value. The slot stays locked if the value goes in. -/
def offer (users : SlotUsers ι α) (user : ι) (value : α) : Outcome ι α :=
  match users.slot.content with
  | .pending =>
    (none, { users with slot.content := .assigned value, holder := some user }.turnTo user
      (.raising value))
  | _ => users.finish user (.trySet value) (.tried false)

/-- Raise the flag, wake whoever sleeps and unlock the slot. -/
def raise (users : SlotUsers ι α) (user : ι) (value : α) : Outcome ι α :=
  { users with slot.flag := true, holder := none }.wakeAll.finish user (.trySet value) (.tried true)

/-- What an event comes to, if it can happen. What needs the lock has to wait until the slot is
unlocked. -/
def step (users : SlotUsers ι α) (user : ι) (event : SlotEvent α) : Option (Outcome ι α) :=
  match event, users.activity user with
  | .call operation, .idle => some (none, users.turnTo user (.ready operation))
  | .act, .ready operation => users.start user operation
  | .enter, .offering value =>
    if users.holder.isSome then none else some (users.offer user value)
  | .act, .raising value => some (users.raise user value)
  | .act, .late =>
    if users.holder.isSome then none
    else some (users.finish user .waitTimeout (.found users.slot.resolution?))
  | .wake, .asleep isLimited => some (none, users.turnTo user (SlotActivity.asleep isLimited).woken)
  | .expire, .asleep true => some (none, users.turnTo user .late)
  | _, _ => none

/-- What several events come to, if they can happen in this order: the answers, in the order in which they
were given, and the users afterwards. -/
def run (users : SlotUsers ι α) :
    List (ι × SlotEvent α) → Option (List (SlotRecord ι α) × SlotUsers ι α)
  | [] => some ([], users)
  | (user, event) :: rest => do
    let (record?, users) ← users.step user event
    let (records, users) ← users.run rest
    some (record?.toList ++ records, users)

end SlotUsers

end StateSearch
