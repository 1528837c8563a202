/-!
# Faults

A call that a problem answers may fail instead of giving an answer. What it leaves is a `Fault`: a
value that says why. The text of a fault is what reports show.
-/

namespace StateSearch

/-- Why a call failed. -/
inductive Fault where
  /-- The call gave up with a message. -/
  | raised (text : String)
  /-- The call gave up without a message. -/
  | wordless
  /-- A sum left the range of its word. -/
  | sumOutOfRange
  /-- A difference would have been negative. -/
  | differenceNegative
  /-- A remainder by zero was asked for. -/
  | zeroModulus
  /-- A list of `size` entries has none at `index`. -/
  | noSuchEntry (size index : Nat)
  deriving DecidableEq, Repr

namespace Fault

/-- The message of a fault, if it has one. -/
def text? : Fault → Option String
  | raised text => some text
  | wordless => none
  | sumOutOfRange => some "attempt to add with overflow"
  | differenceNegative => some "attempt to subtract with overflow"
  | zeroModulus => some "attempt to calculate the remainder with a divisor of zero"
  | noSuchEntry size index =>
    some s!"index out of bounds: the len is {size} but the index is {index}"

/-- What is reported of a fault. A fault without a text gets a fixed one. -/
def report (fault : Fault) : String :=
  fault.text?.getD "unknown panic"

end Fault

/-- The fault of a task: the worker that did the task, the depth of its node, and what was reported. -/
structure WorkerFault where
  worker : Nat
  depth : Nat
  message : String
  deriving DecidableEq, Repr

end StateSearch
