import StateSearch.Pool.Shared
import StateSearch.Text.Duration

/-!
# Errors of a search

Ways in which a search ends without an answer that can be trusted.
-/

namespace StateSearch

inductive SearchError where
  /-- No path was found, but the tasks of some workers failed. -/
  | workerFaults (faults : List WorkerFault)
  /-- The search took longer than it was allowed to. -/
  | deadlineElapsed (limit : Duration)
  /-- The thread of the search failed. -/
  | threadFailed (message : String)
  deriving DecidableEq, Repr

def SearchError.text : SearchError → String
  | workerFaults faults =>
    let first := (faults.head?.map WorkerFault.message).getD "<none>"
    s!"search ended without a solution after {faults.length} worker fault(s), first: " ++ first
  | deadlineElapsed limit => "search did not finish within " ++ limit.text
  | threadFailed message => "search thread panicked: " ++ message

end StateSearch
