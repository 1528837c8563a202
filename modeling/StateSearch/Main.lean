import StateSearch.Program

/-!
# The command line program
-/

namespace StateSearch

/-- The file system of the machine. -/
def readFile (path : String) : IO Opened := do
  try
    return .text (← IO.FS.readFile path)
  catch _ =>
    let found ← try
        discard (IO.FS.Handle.mk path .read)
        pure true
      catch _ => pure false
    return if found then .unreadable else .missing

/-- Wait for a task until the clock shows `deadline`. -/
partial def await {α : Type} (task : Task (Except IO.Error α)) (deadline : Nat) :
    IO (Option α) := do
  if ← IO.hasFinished task then return (task.get.toOption)
  else if deadline ≤ (← IO.monoMsNow) then return none
  else
    IO.sleep 1
    await task deadline

/-- The machine that the program runs on. -/
def machine : Host IO where
  read := readFile
  within limit work := do
    let deadline := (← IO.monoMsNow) + limit
    await (← IO.asTask (IO.lazyPure work) .dedicated) deadline

end StateSearch

def main (arguments : List String) : IO UInt32 := do
  let outcome ← StateSearch.Program.run StateSearch.machine arguments
  outcome.output.forM IO.println
  outcome.error.forM IO.eprintln
  return outcome.exitCode
