import StateSearch.Text.Quoted

/-!
# Errors of what is read

Why a text or a file cannot be used.
-/

namespace StateSearch

inductive InputError where
  /-- A text that does not describe a configuration. -/
  | config
  /-- A text that does not describe scenarios. -/
  | scenarios
  | missingFile (path : String)
  /-- A file that does not describe scenarios. -/
  | scenarioFile (path : String)
  deriving DecidableEq, Repr

def InputError.message : InputError → String
  | config => "invalid config YAML"
  | scenarios => "invalid scenario YAML"
  | missingFile path => "Failed to open file " ++ Text.quoted path
  | scenarioFile path => "invalid scenario file " ++ Text.quoted path

end StateSearch
