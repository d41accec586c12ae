/-
  The log: what rules, inference and edits report while they work.
-/

namespace TensorGraph

/-- The importance of a log entry. -/
inductive LogLevel where
  | debug
  | info
  | warn
deriving DecidableEq, Repr

/-- The word for a level. -/
def LogLevel.word : LogLevel → String
  | debug => "debug"
  | info => "info"
  | warn => "warn"

/-- A line of the log. -/
structure LogEntry where
  level : LogLevel
  text : String
deriving DecidableEq, Repr

end TensorGraph
