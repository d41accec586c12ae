/-
  Rules that plan before they edit.

  A plan reads the graph around a match.  It fails, or declines the match with a note for the log,
  or says what to do; only then is the graph edited.  So a match that is declined leaves the graph
  as it was.
-/
import TensorGraph.Rule.Basic

namespace TensorGraph

variable {α π : Type}

/-- Why a plan ends early. -/
inductive Halt where
  | fail (error : Error)
  /-- The rule does not apply; the note, if any, says why. -/
  | decline (note : Option String)

/-- A computation that looks at a graph and plans an edit. -/
abbrev Planning := Except Halt

instance : MonadLift (Except Error) Planning where
  monadLift := Except.mapError Halt.fail

namespace Planning

/-- Declines without a word. -/
def decline : Planning π := throw (.decline none)

/-- Declines and notes why. -/
def declineWith (note : String) : Planning π := throw (.decline (some note))

end Planning

/-- Plans, and commits what was planned; the note of a declined match is logged under the name of
the rule.  The answer is whether there was something to commit. -/
def planThenCommit (name : String) (plan : Graph α → Planning π) (commit : π → Edit α Unit) :
    Edit α Bool := do
  match plan (← Edit.graph) with
  | .error (.fail e) => throw e
  | .error (.decline none) => return false
  | .error (.decline (some note)) =>
    Edit.log .debug (name ++ ": " ++ note)
    return false
  | .ok planned =>
    commit planned
    return true

end TensorGraph
