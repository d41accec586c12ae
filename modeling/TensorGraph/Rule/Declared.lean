/-
  Rules that are declared as data.

  Such a rule has a pattern and an action from a fixed list: it accepts or rejects every match, or
  makes one small edit at a bound node.

  The built-in rules plan first and commit then.  A declared rule has no plan: it answers whether
  its one edit was made, and if a role is missing or the edit is refused, the error is that of the
  rule.  So rules can be written down and put into a pipeline without code of their own, and what
  holds of all edits holds of their actions (`Action.keeps_perform`).
-/
import TensorGraph.Rule.Basic

namespace TensorGraph

variable {α : Type}

/-- What a declared rule does with a match. -/
inductive Action where
  | reject
  | accept
  /-- Accepts if the role is bound. -/
  | require (role : String)
  /-- Appends to the kind of a custom operator, unless the kind is longer than `limit` bytes. -/
  | extendKind (role suffix : String) (limit : Nat)
  | remove (role : String)
  /-- Lets the readers of one data node read another. -/
  | bypass (old new : String)
  | setAttribute (role name : String) (value : Attribute)

namespace Action

/-- Performs an action.  The answer is whether it did something with the match. -/
def perform (action : Action) (m : Match) : Edit α Bool := do
  match action with
  | reject => return false
  | accept => return true
  | require role =>
    let _ ← Edit.attempt (m.get role)
    return true
  | extendKind role suffix limit =>
    let id ← Edit.attempt (m.get role)
    match (← Edit.query fun g => g.operator id).operation with
    | .custom kind =>
      if limit < kind.utf8ByteSize then
        return false
      Edit.setOperation id (.custom (kind ++ suffix))
      return true
    | _ => return false
  | remove role =>
    let _ ← Edit.removeNode (← Edit.attempt (m.get role))
    return true
  | bypass old new =>
    let old ← Edit.attempt (m.get old)
    let new ← Edit.attempt (m.get new)
    Edit.moveReaders old new
    return true
  | setAttribute role name value =>
    let _ ← Edit.setAttribute (← Edit.attempt (m.get role)) name (some value)
    return true

end Action

end TensorGraph
