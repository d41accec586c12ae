/-
  Removing what nothing reads.

  An operator is dead if it has results and none of them is read; a data node is dead if it has
  neither producer nor reader.  Graph inputs and outputs are never dead, and an operator without
  results counts as an output.  Removing a node can make others dead, so rounds repeat until one
  finds nothing.
-/
import TensorGraph.Rule.Basic
import TensorGraph.Rule.Name

namespace TensorGraph.DeadRule

variable {α : Type}

/-- Whether a node is dead. -/
def isUnused (g : Graph α) (n : Node α) : Bool :=
  match n.opcode? with
  | some .output | some .parameter => false
  | some _ =>
    let results := g.successors n.id
    !results.isEmpty && results.all fun data => (g.readers data).isEmpty
  | none => (g.producer? n.id).isNone && (g.readers n.id).isEmpty

/-- The dead nodes, by id. -/
def unusedNodes (g : Graph α) : List NodeId :=
  (g.nodes.filter (isUnused g)).map (·.id)

/-- Removes nodes in turn. -/
def removeNodes : List NodeId → Edit α Unit
  | [] => return
  | id :: ids => do
    let n ← Edit.removeNode id
    Edit.log .debug ("Dead node elimination: " ++ n.kind.word ++ " '" ++ n.name ++ "'")
    removeNodes ids

/-- Removes dead nodes for at most `rounds` rounds.  Returns how many were removed. -/
def removeRounds : Nat → Edit α Nat
  | 0 => throw .exhausted
  | rounds + 1 => do
    let dead := unusedNodes (← Edit.graph)
    if dead.isEmpty then
      return 0
    removeNodes dead
    return dead.length + (← removeRounds rounds)

/-- Removes dead nodes until there are none.  Every round but the last removes a node. -/
def removeUnused : Edit α Nat := do
  removeRounds ((← Edit.graph).nodes.length + 1)

/-- The rule that removes dead nodes. -/
def rule : Rule α where
  name := RuleName.dead
  after := [RuleName.tile, RuleName.permute, RuleName.multiplier]
  body := .editing removeUnused

end TensorGraph.DeadRule
