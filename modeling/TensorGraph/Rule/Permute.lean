/-
  Fusing consecutive permutes.

  Two permutes in a row are one permute with the composed order, or nothing at all if the orders
  cancel.  The data node between them must have no other reader.
-/
import TensorGraph.Rule.Plan
import TensorGraph.Rule.Name

namespace TensorGraph.PermuteRule

variable {α : Type}

/-- Two permutes to fuse: the nodes from the input of the first to the result of the second, the
composed order, and the shape stored at the result. -/
structure Plan where
  input : NodeId
  first : NodeId
  mid : NodeId
  second : NodeId
  last : NodeId
  composed : Permutation
  lastShape : Option Shape

/-- A permute that reads the result of a permute. -/
def pattern : Except Error Pattern :=
  Pattern.build
    ⟨[⟨"first", .operator .permute⟩, ⟨"mid", .data⟩, ⟨"second", .operator .permute⟩],
      [⟨"first", "mid", some 0⟩, ⟨"mid", "second", some 0⟩]⟩

/-- The permutation of a permute operator. -/
def permutationOf (g : Graph α) (op : NodeId) : Except Error Permutation := do
  match (← g.operator op).operation with
  | .permute order => axisOrder op order
  | _ => throw (.missingAttribute op "order")

/-- Accepts two permutes whose intermediate result has one reader and whose final result exists. -/
def plan (m : Match) (g : Graph α) : Planning Plan := do
  let first ← m.get "first"
  let mid ← m.get "mid"
  let second ← m.get "second"
  if (g.readers mid).length ≠ 1 then
    Planning.declineWith (nodeText mid ++ " has more than one consumer")
  let firstOrder ← permutationOf g first
  let secondOrder ← permutationOf g second
  let some composed := firstOrder.compose? secondOrder
    | throw (.fail (.invalidAttribute second (.lengthMismatch secondOrder.size firstOrder.size)))
  let input ← g.operand ⟨first, 0⟩
  let some last := g.result? ⟨second, 0⟩
    | Planning.declineWith (nodeText second ++ " has no output")
  let lastShape := (← g.content last).shape
  return ⟨input, first, mid, second, last, composed, lastShape⟩

/-- Removes both permutes if they cancel, else gives the composed order to the first. -/
def commit (p : Plan) : Edit α Unit := do
  if p.composed.isIdentity then
    Edit.moveReaders p.last p.input
    let _ ← Edit.removeNode p.second
    let _ ← Edit.removeNode p.last
    let _ ← Edit.removeNode p.mid
    let _ ← Edit.removeNode p.first
  else
    Edit.moveReaders p.last p.mid
    let _ ← Edit.removeNode p.second
    let _ ← Edit.removeNode p.last
    Edit.setOperation p.first (.permute p.composed.order)
    Edit.modifyContent p.mid fun d => { d with shape := p.lastShape }

/-- Fuses two permutes. -/
def replace (m : Match) : Edit α Bool :=
  planThenCommit RuleName.permute (plan m) commit

/-- The rule that fuses consecutive permutes. -/
def rule : Rule α where
  name := RuleName.permute
  repeats := .untilStable
  body := .replacing pattern replace

end TensorGraph.PermuteRule
