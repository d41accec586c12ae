/-
  Shape inference.

  Each way of inference computes the shapes of an operator's results, one for each output port from
  zero on.  Over a whole graph they run in topological order and what they compute is stored, so
  that every operator sees the inferred shapes of its inputs.
-/
import TensorGraph.Graph.Edit

namespace TensorGraph

variable {α : Type}

namespace Graph

/-- The shape of the data node that feeds an input of an operator. -/
def operandShape (g : Graph α) (op : NodeId) (index : Nat) : Except Error Shape := do
  let content ← g.content (← g.operand ⟨op, index⟩)
  match content.knownShape with
  | some shape => return shape
  | none => throw (.shapeInference op (.unknownInput index))

/-- The shape that is already stored at the first output of an operator. -/
def storedShape (g : Graph α) (op : NodeId) (what : String) : Except Error Shape := do
  let some data := g.result? ⟨op, 0⟩ | throw (.shapeInference op (.noOutput what))
  match (← g.content data).knownShape with
  | some shape => return shape
  | none => throw (.shapeInference op (.unknownOutput what))

end Graph

/-! ## Reshape -/

/-- A dimension of a reshape, read against the input shape: a known dimension, or `none` if it is to
be inferred. -/
def resolveDim (op : NodeId) (input : Shape) (position : Nat) (dim : Int64) :
    Except Error (Option Nat) :=
  if dim = -1 then .ok none
  else if dim = 0 then
    match input[position]? with
    | some copied => .ok (some copied)
    | none => .error (.invalidAttribute op (.missingAxis position))
  else if dim > 0 then .ok (some dim.toInt.toNat)
  else .error (.invalidAttribute op (.negative dim.toInt))

/-- The dimensions of a reshape from a position on, read from left to right; at most one of them may
be inferred. -/
def resolveDims (op : NodeId) (input : Shape) :
    Nat → Bool → List Int64 → Except Error (List (Option Nat))
  | _, _, [] => .ok []
  | position, inferred, dim :: dims => do
    let first ← resolveDim op input position dim
    if first.isNone && inferred then
      throw (.invalidAttribute op .manyInferred)
    let rest ← resolveDims op input (position + 1) (inferred || first.isNone) dims
    return first :: rest

/-- The shape that a reshape of `op` gives to a tensor of shape `input`.  The inferred dimension is
what is left of the element count. -/
def resolveReshape (op : NodeId) (input : Shape) (dims : List Int64) : Except Error Shape := do
  let resolved ← resolveDims op input 0 false dims
  let total ← input.count
  let known ← Shape.count (resolved.map fun d => d.getD 1)
  if resolved.contains none then
    if known = 0 || total % known ≠ 0 then
      throw (.invalidAttribute op (.notDivisible total))
  else if known ≠ total then
    throw (.sizeMismatch known total)
  return resolved.map fun d => d.getD (total / known)

/-! ## The ways of inference -/

namespace Inference

/-- The shapes of the results of `op`, one for each output port. -/
def run (inference : Inference) (g : Graph α) (op : NodeId) : Except Error (List Shape) :=
  match inference with
  | .parameter => do return [← g.storedShape op "parameter"]
  | .const => do return [← g.storedShape op "constant"]
  | .output => return []
  | .mul => do
    let lhs ← g.operandShape op 0
    let rhs ← g.operandShape op 1
    match lhs.broadcast? rhs with
    | some shape => return [shape]
    | none => throw (.shapeInference op (.notBroadcastable lhs rhs))
  | .quantize => do return [← g.operandShape op 0]
  | .permute => do
    match (← g.operator op).operation with
    | .permute order =>
      let input ← g.operandShape op 0
      let p ← axisOrder op order
      match p.permute? input with
      | some shape => return [shape]
      | none => throw (.shapeInference op (.rankMismatch order.length input.length))
    | _ => throw (.invalidAttribute op (.notA "Permute"))
  | .tile => do
    match (← g.operator op).operation with
    | .tile axis tiles =>
      let input ← g.operandShape op 0
      match input[axis]? with
      | some dim => return [input.set axis (← checkedMul dim tiles)]
      | none => throw (.invalidAttribute op (.axisOutOfRange axis input.length))
    | _ => throw (.invalidAttribute op (.notA "Tile"))
  | .reshape => do
    match (← g.operator op).operation with
    | .reshape dims => return [← resolveReshape op (← g.operandShape op 0) dims]
    | _ => throw (.invalidAttribute op (.notA "Reshape"))

end Inference

/-! ## The whole graph -/

namespace Edit

/-- Stores an inferred shape at an output port, if there is a data node.  Returns how many stored
shapes changed. -/
def storeShape (port : OutputPort) (shape : Shape) : Edit α Nat := do
  match (← graph).result? port with
  | none => return 0
  | some data =>
    let content ← query fun g => g.content data
    if content.shape = some shape then
      return 0
    log .debug ("Shape inference: " ++ nodeText port.node ++ " output " ++ toString port.index
      ++ " -> " ++ Text.naturals shape)
    modifyContent data fun d => { d with shape := some shape }
    return 1

/-- Stores shapes at the output ports of an operator from an index on. -/
def storeShapes (op : NodeId) : Nat → List Shape → Edit α Nat
  | _, [] => return 0
  | index, shape :: shapes => do
    let first ← storeShape ⟨op, index⟩ shape
    let rest ← storeShapes op (index + 1) shapes
    return first + rest

/-- Infers the results of one node. -/
def inferNode (id : NodeId) : Edit α Nat := do
  let n ← query fun g => g.node id
  match n.operator?.bind (·.inference) with
  | none => return 0
  | some inference => storeShapes id 0 (← query fun g => inference.run g id)

/-- Infers the results of the nodes in turn. -/
def inferNodes : List NodeId → Edit α Nat
  | [] => return 0
  | id :: ids => do
    let first ← inferNode id
    let rest ← inferNodes ids
    return first + rest

/-- Infers and stores all shapes.  Returns how many stored shapes changed. -/
def inferAll : Edit α Nat := do
  inferNodes (← graph).topologicalOrder

end Edit

end TensorGraph
