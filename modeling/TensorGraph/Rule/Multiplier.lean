/-
  Fusing a multiplication into the binary quantisation of its result.

  A quantisation of two levels that reads the product of a tensor and a constant reads the tensor
  instead, with thresholds that have the constant folded in.  No threshold may be shared, the
  constant must have no zero, and neither it nor the new thresholds may enlarge the tensor.
-/
import TensorGraph.Rule.Plan
import TensorGraph.Rule.Threshold
import TensorGraph.Rule.Name

namespace TensorGraph.MultiplierRule

variable {α : Type} [Scalar α]

/-- The input ports of the thresholds of a quantisation: the input range, then the output range. -/
def thresholdPorts : List Nat := [1, 2, 3, 4]

/-- A multiplication to fuse: its input port for the tensor, its result, the quantisation, and the
new values of the threshold nodes. -/
structure Plan (α : Type) where
  mul : NodeId
  tensorPort : Nat
  product : NodeId
  quantize : NodeId
  thresholds : List (NodeId × Tensor α)

/-- A quantisation that reads a product. -/
def pattern : Except Error Pattern :=
  Pattern.build
    ⟨[⟨"preop", .operator .mul⟩, ⟨"preoped", .data⟩, ⟨"quantize", .operator .quantize⟩],
      [⟨"preop", "preoped", some 0⟩, ⟨"preoped", "quantize", some 0⟩]⟩

/-- The float constant at a data node, with its element type; nothing if there is no value or its
elements are no floats. -/
def floatConstant? (g : Graph α) (data : NodeId) :
    Except Error (Option (Constant α × ElementType)) := do
  match (← g.content data).value with
  | none => return none
  | some value =>
    if value.type.isFloat then
      return some (⟨← value.floats, value.shape⟩, value.type)
    return none

/-- The data nodes at the given inputs of a quantisation, each with no other reader. -/
def thresholdNodes (g : Graph α) (quantize : NodeId) : List Nat → Planning (List NodeId)
  | [] => return []
  | port :: ports => do
    let some data := g.feeding? ⟨quantize, port⟩
      | Planning.declineWith (nodeText quantize ++ " input " ++ toString port
            ++ " is not connected")
    if (g.readers data).length ≠ 1 then
      Planning.declineWith ("threshold " ++ nodeText data ++ " is shared")
    let rest ← thresholdNodes g quantize ports
    return data :: rest

/-- The float constants at the given data nodes. -/
def thresholdConstants (g : Graph α) : List NodeId → Planning (List (Constant α × ElementType))
  | [] => return []
  | data :: nodes => do
    let some constant ← (floatConstant? g data : Except Error _)
      | Planning.declineWith ("threshold " ++ nodeText data ++ " is not a float constant")
    let rest ← thresholdConstants g nodes
    return constant :: rest

/-- The tensor with the elements of a constant. -/
def toTensor (constant : Constant α) (type : ElementType) : Except Error (Tensor α) :=
  Tensor.ofFloats constant.values constant.shape type

/-- Accepts a binary quantisation of a tensor times a constant if the constant can be folded. -/
def plan (m : Match) (g : Graph α) : Planning (Plan α) := do
  let mul ← m.get "preop"
  let product ← m.get "preoped"
  let quantize ← m.get "quantize"
  let .quantize levels := (← g.operator quantize).operation | Planning.decline
  unless hasTwoLevels levels do
    Planning.declineWith (nodeText quantize ++ " has " ++ toString levels ++ " levels")
  if (g.readers product).length ≠ 1 then
    Planning.declineWith (nodeText product ++ " has more than one consumer")
  let nodes ← thresholdNodes g quantize thresholdPorts
  -- one input of the multiplication is the tensor, the other the multiplier
  let lhs ← g.operand ⟨mul, 0⟩
  let rhs ← g.operand ⟨mul, 1⟩
  let lhsContent ← g.content lhs
  let rhsContent ← g.content rhs
  if lhsContent.isConstant = rhsContent.isConstant then
    Planning.declineWith (nodeText mul ++ " needs exactly one constant input")
  let tensorPort := if lhsContent.isConstant then 1 else 0
  let tensor := if lhsContent.isConstant then rhs else lhs
  let multiplier := if lhsContent.isConstant then lhs else rhs
  let some (factor, _) ← (floatConstant? g multiplier : Except Error _)
    | Planning.declineWith ("multiplier " ++ nodeText multiplier ++ " is not a float constant")
  if factor.values.any Scalar.isZero then
    Planning.declineWith ("multiplier " ++ nodeText multiplier ++ " contains zeros")
  -- the quantisation must see the same shape without the multiplication
  let some shape := (← g.content tensor).knownShape
    | Planning.declineWith ("shape of " ++ nodeText tensor ++ " is unknown")
  unless shape.absorbs factor.shape do
    Planning.declineWith ("multiplier " ++ nodeText multiplier ++ " broadcasts "
      ++ Text.naturals shape ++ " to a larger shape")
  let constants ← thresholdConstants g nodes
  let [(minIn, t₁), (maxIn, t₂), (minOut, t₃), (maxOut, t₄)] := constants | Planning.decline
  let some folded ← ((foldMultiplier factor { minIn, maxIn, minOut, maxOut }).run : Except Error _)
    | Planning.declineWith ("thresholds of " ++ nodeText quantize ++ " do not broadcast")
  let parts := [(folded.minIn, t₁), (folded.maxIn, t₂), (folded.minOut, t₃), (folded.maxOut, t₄)]
  if let some (part, _) := parts.find? fun part => !shape.absorbs part.1.shape then
    Planning.declineWith ("folded threshold of shape " ++ Text.naturals part.shape
      ++ " broadcasts " ++ Text.naturals shape ++ " to a larger shape")
  let tensors ← (parts.mapM fun (constant, type) => toTensor constant type : Except Error _)
  return ⟨mul, tensorPort, product, quantize, nodes.zip tensors⟩

/-- Stores the new thresholds and lets the quantisation read the tensor itself. -/
def commit (p : Plan α) : Edit α Unit := do
  p.thresholds.forM fun (data, value) =>
    Edit.modifyContent data fun d => { d with value := some value, shape := some value.shape }
  let _ ← Edit.unplug ⟨p.quantize, 0⟩
  Edit.moveInput ⟨p.mul, p.tensorPort⟩ ⟨p.quantize, 0⟩
  let _ ← Edit.removeNode p.mul
  let _ ← Edit.removeNode p.product

/-- Fuses a multiplication into a quantisation. -/
def replace (m : Match) : Edit α Bool :=
  planThenCommit RuleName.multiplier (plan m) commit

/-- The rule that fuses multiplications into binary quantisations. -/
def rule : Rule α where
  name := RuleName.multiplier
  body := .replacing pattern replace

end TensorGraph.MultiplierRule
