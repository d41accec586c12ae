/-
  Operations: what an operator computes, with its parameters.
-/
import TensorGraph.Operation.Slice

namespace TensorGraph

/-- What an operator computes. -/
inductive Operation where
  /-- A graph input; its output carries the shape. -/
  | parameter
  /-- A source of a constant. -/
  | const
  /-- A graph output. -/
  | output
  | mul
  /-- Clamps to an input range and maps to evenly spaced points of an output range. -/
  | quantize (levels : Nat)
  /-- Reorders the axes: output axis `i` is input axis `order[i]`. -/
  | permute (order : List Nat)
  /-- Repeats the input along one axis. -/
  | tile (axis tiles : Nat)
  /-- Reads the elements at another shape; `-1` is inferred and `0` copies an input dimension. -/
  | reshape (dims : List Int64)
  | stridedSlice (masks : SliceMasks)
  /-- Any operator that no rule knows. -/
  | custom (kind : String)
deriving DecidableEq, Repr

/-- An operation without its parameters. -/
inductive Opcode where
  | parameter | const | output | mul | quantize | permute | tile | reshape | stridedSlice | custom
deriving DecidableEq, Repr

namespace Operation

/-- The type of an operation. -/
def type : Operation → Opcode
  | parameter => .parameter
  | const => .const
  | output => .output
  | mul => .mul
  | quantize _ => .quantize
  | permute _ => .permute
  | tile _ _ => .tile
  | reshape _ => .reshape
  | stridedSlice _ => .stridedSlice
  | custom _ => .custom

/-- The reshape to a known shape; dimensions of `2 ^ 63` and more become negative. -/
def reshapeTo (shape : Shape) : Operation :=
  .reshape (shape.map Int64.ofNat)

end Operation

/-- Whether a quantisation has two levels, so that every value becomes one of two. -/
def hasTwoLevels (levels : Nat) : Bool :=
  levels == 2

/-- The permutation that a `permute` operation of `node` performs. -/
def axisOrder (node : NodeId) (order : List Nat) : Except Error Permutation :=
  match Permutation.ofOrder? order with
  | some p => .ok p
  | none => .error (.invalidAttribute node (.notPermutation order))

end TensorGraph
