/-
  Constant tensors: a shape and a buffer of elements.

  The buffer has elements for the four types that are computed with, and bytes for the others.  The
  shape is carried along and not compared with the number of elements; `ofFloats`, which builds the
  result of a fold, does compare them.
-/
import TensorGraph.Shape
import TensorGraph.Tensor.Scalar

namespace TensorGraph

/-- The stored elements of a tensor.  Single precision elements are kept as the scalars they stand
for.  Bytes of one of the four computed types are those that do not divide into elements. -/
inductive Buffer (α : Type) where
  | float64 (values : List α)
  | float32 (values : List α)
  | int64 (values : List Int64)
  | int32 (values : List Int32)
  | bytes (type : ElementType) (content : List UInt8)

/-- The element type of a buffer. -/
def Buffer.type {α : Type} : Buffer α → ElementType
  | float64 _ => .f64
  | float32 _ => .f32
  | int64 _ => .i64
  | int32 _ => .i32
  | bytes type _ => type

/-- A constant tensor. -/
structure Tensor (α : Type) where
  shape : Shape
  buffer : Buffer α

namespace Tensor

variable {α : Type}

/-- The element type of a tensor. -/
def type (t : Tensor α) : ElementType := t.buffer.type

/-- The elements as scalars, for the float and integer types. -/
def floats [Scalar α] (t : Tensor α) : Except Error (List α) :=
  match t.buffer with
  | .float64 values => .ok values
  | .float32 values => .ok values
  | .int64 values => .ok (values.map Scalar.ofInteger)
  | .int32 values => .ok (values.map fun n => Scalar.ofInteger n.toInt64)
  | .bytes type _ =>
    if type.isFloat || type.isInteger then .error (.tensorData .partialElement)
    else .error (.tensorData (.notFloats type))

/-- The elements as integers, for the integer types. -/
def integers (t : Tensor α) : Except Error (List Int64) :=
  match t.buffer with
  | .int64 values => .ok values
  | .int32 values => .ok (values.map Int32.toInt64)
  | .float64 _ => .error (.tensorData (.notIntegers .f64))
  | .float32 _ => .error (.tensorData (.notIntegers .f32))
  | .bytes type _ =>
    if type.isInteger then .error (.tensorData .partialElement)
    else .error (.tensorData (.notIntegers type))

/-- A float tensor of the wanted type; its elements are counted first. -/
def ofFloats [Scalar α] (values : List α) (shape : Shape) (type : ElementType) :
    Except Error (Tensor α) := do
  let expected ← shape.count
  if values.length ≠ expected then
    throw (.sizeMismatch values.length expected)
  match type with
  | .f64 => return ⟨shape, .float64 values⟩
  | .f32 => return ⟨shape, .float32 (values.map Scalar.single)⟩
  | other => throw (.tensorData (.notBuildable other))

/-- A one-dimensional integer tensor: of 32-bit integers for that type, else of 64-bit ones. -/
def ofIntegers (values : List Int64) (type : ElementType) : Tensor α :=
  match type with
  | .i32 => ⟨[values.length], .int32 (values.map Int64.toInt32)⟩
  | _ => ⟨[values.length], .int64 values⟩

end Tensor

end TensorGraph
