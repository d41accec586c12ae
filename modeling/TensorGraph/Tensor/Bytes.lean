/-
  Tensors from little-endian bytes.

  Bytes of a computed element type are read as elements if they divide into elements of its size;
  otherwise, and for the other types, they are kept as they are.
-/
import TensorGraph.Tensor.Basic

namespace TensorGraph

/-- The number with the given bytes, least significant byte first. -/
def littleEndian (bytes : List UInt8) : Nat :=
  bytes.foldr (fun b rest => b.toNat + 256 * rest) 0

/-- The consecutive groups of `n` bytes, `none` if some bytes are left over. -/
def groups? (n : Nat) (bytes : List UInt8) : Option (List (List UInt8)) :=
  if bytes.length % n = 0 then
    some ((List.range (bytes.length / n)).map fun i => (bytes.drop (i * n)).take n)
  else none

namespace Buffer

/-- The buffer that the bytes of an element type stand for. -/
def ofBytes (type : ElementType) (content : List UInt8) : Buffer Float :=
  let read {β : Type} (width : Nat) (wrap : List β → Buffer Float) (element : Nat → β) :
      Buffer Float :=
    match groups? width content with
    | some parts => wrap (parts.map fun part => element (littleEndian part))
    | none => .bytes type content
  match type with
  | .f64 => read 8 .float64 fun n => Float.ofBits (UInt64.ofNat n)
  | .f32 => read 4 .float32 fun n => (Float32.ofBits (UInt32.ofNat n)).toFloat
  | .i64 => read 8 .int64 fun n => Int64.ofNat n
  | .i32 => read 4 .int32 fun n => Int32.ofNat n
  | other => .bytes other content

end Buffer

end TensorGraph
