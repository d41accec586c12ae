/-
  Broadcasting of tensor elements.

  `broadcastTo` writes out a tensor at a larger shape: each index of the target reads the source at
  its trailing coordinates, with coordinate zero on every axis where the source has dimension one.
  The source offset is the dot product of the index with strides that are zero on those axes, and
  the indices are walked by an odometer.  All arithmetic is on words, every read is checked, and
  room for all elements is asked for before the first one is read.
-/
import TensorGraph.Tensor.Basic

namespace TensorGraph

namespace Shape

/-- The dimensions of a shape at a larger rank: missing outer axes have dimension one. -/
def padTo (rank : Nat) (shape : Shape) : Shape :=
  List.replicate (rank - shape.length) 1 ++ shape

/-- Row-major strides, zero on the axes of dimension one, and the product of all dimensions.  The
products are taken from the innermost axis outwards and have to be words. -/
def strides : Shape → Except Error (List Nat × Nat)
  | [] => .ok ([], 1)
  | d :: shape => do
    let (inner, stride) ← strides shape
    let product ← checkedMul stride d
    return ((if d = 1 then 0 else stride) :: inner, product)

/-- The next index in row-major order, and whether all coordinates started again.  The innermost
coordinate moves on; one that reaches its dimension starts again at zero and moves the next outer
one. -/
def advance : Shape → List Nat → Except Error (List Nat × Bool)
  | d :: shape, i :: index => do
    let (inner, carry) ← advance shape index
    if carry then
      let next ← checkedAdd i 1
      return if next < d then (next :: inner, false) else (0 :: inner, true)
    else
      return (i :: inner, false)
  | _, _ => .ok ([], true)

/-- A sum to which the dot product of an index with the strides is added, term by term. -/
def addOffset : Nat → List Nat → List Nat → Except Error Nat
  | sum, i :: index, stride :: strides => do
    let term ← checkedMul i stride
    let next ← checkedAdd sum term
    addOffset next index strides
  | sum, _, _ => .ok sum

end Shape

/-- The number of elements at which a list is too large: an element has eight bytes, and the bytes
of a list are counted by a signed word. -/
def capacityLimit : Nat := wordLimit / 2 / 8

/-- Asks for room for a number of elements. -/
def reserve (count : Nat) : Except Error Unit :=
  if count < capacityLimit then .ok () else .error (.overflow .capacity)

/-- The element at an offset. -/
def elementAt {β : Type} (values : Array β) (offset : Nat) : Except Error β :=
  match values[offset]? with
  | some value => .ok value
  | none => .error (.overflow (.index offset values.size))

/-- Appends a number of elements to `out`: those at the offsets of an index of `shape` and of the
indices that follow it. -/
def walk {β : Type} (values : Array β) (shape : Shape) (strides : List Nat) :
    Nat → List Nat → Array β → Except Error (Array β)
  | 0, _, out => .ok out
  | count + 1, index, out => do
    let offset ← Shape.addOffset 0 index strides
    let value ← elementAt values offset
    let (next, _) ← shape.advance index
    walk values shape strides count next (out.push value)

/-- The elements of a tensor of shape `shape`, broadcast to `target`; nothing if the shape does not
broadcast to the target or does not count the elements. -/
def broadcastTo {β : Type} (values : List β) (shape target : Shape) :
    OptionT (Except Error) (List β) := do
  if shape.broadcast? target ≠ some target then failure
  let expected ← shape.count
  if values.length ≠ expected then failure
  let (strides, _) ← (shape.padTo target.length).strides
  let total ← target.count
  reserve total
  let out ← walk values.toArray target strides total (List.replicate target.length 0) #[]
  return out.toList

end TensorGraph
