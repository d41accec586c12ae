/-
  Shapes, their element counts and their broadcasting.

  A dimension is a 64-bit word.  Elements are counted by multiplying from left to right, starting at
  one, and counting fails as soon as a partial product is no word; so a zero dimension only saves
  what stands to its right.  Broadcasting aligns two shapes at their last axis: on every axis the
  dimensions agree or one of them is one, and a missing axis counts as one.
-/
import TensorGraph.Error

namespace TensorGraph

/-- The number of values of a 64-bit word. -/
def wordLimit : Nat := UInt64.size

/-- The product of two words, if it is a word. -/
def checkedMul (a b : Nat) : Except Error Nat :=
  if a * b < wordLimit then .ok (a * b) else .error (.overflow .multiply)

/-- The sum of two words, if it is a word. -/
def checkedAdd (a b : Nat) : Except Error Nat :=
  if a + b < wordLimit then .ok (a + b) else .error (.overflow .add)

/-- The dimensions of a tensor, outermost axis first. -/
abbrev Shape := List Nat

namespace Shape

/-- The number of elements of a tensor of this shape, multiplied up from left to right. -/
def count (shape : Shape) : Except Error Nat :=
  shape.foldlM checkedMul 1

/-- The dimension that two dimensions of one axis broadcast to. -/
def broadcastDim? (l r : Nat) : Option Nat :=
  if l = r then some l
  else if l = 1 then some r
  else if r = 1 then some l
  else none

/-- Broadcasting of shapes that are written innermost axis first. -/
def broadcastInner? : List Nat → List Nat → Option (List Nat)
  | [], r => some r
  | l, [] => some l
  | a :: l, b :: r => do
    let d ← broadcastDim? a b
    let rest ← broadcastInner? l r
    return d :: rest

/-- The least shape that two shapes broadcast to, `none` if they are incompatible. -/
def broadcast? (lhs rhs : Shape) : Option Shape :=
  (broadcastInner? lhs.reverse rhs.reverse).map List.reverse

/-- Whether broadcasting against `other` leaves `shape` as it is. -/
def absorbs (shape other : Shape) : Bool :=
  broadcast? shape other == some shape

end Shape

end TensorGraph
