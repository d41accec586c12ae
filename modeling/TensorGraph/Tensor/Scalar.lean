/-
  The arithmetic that tensor elements need.

  Everything else in the library is written for an arbitrary `Scalar`: a run of the program takes
  `Float`, whose operations round, and a statement about its meaning can take a field of exact
  numbers instead.
-/

namespace TensorGraph

/-- The operations that constant folding performs on elements. -/
class Scalar (α : Type) where
  /-- The quotient of two elements. -/
  div : α → α → α
  /-- Whether an element is zero, of either sign. -/
  isZero : α → Bool
  /-- Whether an element is below zero. -/
  isNegative : α → Bool
  /-- The nearest element that single precision can store. -/
  single : α → α
  /-- The element nearest to an integer. -/
  ofInteger : Int64 → α

instance : Scalar Float where
  div := fun x y => x / y
  isZero := fun x => x == 0.0
  isNegative := fun x => x < 0.0
  single := fun x => x.toFloat32.toFloat
  ofInteger := fun n => n.toFloat

end TensorGraph
