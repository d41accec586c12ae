/-
  Folding a multiplier into the thresholds of a binary quantisation.

  `x * m` exceeds a threshold exactly if `x` exceeds the threshold divided by `m`, as long as `m` is
  positive; where it is negative the comparison turns round, which is said by swapping the two
  output values there.  All operands are read by broadcasting.
-/
import TensorGraph.Tensor.Broadcast

namespace TensorGraph

/-- The elements of a constant and their shape. -/
structure Constant (α : Type) where
  values : List α
  shape : Shape

/-- The input range and the output range of a quantisation. -/
structure Thresholds (α : Type) where
  minIn : Constant α
  maxIn : Constant α
  minOut : Constant α
  maxOut : Constant α

variable {α : Type} [Scalar α]

/-- For each factor the first of a pair of values, or the second where the factor is negative. -/
def choose (factors first second : List α) : List α :=
  (factors.zip (first.zip second)).map fun (factor, x, y) =>
    if Scalar.isNegative factor then y else x

/-- A threshold divided by factors of shape `shape`. -/
def divide (threshold : Constant α) (factors : List α) (shape : Shape) :
    OptionT (Except Error) (Constant α) := do
  let some common := threshold.shape.broadcast? shape | failure
  let dividends ← broadcastTo threshold.values threshold.shape common
  let divisors ← broadcastTo factors shape common
  return ⟨List.zipWith Scalar.div dividends divisors, common⟩

/-- The thresholds that do for `x` what the given ones do for `x` times the multiplier; nothing if
the operands do not broadcast. -/
def foldMultiplier (multiplier : Constant α) (old : Thresholds α) :
    OptionT (Except Error) (Thresholds α) := do
  let some partly := multiplier.shape.broadcast? old.minOut.shape | failure
  let some shape := partly.broadcast? old.maxOut.shape | failure
  let factors ← broadcastTo multiplier.values multiplier.shape shape
  let low ← broadcastTo old.minOut.values old.minOut.shape shape
  let high ← broadcastTo old.maxOut.values old.maxOut.shape shape
  let minIn ← divide old.minIn factors shape
  let maxIn ← divide old.maxIn factors shape
  return { minIn, maxIn
           minOut := ⟨choose factors low high, shape⟩
           maxOut := ⟨choose factors high low, shape⟩ }

end TensorGraph
