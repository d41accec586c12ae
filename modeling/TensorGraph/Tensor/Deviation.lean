/-
  How far a list of numbers is from an expected one.

  The root of the mean square deviation, divided by the range of the expected values.  A range of
  zero counts as deviation one, and two empty lists do not deviate.
-/
import TensorGraph.Error

namespace TensorGraph

/-- The larger of two numbers; a number is preferred to a NaN. -/
def maxNumber (x y : Float) : Float :=
  if x.isNaN then y else if y.isNaN then x else if x < y then y else x

/-- The smaller of two numbers; a number is preferred to a NaN. -/
def minNumber (x y : Float) : Float :=
  if x.isNaN then y else if y.isNaN then x else if y < x then y else x

/-- The normalised root mean square deviation of `actual` from `expected`; sums run from left to
right. -/
def deviation (actual expected : List Float) : Except Error Float := do
  if actual.length ≠ expected.length then
    throw (.sizeMismatch actual.length expected.length)
  if expected.isEmpty then
    return 0.0
  let squares := (expected.zip actual).map fun (e, a) => (e - a) * (e - a)
  let root := (squares.foldl (· + ·) 0.0 / expected.length.toFloat).sqrt
  let infinity : Float := 1.0 / 0.0
  let greatest := expected.foldl maxNumber (-infinity)
  let least := expected.foldl minNumber infinity
  if greatest - least == 0.0 then
    return 1.0
  return root / (greatest - least)

end TensorGraph
