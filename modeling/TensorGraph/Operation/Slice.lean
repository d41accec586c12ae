/-
  The masks of a strided slice.

  A slice reads its input between begin and end bounds, by strides, all given as per-axis lists.
  Five masks refine them: whether a bound is used, whether an axis is inserted or dropped, and which
  entry, the ellipsis, stands for the axes that are not written.  Masks are written for the layout
  the graph was imported in and are re-indexed at most once.
-/
import TensorGraph.Permutation

namespace TensorGraph

/-- The per-axis masks of a strided slice. -/
structure SliceMasks where
  beginMask : List Bool
  endMask : List Bool
  newAxis : List Bool
  shrink : List Bool
  ellipsis : List Bool
  /-- Set once the masks have been re-indexed. -/
  permuted : Bool
deriving DecidableEq, Repr

namespace SliceMasks

/-- The input ports of the bounds. -/
def beginPort : Nat := 1

def endPort : Nat := 2

def stridePort : Nat := 3

/-- The position of the first ellipsis. -/
def ellipsisAt? (m : SliceMasks) : Option Nat :=
  m.ellipsis.findIdx? id

/-- The number of axes that the slice drops. -/
def shrunkAxes (m : SliceMasks) : Nat :=
  m.shrink.countP id

/-- The number of axes that the masks address: those of the output and those that are dropped. -/
def maskRank (m : SliceMasks) (outputRank : Nat) : Except Error Nat :=
  checkedAdd outputRank m.shrunkAxes

/-- The masks for permuted axes.  All of them are re-indexed around the old ellipsis; a missing
begin or end entry means that the bound is used, any other that the mask is not set. -/
def permute (m : SliceMasks) (p : Permutation) : SliceMasks where
  beginMask := p.scatter m.ellipsisAt? true m.beginMask
  endMask := p.scatter m.ellipsisAt? true m.endMask
  newAxis := p.scatter m.ellipsisAt? false m.newAxis
  shrink := p.scatter m.ellipsisAt? false m.shrink
  ellipsis := p.scatter m.ellipsisAt? false m.ellipsis
  permuted := true

end SliceMasks

end TensorGraph
