/-
  The names of the built-in rules, as the log and the ordering declarations use them.
-/

namespace TensorGraph.RuleName

def tile : String := "TileReshaper"

def permute : String := "FusePermutesSequence"

def multiplier : String := "MulQuantizeFuse"

def slice : String := "StridedSliceLayout"

def dead : String := "DeadNodeElimination"

end TensorGraph.RuleName
