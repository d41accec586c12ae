/-
  Wrapping rank-three tiles.

  Tile kernels accept tensors of rank four.  A tile of a rank-three tensor, along an axis other than
  the last, is put between two reshapes: the first appends a unit axis to its input and the second
  removes it from its result.  The appended axis does not change which axis is tiled.
-/
import TensorGraph.Rule.Plan
import TensorGraph.Rule.Name

namespace TensorGraph.TileRule

variable {α : Type}

/-- The rank that tile kernels accept. -/
def legalRank : Nat := 4

/-- A tile to wrap: its result, and the shapes and element types around it. -/
structure Plan where
  tile : NodeId
  name : String
  result : NodeId
  inShape : Shape
  outShape : Shape
  inType : Option ElementType
  outType : Option ElementType

/-- Any tile. -/
def pattern : Except Error Pattern :=
  Pattern.build ⟨[⟨"tile", .operator .tile⟩], []⟩

/-- Accepts a tile whose input and result have rank three and whose axis is not the last. -/
def plan (m : Match) (g : Graph α) : Planning Plan := do
  let tile ← m.get "tile"
  let .tile axis _ := (← g.operator tile).operation | Planning.decline
  let input ← g.operand ⟨tile, 0⟩
  let some result := g.result? ⟨tile, 0⟩
    | Planning.declineWith (nodeText tile ++ " has no output")
  let before ← g.content input
  let after ← g.content result
  let some inShape := before.knownShape
    | Planning.declineWith ("shapes around " ++ nodeText tile ++ " are unknown")
  let some outShape := after.knownShape
    | Planning.declineWith ("shapes around " ++ nodeText tile ++ " are unknown")
  if inShape.length + 1 ≠ legalRank || outShape.length + 1 ≠ legalRank then
    Planning.decline
  if inShape.length ≤ axis then
    throw (.fail (.invalidAttribute tile (.axisOutOfRange axis inShape.length)))
  if axis + 1 = inShape.length then
    Planning.declineWith (nodeText tile ++ " tiles the last axis")
  let name := (← g.node tile).name
  return ⟨tile, name, result, inShape, outShape, before.type, after.type⟩

/-- Puts the tile between two reshapes.  Its readers read the result of the second. -/
def commit (p : Plan) : Edit α Unit := do
  let expandedIn := p.inShape ++ [1]
  let expandedOut := p.outShape ++ [1]
  let before ← Edit.addOperator ((← Edit.graph).freeName (p.name ++ "/Reshape_before"))
    (.reshapeTo expandedIn)
  let beforeData ← Edit.addData ((← Edit.graph).freeName (p.name ++ "/Reshape_before_data"))
    ⟨some expandedIn, none, p.inType⟩
  let after ← Edit.addOperator ((← Edit.graph).freeName (p.name ++ "/Reshape_after"))
    (.reshapeTo p.outShape)
  let afterData ← Edit.addData ((← Edit.graph).freeName (p.name ++ "/Reshape_after_data"))
    ⟨some p.outShape, none, p.outType⟩
  Edit.produce ⟨before, 0⟩ beforeData
  Edit.produce ⟨after, 0⟩ afterData
  Edit.moveReaders p.result afterData
  Edit.moveInput ⟨p.tile, 0⟩ ⟨before, 0⟩
  Edit.feed beforeData ⟨p.tile, 0⟩
  Edit.feed p.result ⟨after, 0⟩
  Edit.modifyContent p.result fun d => { d with shape := some expandedOut }

/-- Wraps a tile. -/
def replace (m : Match) : Edit α Bool :=
  planThenCommit RuleName.tile (plan m) commit

/-- The rule that wraps rank-three tiles. -/
def rule : Rule α where
  name := RuleName.tile
  body := .replacing pattern replace

end TensorGraph.TileRule
