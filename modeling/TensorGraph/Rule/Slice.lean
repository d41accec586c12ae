/-
  Re-indexing strided slices for another layout.

  A graph in the layout with the channel axis last is executed with the channel axis second.  The
  masks and the constant bounds of a slice that touches a tensor of rank four or more are re-indexed
  accordingly, once.  A bound that something else reads as well is replaced by a private copy.
-/
import TensorGraph.Rule.Plan
import TensorGraph.Rule.Name

namespace TensorGraph.SliceRule

variable {α : Type}

/-- The input ports of the bounds, each with the entry that a missing axis has. -/
def boundPorts : List (Nat × Int64) :=
  [(SliceMasks.beginPort, 0), (SliceMasks.endPort, 0), (SliceMasks.stridePort, 1)]

/-- A re-indexed bound of a slice: its port, its data node and the new value. -/
structure Bound (α : Type) where
  port : Nat
  data : NodeId
  value : Tensor α

/-- A slice to re-index. -/
structure Plan (α : Type) where
  slice : NodeId
  masks : SliceMasks
  bounds : List (Bound α)

/-- Any strided slice. -/
def pattern : Except Error Pattern :=
  Pattern.build ⟨[⟨"slice", .operator .stridedSlice⟩], []⟩

/-- The rank of a data node, if there is one and its shape is known. -/
def rank (g : Graph α) (data : Option NodeId) : Except Error (Option Nat) := do
  match data with
  | none => return none
  | some data => return (← g.content data).knownShape.map List.length

/-- The re-indexed bounds at the connected ones of the given ports. -/
def planBounds (g : Graph α) (slice : NodeId) (p : Permutation) (ellipsis : Option Nat) :
    List (Nat × Int64) → Planning (List (Bound α))
  | [] => return []
  | (port, fill) :: ports => do
    match g.feeding? ⟨slice, port⟩ with
    | none => planBounds g slice p ellipsis ports
    | some data =>
      let some value := (← g.content data).value
        | Planning.declineWith ("input " ++ toString port ++ " of "
            ++ nodeText slice ++ " is not constant")
      unless value.type.isInteger do
        Planning.declineWith ("input " ++ toString port ++ " of "
          ++ nodeText slice ++ " is " ++ value.type.name)
      let entries ← value.integers
      let moved := Tensor.ofIntegers (p.scatter ellipsis fill entries) value.type
      let rest ← planBounds g slice p ellipsis ports
      return ⟨port, data, moved⟩ :: rest

/-- Accepts a slice that has not been re-indexed, has a known output rank, touches a tensor of rank
four or more, and has constant integer bounds. -/
def plan (m : Match) (g : Graph α) : Planning (Plan α) := do
  if g.layout ≠ .nhwc then
    Planning.decline
  let slice ← m.get "slice"
  let .stridedSlice masks := (← g.operator slice).operation | Planning.decline
  if masks.permuted then
    Planning.decline
  let inRank ← rank g (g.feeding? ⟨slice, 0⟩)
  let some outRank ← (rank g (g.result? ⟨slice, 0⟩) : Except Error _)
    | Planning.declineWith ("output rank of " ++ nodeText slice ++ " is unknown")
  if inRank.getD 0 < 4 && outRank < 4 then
    Planning.decline
  let p := Permutation.channelsFirst (← masks.maskRank outRank)
  let bounds ← planBounds g slice p masks.ellipsisAt? boundPorts
  return ⟨slice, masks.permute p, bounds⟩

/-- Feeds a port of the slice from a new constant instead of the shared data node. -/
def replaceShared (slice : NodeId) (bound : Bound α) : Edit α Unit := do
  let name := (← Edit.query fun g => g.node bound.data).name
  let constant ← Edit.addOperator ((← Edit.graph).freeName (name ++ "/nchw")) .const
  let copy ← Edit.addData ((← Edit.graph).freeName (name ++ "/nchw_data"))
    (.constant bound.value)
  Edit.produce ⟨constant, 0⟩ copy
  let _ ← Edit.unplug ⟨slice, bound.port⟩
  Edit.feed copy ⟨slice, bound.port⟩
  Edit.log .debug (RuleName.slice ++ ": " ++ nodeText slice ++ " now reads private copy "
    ++ nodeText copy ++ " of " ++ nodeText bound.data)

/-- Stores a re-indexed bound: in place if nothing else reads it, else in a private copy. -/
def storeBound (slice : NodeId) (bound : Bound α) : Edit α Unit := do
  if ((← Edit.graph).readers bound.data).length = 1 then
    Edit.modifyContent bound.data fun d =>
      { d with shape := some bound.value.shape, value := some bound.value }
  else
    replaceShared slice bound

/-- Stores the re-indexed masks and bounds. -/
def commit (p : Plan α) : Edit α Unit := do
  Edit.setOperation p.slice (.stridedSlice p.masks)
  p.bounds.forM (storeBound p.slice)

/-- Re-indexes a slice. -/
def replace (m : Match) : Edit α Bool :=
  planThenCommit RuleName.slice (plan m) commit

/-- The rule that re-indexes strided slices. -/
def rule : Rule α where
  name := RuleName.slice
  before := [RuleName.dead]
  body := .replacing pattern replace

end TensorGraph.SliceRule
