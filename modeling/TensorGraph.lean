import TensorGraph.Inference
import TensorGraph.Pipeline
import TensorGraph.Rule.Declared
import TensorGraph.Tensor.Bytes
import TensorGraph.Tensor.Deviation
import TensorGraph.Workspace
import TensorGraph.Proofs.Graph.Lookup
import TensorGraph.Proofs.Order
import TensorGraph.Proofs.Graph.WellFormed
import TensorGraph.Proofs.Graph.Change
import TensorGraph.Proofs.Graph.Check
import TensorGraph.Proofs.Graph.Runs
import TensorGraph.Proofs.Graph.Edit
import TensorGraph.Proofs.Rule.Keeps
import TensorGraph.Proofs.Reachable
import TensorGraph.Proofs.Graph.Step
import TensorGraph.Proofs.Pattern.Match
import TensorGraph.Proofs.Rule.Tile
import TensorGraph.Proofs.Rule.Permute
import TensorGraph.Proofs.Rule.Multiplier
import TensorGraph.Proofs.Rule.Slice
import TensorGraph.Proofs.Rule.Atomic
import TensorGraph.Proofs.Inference
import TensorGraph.Proofs.Permutation
import TensorGraph.Proofs.Shape
import TensorGraph.Proofs.Shaped
import TensorGraph.Proofs.Rule.Shapes
import TensorGraph.Proofs.Pipeline.Shapes
import TensorGraph.Proofs.Graph.Exact
import TensorGraph.Proofs.Graph.Orphan
import TensorGraph.Proofs.Graph.Maps
import TensorGraph.Proofs.Pipeline.Intact
import TensorGraph.Proofs.Evaluation
import TensorGraph.Proofs.Grid
import TensorGraph.Proofs.Rule.Meaning
import TensorGraph.Proofs.Pipeline.Order
import TensorGraph.Proofs.Rule.Dead
import TensorGraph.Proofs.Rule.Offers
import TensorGraph.Proofs.Graph.History
import TensorGraph.Proofs.Workspace
import TensorGraph.Proofs.Graph.Assign
import TensorGraph.Proofs.Sweep
import TensorGraph.Proofs.RowMajor
import TensorGraph.Proofs.Broadcast
import TensorGraph.Proofs.Rule.Threshold
import TensorGraph.Proofs.Rule.Comparison
import TensorGraph.Proofs.Reshape
import TensorGraph.Proofs.Rule.Legalisation
import TensorGraph.Proofs.Join
import TensorGraph.Proofs.Rule.Fold
import TensorGraph.Proofs.Rule.Quantisation
import TensorGraph.Proofs.Graph.Identity
import TensorGraph.Proofs.Pipeline.Agreement
import TensorGraph.Proofs.Odometer
import TensorGraph.Proofs.Broadcast.Laws
import TensorGraph.Proofs.Dimensions
import TensorGraph.Proofs.Masks
import TensorGraph.Proofs.Rule.Bounds
import TensorGraph.Proofs.Graph.Errors
import TensorGraph.Proofs.Rule.Underway
import TensorGraph.Proofs.Rule.Rounds
import TensorGraph.Proofs.Rule.Settling
import TensorGraph.Proofs.Rule.Collapse
import TensorGraph.Proofs.Pattern.Order
import TensorGraph.Proofs.Rule.Failures
import TensorGraph.Proofs.Rule.Termination
import TensorGraph.Proofs.Graph.InRange
import TensorGraph.Proofs.Graph.Search
import TensorGraph.Proofs.Reindexing
