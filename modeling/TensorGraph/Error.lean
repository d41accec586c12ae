/-
  Why an operation fails.

  Each cause is a constructor and carries what its message names; `Error.message` is the only place
  where the wording stands.  The machine has limits: sizes are 64-bit words, lists fit into memory,
  and tables are indexed within their length.  To exceed one of them is a cause like the others.  A
  rule that does not apply to a match is no error.
-/
import TensorGraph.Endpoint
import TensorGraph.Tensor.ElementType
import TensorGraph.Text.Quoted

namespace TensorGraph

/-- A change, or a whole graph, that breaks the alternating single-producer form. -/
inductive TopologyFault where
  | sameKind (kind : Kind) (src dst : NodeId)
  | alreadyProduced (data producer : NodeId)
  | outputInUse (port : Nat) (node : NodeId)
  | noSuchEdge (edge : EdgeId)
  | stillConsumed (data : NodeId) (name : String)
  | joinsSameKind (src dst : NodeId) (kind : Kind)
  | manyProducers (data : NodeId) (count : Nat)
  | cyclic
deriving DecidableEq, Repr

/-- A pattern that cannot be matched. -/
inductive PatternFault where
  | noRoles
  | repeatedRole (role : String)
  | unknownRole (role : String)
  | selfEdge (role : String)
deriving DecidableEq, Repr

/-- An operator parameter that has no meaning. -/
inductive AttributeFault where
  | notA (operator : String)
  | notPermutation (order : List Nat)
  | lengthMismatch (second first : Nat)
  | axisOutOfRange (axis rank : Nat)
  | manyInferred
  | missingAxis (position : Nat)
  | negative (dimension : Int)
  | notDivisible (total : Nat)
deriving DecidableEq, Repr

/-- An operator whose output shape cannot be computed. -/
inductive InferenceFault where
  | noOutput (what : String)
  | unknownOutput (what : String)
  | unknownInput (port : Nat)
  | notBroadcastable (lhs rhs : List Nat)
  | rankMismatch (order rank : Nat)
deriving DecidableEq, Repr

/-- A stored tensor whose elements cannot be read or built. -/
inductive TensorFault where
  | notFloats (stored : ElementType)
  | notIntegers (stored : ElementType)
  | notBuildable (wanted : ElementType)
  | partialElement
deriving DecidableEq, Repr

/-- What goes beyond the limits of the machine. -/
inductive Excess where
  /-- A sum that is no word. -/
  | add
  /-- A product that is no word. -/
  | multiply
  /-- A list with more bytes than can be asked for. -/
  | capacity
  /-- An index that a table does not have. -/
  | index (index length : Nat)
deriving DecidableEq, Repr

/-- Why an operation fails. -/
inductive Error where
  | missingNode (node : NodeId)
  | wrongKind (node : NodeId) (expected actual : Kind)
  | invalidTopology (fault : TopologyFault)
  | cycle (src dst : NodeId)
  | danglingData (data : NodeId)
  | portInUse (node : NodeId) (port : Nat)
  | portNotConnected (node : NodeId) (port : Nat)
  | malformedPattern (fault : PatternFault)
  | unboundRole (role : String)
  | missingAttribute (node : NodeId) (name : String)
  | invalidAttribute (node : NodeId) (fault : AttributeFault)
  | ruleCycle (rules : List String)
  | duplicateRule (rule : String)
  | sizeMismatch (actual expected : Nat)
  | shapeInference (node : NodeId) (fault : InferenceFault)
  | tensorData (fault : TensorFault)
  | overflow (excess : Excess)
  /-- A rule was stopped before it had finished. -/
  | exhausted
deriving DecidableEq, Repr

/-! ## Wording -/

def TopologyFault.reason : TopologyFault → String
  | sameKind kind src dst =>
    "cannot connect " ++ kind.word ++ " node " ++ nodeText src ++ " to " ++ kind.word ++ " node "
      ++ nodeText dst
  | alreadyProduced data producer =>
    "data node " ++ nodeText data ++ " already has producer " ++ nodeText producer
  | outputInUse port node =>
    "output port " ++ toString port ++ " of node " ++ nodeText node
      ++ " already produces a data node"
  | noSuchEdge edge => "edge " ++ toString edge ++ " does not exist"
  | stillConsumed data name =>
    "data node " ++ nodeText data ++ " ('" ++ name ++ "') still has consumers"
  | joinsSameKind src dst kind =>
    "edge " ++ nodeText src ++ " -> " ++ nodeText dst ++ " connects two " ++ kind.word ++ " nodes"
  | manyProducers data count =>
    "data node " ++ nodeText data ++ " has " ++ toString count ++ " producers"
  | cyclic => "graph contains a cycle"

def PatternFault.reason : PatternFault → String
  | noRoles => "pattern declares no roles"
  | repeatedRole role => "role '" ++ role ++ "' is declared twice"
  | unknownRole role => "edge refers to unknown role '" ++ role ++ "'"
  | selfEdge role => "role '" ++ role ++ "' has an edge to itself"

/-- The parameter that a fault is about. -/
def AttributeFault.attribute : AttributeFault → String
  | notA _ => "operation"
  | notPermutation _ | lengthMismatch _ _ => "order"
  | axisOutOfRange _ _ => "axis"
  | manyInferred | missingAxis _ | negative _ | notDivisible _ => "dim"

def AttributeFault.reason : AttributeFault → String
  | notA operator => "expected a " ++ operator ++ " operator"
  | notPermutation order => Text.naturals order ++ " is not a permutation"
  | lengthMismatch second first =>
    "order of length " ++ toString second ++ " follows an order of length " ++ toString first
  | axisOutOfRange axis rank =>
    "axis " ++ toString axis ++ " is out of range for rank " ++ toString rank
  | manyInferred => "more than one -1 dimension"
  | missingAxis position => "dimension " ++ toString position ++ " copies a missing input axis"
  | negative dimension => "negative dimension " ++ toString dimension
  | notDivisible total => "cannot infer -1 dimension from " ++ toString total ++ " elements"

def InferenceFault.reason : InferenceFault → String
  | noOutput what => what ++ " has no output data node"
  | unknownOutput what => what ++ " output shape is unknown"
  | unknownInput port => "shape of input " ++ toString port ++ " is unknown"
  | notBroadcastable lhs rhs =>
    "shapes " ++ Text.naturals lhs ++ " and " ++ Text.naturals rhs ++ " do not broadcast"
  | rankMismatch order rank =>
    "order of length " ++ toString order ++ " applied to rank " ++ toString rank

def TensorFault.reason : TensorFault → String
  | notFloats stored => "cannot read " ++ stored.name ++ " values as f64"
  | notIntegers stored => "cannot read " ++ stored.name ++ " values as i64"
  | notBuildable wanted => "cannot build a " ++ wanted.name ++ " tensor from float values"
  | partialElement => "CastError(PodCastError(OutputSliceWouldHaveSlop))"

/-- The text of an error. -/
def Error.message : Error → String
  | missingNode node => "node " ++ nodeText node ++ " does not exist"
  | wrongKind node expected actual =>
    "node " ++ nodeText node ++ " is a " ++ actual.word ++ " node, expected a " ++ expected.word
      ++ " node"
  | invalidTopology fault => "invalid topology: " ++ fault.reason
  | cycle src dst =>
    "edge " ++ nodeText src ++ " -> " ++ nodeText dst ++ " would create a cycle"
  | danglingData data =>
    "data node " ++ nodeText data ++ " would be left with consumers but no producer"
  | portInUse node port =>
    "input port " ++ toString port ++ " of node " ++ nodeText node ++ " is already connected"
  | portNotConnected node port =>
    "input port " ++ toString port ++ " of node " ++ nodeText node ++ " is not connected"
  | malformedPattern fault => "malformed pattern: " ++ fault.reason
  | unboundRole role => "role '" ++ role ++ "' is not bound in the match"
  | missingAttribute node name =>
    "node " ++ nodeText node ++ " is missing attribute '" ++ name ++ "'"
  | invalidAttribute node fault =>
    "invalid attribute '" ++ fault.attribute ++ "' on node " ++ nodeText node ++ ": "
      ++ fault.reason
  | ruleCycle rules => "rule ordering contains a cycle among: " ++ Text.quotedNames rules
  | duplicateRule rule => "rule '" ++ rule ++ "' is registered twice"
  | sizeMismatch actual expected =>
    "actual data size " ++ toString actual ++ " is not equal expected data size "
      ++ toString expected
  | shapeInference node fault =>
    "shape inference failed for node " ++ nodeText node ++ ": " ++ fault.reason
  | tensorData fault => "tensor data error: " ++ fault.reason
  | overflow .add => "attempt to add with overflow"
  | overflow .multiply => "attempt to multiply with overflow"
  | overflow .capacity => "capacity overflow"
  | overflow (.index index length) =>
    "index out of bounds: the len is " ++ toString length ++ " but the index is " ++ toString index
  | exhausted => "the rule was stopped before it had finished"

end TensorGraph
