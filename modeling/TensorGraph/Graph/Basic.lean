/-
  The graph: how it is stored, and what can be read off it.

  Nodes and edges are kept in the order in which they were added, which is the order of their ids.
  Removing one leaves the others as they are, and the counters for the next ids only grow, so an id
  never comes back.  Beside them a graph keeps what could be found by searching them:

    * two tables with an entry for every id that a node ever had, for the edges that end there and
      for those that start there;
    * a dictionary of the names;
    * a cell for the topological order, which is filled when the order is asked for.

  Nothing ties these to the nodes and edges but the changes that write them.  The lookups of edges,
  ports and names read the tables and the dictionary, not the lists.

  The edge of an operator to its result has the output port of the operator as its source port; the
  edge of a data node to its reader has the input port of the operator as its destination port.  The
  port at the data side is always zero.
-/
import TensorGraph.Node
import TensorGraph.Order.Countdown
import TensorGraph.Order.Sort

namespace TensorGraph

/-- The order of the axes of image tensors. -/
inductive Layout where
  | nchw
  | nhwc
deriving DecidableEq, Repr

/-- A directed connection of two nodes. -/
structure Wire where
  src : NodeId
  srcPort : Nat
  dst : NodeId
  dstPort : Nat
deriving DecidableEq, Repr

/-- A connection that is part of a graph. -/
structure Edge extends Wire where
  id : EdgeId
deriving DecidableEq, Repr

/-- A graph of operators and data. -/
structure Graph (α : Type) where
  layout : Layout
  nodes : List (Node α)
  edges : List Edge
  nextNode : NodeId
  nextEdge : EdgeId
  /-- The ids of the edges that end at each node. -/
  incoming : List (List EdgeId)
  /-- The ids of the edges that start at each node. -/
  outgoing : List (List EdgeId)
  names : Dictionary NodeId
  /-- The topological order, if it was asked for since nodes or edges came or went. -/
  knownOrder : Option (List NodeId)

namespace Graph

variable {α : Type}

/-- The graph without nodes. -/
def empty (layout : Layout) : Graph α :=
  ⟨layout, [], [], 0, 0, [], [], {}, none⟩

/-! ## Nodes -/

/-- The node with the given id. -/
def node? (g : Graph α) (id : NodeId) : Option (Node α) :=
  g.nodes.find? fun n => n.id == id

/-- Whether a node is part of the graph. -/
def hasNode (g : Graph α) (id : NodeId) : Bool :=
  (g.node? id).isSome

/-- The node with the given id, which has to exist. -/
def node (g : Graph α) (id : NodeId) : Except Error (Node α) :=
  match g.node? id with
  | some n => .ok n
  | none => .error (.missingNode id)

/-- The operator with the given id. -/
def operator (g : Graph α) (id : NodeId) : Except Error Operator := do
  match (← g.node id).payload with
  | .op operator => return operator
  | .data _ => throw (.wrongKind id .op .data)

/-- The content of the data node with the given id. -/
def content (g : Graph α) (id : NodeId) : Except Error (Content α) := do
  match (← g.node id).payload with
  | .data content => return content
  | .op _ => throw (.wrongKind id .data .op)

/-- Fails unless the node exists and has the expected kind. -/
def requireKind (g : Graph α) (id : NodeId) (expected : Kind) : Except Error Unit := do
  let actual := (← g.node id).kind
  if actual ≠ expected then
    throw (.wrongKind id expected actual)

/-- The ids of all nodes, in increasing order. -/
def ids (g : Graph α) : List NodeId :=
  g.nodes.map (·.id)

/-- The number of operators. -/
def operatorCount (g : Graph α) : Nat :=
  g.nodes.countP fun n => n.kind == .op

/-! ## Names -/

/-- The node with the given name. -/
def named? (g : Graph α) (name : String) : Option NodeId :=
  (g.names.get? name).filter g.hasNode

/-- Whether the given name is taken. -/
def hasName (g : Graph α) (name : String) : Bool :=
  (g.names.get? name).isSome

/-- The `n`-th variant of a name. -/
def numbered (base : String) (n : Nat) : String :=
  base ++ "_" ++ toString n

/-- The name itself if it is free, else its first free variant, counted from one.  There are more
variants to try than names, so one of them is free. -/
def freeName (g : Graph α) (base : String) : String :=
  if g.hasName base then
    let variants := (List.range (g.names.entries.length + 1)).map fun i => numbered base (i + 1)
    (variants.find? fun name => !g.hasName name).getD base
  else base

/-! ## Edges -/

/-- The edge with the given id. -/
def edge? (g : Graph α) (id : EdgeId) : Option Edge :=
  g.edges.find? fun e => e.id == id

/-- The ids of the edges that end at a node, as they are listed. -/
def inEdgeIds (g : Graph α) (id : NodeId) : List EdgeId :=
  g.incoming[id]?.getD []

/-- The ids of the edges that start at a node, as they are listed. -/
def outEdgeIds (g : Graph α) (id : NodeId) : List EdgeId :=
  g.outgoing[id]?.getD []

/-- The edges that end at a node. -/
def inEdges (g : Graph α) (id : NodeId) : List Edge :=
  (g.inEdgeIds id).filterMap g.edge?

/-- The edges that start at a node. -/
def outEdges (g : Graph α) (id : NodeId) : List Edge :=
  (g.outEdgeIds id).filterMap g.edge?

/-- The ends of the edges that start at a node. -/
def heads (g : Graph α) (id : NodeId) : List NodeId :=
  (g.outEdges id).map (·.dst)

/-- The nodes in front of a node, by the input port they feed. -/
def predecessors (g : Graph α) (id : NodeId) : List NodeId :=
  (sorted (fun e f => e.dstPort ≤ f.dstPort) (g.inEdges id)).map (·.src)

/-- The nodes behind a node, by the output port they hang off and then by id. -/
def successors (g : Graph α) (id : NodeId) : List NodeId :=
  let atMost (e f : Edge) : Bool :=
    e.srcPort < f.srcPort || (e.srcPort == f.srcPort && e.dst ≤ f.dst)
  (sorted atMost (g.outEdges id)).map (·.dst)

/-- The edge that ends at an input port. -/
def edgeInto? (g : Graph α) (port : InputPort) : Option Edge :=
  (g.inEdges port.node).find? fun e => e.dstPort == port.index

/-- The edge that starts at an output port. -/
def edgeOutOf? (g : Graph α) (port : OutputPort) : Option Edge :=
  (g.outEdges port.node).find? fun e => e.srcPort == port.index

/-- The edge that produces a data node. -/
def producingEdge? (g : Graph α) (data : NodeId) : Option Edge :=
  (g.inEdges data).head?

/-- The port at the operator side of an edge. -/
def operatorPort (g : Graph α) (e : Edge) : Nat :=
  if (g.node? e.src).map Node.kind = some .op then e.srcPort else e.dstPort

/-! ## Ports -/

/-- The data node that feeds an input port. -/
def feeding? (g : Graph α) (port : InputPort) : Option NodeId :=
  (g.edgeInto? port).map (·.src)

/-- The data node produced at an output port. -/
def result? (g : Graph α) (port : OutputPort) : Option NodeId :=
  (g.edgeOutOf? port).map (·.dst)

/-- The data node that feeds an input port, which has to be connected. -/
def operand (g : Graph α) (port : InputPort) : Except Error NodeId :=
  match g.feeding? port with
  | some data => .ok data
  | none => .error (.portNotConnected port.node port.index)

/-- The output port that produces a data node. -/
def producer? (g : Graph α) (data : NodeId) : Option OutputPort :=
  (g.producingEdge? data).map fun e => ⟨e.src, e.srcPort⟩

/-- The output port behind the data node that feeds an input port. -/
def origin? (g : Graph α) (port : InputPort) : Option OutputPort :=
  (g.feeding? port).bind g.producer?

/-- The input ports that read a data node, by node and then by index. -/
def readers (g : Graph α) (data : NodeId) : List InputPort :=
  sorted InputPort.atMost ((g.outEdges data).map fun e => ⟨e.dst, e.dstPort⟩)

/-- The connected input ports of an operator, by index. -/
def usedInputs (g : Graph α) (op : NodeId) : List InputPort :=
  sorted InputPort.atMost ((g.inEdges op).map fun e => ⟨op, e.dstPort⟩)

/-- All that is attached to a data node. -/
structure Attachment where
  data : NodeId
  source : Option OutputPort
  destinations : List InputPort
deriving DecidableEq, Repr

/-- What is attached to a data node. -/
def attachment (g : Graph α) (data : NodeId) : Except Error Attachment := do
  let _ ← g.content data
  return ⟨data, g.producer? data, g.readers data⟩

/-- What is attached to the data node that feeds an input port. -/
def operandAttachment (g : Graph α) (port : InputPort) : Except Error Attachment := do
  g.attachment (← g.operand port)

/-! ## Order -/

/-- All nodes in topological order, the least one by id: a node is held back by the edges that end
there. -/
def computeOrder (g : Graph α) : List NodeId :=
  (countdown (g.ids.map fun id => (id, (g.inEdgeIds id).length)) g.heads).1

/-- All nodes in topological order, as remembered or else as computed now. -/
def topologicalOrder (g : Graph α) : List NodeId :=
  g.knownOrder.getD g.computeOrder

end Graph

end TensorGraph
