/-
  Changes of a graph, and the checks in front of them.

  A change is a function on graphs that cannot fail; a check reads a graph and says why a change is
  refused.  Editing runs the check and then makes the change.

  Four changes are about which nodes and edges there are: `insertNode`, `insertEdge`, `eraseEdge`
  and `takeNode`.  They write the tables and the names along with the nodes and edges, and they
  empty the cell of the topological order.  No other change touches any of these.  An entry of a
  table is written where there is one; that there is one is a check of its own (`checkEnds`).
-/
import TensorGraph.Graph.Search
import TensorGraph.Order.Repeat

namespace TensorGraph

/-- Fails unless an index is within a table of the given length. -/
def checkIndex (index length : Nat) : Except Error Unit :=
  if index < length then .ok () else .error (.overflow (.index index length))

namespace Graph

variable {α : Type}

/-! ## Changes -/

/-- The graph with one more node, of id `nextNode`, and no edges listed at it. -/
def insertNode (g : Graph α) (name : String) (payload : Payload α) : Graph α :=
  { g with
    nodes := g.nodes ++ [⟨g.nextNode, name, payload, {}⟩]
    nextNode := g.nextNode + 1
    incoming := g.incoming ++ [[]]
    outgoing := g.outgoing ++ [[]]
    names := g.names.insert name g.nextNode
    knownOrder := none }

/-- The graph with another payload at a node. -/
def setPayload (g : Graph α) (id : NodeId) (payload : Payload α) : Graph α :=
  { g with nodes := g.nodes.map fun n => if n.id == id then { n with payload } else n }

/-- The graph with other attributes at a node. -/
def setAttributes (g : Graph α) (id : NodeId) (attributes : Attributes) : Graph α :=
  { g with nodes := g.nodes.map fun n => if n.id == id then { n with attributes } else n }

/-- The graph with one more edge, of id `nextEdge`, listed at its ends. -/
def insertEdge (g : Graph α) (wire : Wire) : Graph α :=
  { g with
    edges := g.edges ++ [⟨wire, g.nextEdge⟩]
    nextEdge := g.nextEdge + 1
    outgoing := g.outgoing.modify wire.src (· ++ [g.nextEdge])
    incoming := g.incoming.modify wire.dst (· ++ [g.nextEdge])
    knownOrder := none }

/-- The graph with a new data node between an output port and an input port. -/
def insertLink (g : Graph α) (name : String) (source : OutputPort) (port : InputPort) : Graph α :=
  ((g.insertNode name (.data {})).insertEdge ⟨source.node, source.index, g.nextNode, 0⟩).insertEdge
    ⟨g.nextNode, 0, port.node, port.index⟩

/-- The graph without an edge, which goes from the lists at its ends. -/
def eraseEdge (g : Graph α) (id : EdgeId) : Graph α :=
  match g.edge? id with
  | none => g
  | some e =>
    { g with
      edges := g.edges.filter fun e => e.id != id
      outgoing := g.outgoing.modify e.src (·.filter (· != id))
      incoming := g.incoming.modify e.dst (·.filter (· != id))
      knownOrder := none }

/-- The graph without some edges. -/
def eraseEdges (g : Graph α) (ids : List EdgeId) : Graph α :=
  ids.foldl eraseEdge g

/-- The graph without a node; its name goes unless it is that of another node by now.  The edges at
the node stay. -/
def takeNode (g : Graph α) (id : NodeId) : Graph α :=
  match g.node? id with
  | none => g
  | some n =>
    { g with
      nodes := g.nodes.filter fun n => n.id != id
      names := if g.names.get? n.name = some id then g.names.erase n.name else g.names
      knownOrder := none }

/-- The edges at a node, those that end there first. -/
def edgeIdsAt (g : Graph α) (id : NodeId) : List EdgeId :=
  g.inEdgeIds id ++ g.outEdgeIds id

/-- The graph without a node and the edges at it. -/
def eraseNode (g : Graph α) (id : NodeId) : Graph α :=
  (g.eraseEdges (g.edgeIdsAt id)).takeNode id

/-- The graph with an input port fed by another data node. -/
def refeed (g : Graph α) (data : NodeId) (port : InputPort) : Graph α :=
  let freed := match g.edgeInto? port with
    | some e => g.eraseEdge e.id
    | none => g
  freed.insertEdge ⟨data, 0, port.node, port.index⟩

/-- The graph with the topological order remembered. -/
def remember (g : Graph α) : Graph α :=
  { g with knownOrder := some g.topologicalOrder }

/-! ## Checks -/

/-- Fails unless both ends of a wire have an entry in the table that lists it. -/
def checkEnds (g : Graph α) (wire : Wire) : Except Error Unit := do
  checkIndex wire.src g.outgoing.length
  checkIndex wire.dst g.incoming.length

/-- The wire from a node of the given kind to one of the other kind, with port zero at its data
side; fails if the data node has a producer or the port of the operator is in use. -/
def wire (g : Graph α) (srcKind : Kind) (src : NodeId) (srcPort : Nat) (dst : NodeId)
    (dstPort : Nat) : Except Error Wire :=
  match srcKind with
  | .op =>
    match g.producingEdge? dst with
    | some e => .error (.invalidTopology (.alreadyProduced dst e.src))
    | none =>
      if (g.edgeOutOf? ⟨src, srcPort⟩).isSome then
        .error (.invalidTopology (.outputInUse srcPort src))
      else .ok ⟨src, srcPort, dst, 0⟩
  | .data =>
    if (g.edgeInto? ⟨dst, dstPort⟩).isSome then .error (.portInUse dst dstPort)
    else .ok ⟨src, 0, dst, dstPort⟩

/-- The wire between two nodes; fails unless the graph with this wire alternates, has single
producers and singly used ports, and is acyclic. -/
def checkWire (g : Graph α) (src : NodeId) (srcPort : Nat) (dst : NodeId) (dstPort : Nat) :
    Except Error Wire := do
  let srcKind := (← g.node src).kind
  let dstKind := (← g.node dst).kind
  if srcKind = dstKind then
    throw (.invalidTopology (.sameKind srcKind src dst))
  let wire ← g.wire srcKind src srcPort dst dstPort
  if src = dst || g.hasPath dst src then
    throw (.cycle src dst)
  return wire

/-- Whether a data node without its producer would be read and have no value. -/
def dangles (g : Graph α) (data : NodeId) : Except Error Bool := do
  if (g.outEdgeIds data).isEmpty then
    return false
  return !(← g.content data).isConstant

/-- The edge with the given id; fails if it does not exist or if a data node that is read and has no
value would lose its producer. -/
def checkRemoveEdge (g : Graph α) (id : EdgeId) : Except Error Edge := do
  let some e := g.edge? id | throw (.invalidTopology (.noSuchEdge id))
  if (← g.node e.src).kind = .op then
    if ← g.dangles e.dst then
      throw (.danglingData e.dst)
  return e

/-- The node with the given id; fails if it does not exist, if it is a data node that is read, or if
it is an operator and one of its results would dangle. -/
def checkRemoveNode (g : Graph α) (id : NodeId) : Except Error (Node α) := do
  let n ← g.node id
  match n.kind with
  | .data =>
    unless (g.outEdgeIds id).isEmpty do
      throw (.invalidTopology (.stillConsumed id n.name))
  | .op =>
    (g.successors id).forM fun data => do
      if ← g.dangles data then
        throw (.danglingData data)
  return n

/-- Checks the whole graph: edges alternate, data nodes have at most one producer, operators read
each port once, and there is no cycle. -/
def checkAll (g : Graph α) : Except Error Unit := do
  g.edges.forM fun e => do
    let srcKind := (← g.node e.src).kind
    let dstKind := (← g.node e.dst).kind
    if srcKind = dstKind then
      throw (.invalidTopology (.joinsSameKind e.src e.dst srcKind))
  g.nodes.forM fun n => do
    match n.kind with
    | .data =>
      let count := (g.inEdgeIds n.id).length
      if count > 1 then
        throw (.invalidTopology (.manyProducers n.id count))
    | .op =>
      if let some port := firstRepeat? ((g.inEdges n.id).map (·.dstPort)) then
        throw (.portInUse n.id port)
  if g.computeOrder.length ≠ g.nodes.length then
    throw (.invalidTopology .cyclic)

end Graph

end TensorGraph
