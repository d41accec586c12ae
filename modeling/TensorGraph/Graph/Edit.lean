/-
  Editing a graph.

  An edit runs on a session, a graph with the log of what was done to it.  It may fail with an
  error, and the session it has reached by then stays: a failing edit does not undo its earlier
  steps.  The edits of this module make their changes after all of their checks.

  What comes between a change and its checks is the indexing of tables: an edge is written to the
  entries of its ends, and an index that is out of range is a failure as well (`insertEdge`,
  `detach`, `takeNode`).
-/
import TensorGraph.Graph.Change
import TensorGraph.Log

namespace TensorGraph

/-- A graph and the log of its edits, oldest entry first. -/
structure Session (α : Type) where
  graph : Graph α
  log : List LogEntry

/-- A computation that edits a graph, writes to the log, and may fail on the way. -/
abbrev Edit (α : Type) := EStateM Error (Session α)

namespace Edit

variable {α β : Type}

/-- The graph as it is now. -/
def graph : Edit α (Graph α) := do
  return (← get).graph

/-- The outcome of a check. -/
def attempt (outcome : Except Error β) : Edit α β :=
  match outcome with
  | .ok value => pure value
  | .error e => throw e

/-- The outcome of a check of the graph as it is now. -/
def query (check : Graph α → Except Error β) : Edit α β := do
  attempt (check (← graph))

/-- Makes a change. -/
def change (f : Graph α → Graph α) : Edit α Unit :=
  modify fun s => { s with graph := f s.graph }

/-- Writes to the log. -/
def log (level : LogLevel) (text : String) : Edit α Unit :=
  modify fun s => { s with log := s.log ++ [⟨level, text⟩] }

/-! ## Nodes -/

/-- Adds a node, under a variant of its name if the name is taken. -/
def addNode (name : String) (payload : Payload α) : Edit α NodeId := do
  let g ← graph
  let free := g.freeName name
  if free ≠ name then
    log .warn ("Node name '" ++ name ++ "' is already taken, using '" ++ free ++ "'")
  change fun g => g.insertNode free payload
  return g.nextNode

/-- Adds an operator with the inference of its operation. -/
def addOperator (name : String) (operation : Operation) : Edit α NodeId :=
  addNode name (.op (Operator.ofOperation operation))

/-- Adds a data node. -/
def addData (name : String) (content : Content α) : Edit α NodeId :=
  addNode name (.data content)

/-- Replaces the operation of an operator and keeps its inference. -/
def setOperation (id : NodeId) (operation : Operation) : Edit α Unit := do
  let operator ← query fun g => g.operator id
  change fun g => g.setPayload id (.op { operator with operation })

/-- Replaces the inference of an operator. -/
def setInference (id : NodeId) (inference : Option Inference) : Edit α Unit := do
  let operator ← query fun g => g.operator id
  change fun g => g.setPayload id (.op { operator with inference })

/-- Edits the content of a data node. -/
def modifyContent (id : NodeId) (f : Content α → Content α) : Edit α Unit := do
  let content ← query fun g => g.content id
  change fun g => g.setPayload id (.data (f content))

/-- Sets an attribute of a node, or removes it if there is no value.  Returns the old value. -/
def setAttribute (id : NodeId) (name : String) (value : Option Attribute) :
    Edit α (Option Attribute) := do
  let n ← query fun g => g.node id
  change fun g => g.setAttributes id <|
    match value with
    | some v => n.attributes.insert name v
    | none => n.attributes.erase name
  return n.attributes.get? name

/-- Replaces the layout. -/
def setLayout (layout : Layout) : Edit α Unit :=
  change fun g => { g with layout }

/-! ## Edges -/

/-- Adds an edge without any check but for the tables. -/
def insertEdge (wire : Wire) : Edit α EdgeId := do
  let g ← graph
  attempt (g.checkEnds wire)
  change fun g => g.insertEdge wire
  return g.nextEdge

/-- Removes an edge without any check but for the tables.  Returns the edge, if there is one. -/
def detach (id : EdgeId) : Edit α (Option Edge) := do
  let g ← graph
  match g.edge? id with
  | none => return none
  | some e =>
    attempt (g.checkEnds e.toWire)
    change fun g => g.eraseEdge id
    return some e

/-- Adds an edge between two nodes. -/
def addEdge (src : NodeId) (srcPort : Nat) (dst : NodeId) (dstPort : Nat) : Edit α EdgeId := do
  let wire ← query fun g => g.checkWire src srcPort dst dstPort
  insertEdge wire

/-- Removes an edge. -/
def removeEdge (id : EdgeId) : Edit α Edge := do
  let _ ← query fun g => g.checkRemoveEdge id
  let some e ← detach id | throw (.invalidTopology (.noSuchEdge id))
  return e

/-! ## Removing nodes -/

/-- Removes a node without any check but for the table. -/
def takeNode (id : NodeId) : Edit α (Node α) := do
  let g ← graph
  attempt (checkIndex id g.nextNode)
  let n ← attempt (g.node id)
  change fun g => g.takeNode id
  return n

/-- Removes a node, after all edges at it. -/
def removeNode (id : NodeId) : Edit α (Node α) := do
  let _ ← query fun g => g.checkRemoveNode id
  let g ← graph
  (g.edgeIdsAt id).forM fun e => do
    let _ ← detach e
  takeNode id

/-! ## Ports -/

/-- Feeds an input port from a data node. -/
def feed (data : NodeId) (port : InputPort) : Edit α Unit := do
  query fun g => g.requireKind data .data
  let _ ← addEdge data 0 port.node port.index

/-- Makes a data node the result at an output port. -/
def produce (port : OutputPort) (data : NodeId) : Edit α Unit := do
  query fun g => g.requireKind port.node .op
  let _ ← addEdge port.node port.index data 0

/-- Disconnects an input port.  Returns the data node that fed it. -/
def unplug (port : InputPort) : Edit α (Option NodeId) := do
  let _ ← query fun g => g.operator port.node
  match (← graph).edgeInto? port with
  | some e => return (← detach e.id).map (·.src)
  | none => return none

/-- Detaches the result at an output port from its producer.  Returns the data node. -/
def release (port : OutputPort) : Edit α (Option NodeId) := do
  let _ ← query fun g => g.operator port.node
  match (← graph).edgeOutOf? port with
  | some e => return some (← removeEdge e.id).dst
  | none => return none

/-- Adds a data node between an output port and an input port, without any check but for the
tables. -/
def insertLink (name : String) (source : OutputPort) (port : InputPort) : Edit α NodeId := do
  let data ← addData name {}
  let _ ← insertEdge ⟨source.node, source.index, data, 0⟩
  let _ ← insertEdge ⟨data, 0, port.node, port.index⟩
  return data

/-- Feeds an input port from an output port, through a new data node if the output has none yet.
Returns the data node.  A new one closes a cycle exactly if the reader reaches the producer. -/
def link (source : OutputPort) (port : InputPort) : Edit α NodeId := do
  query fun g => g.requireKind source.node .op
  query fun g => g.requireKind port.node .op
  let g ← graph
  if (g.edgeInto? port).isSome then
    throw (.portInUse port.node port.index)
  match g.result? source with
  | some data =>
    feed data port
    return data
  | none =>
    if source.node = port.node || g.hasPath port.node source.node then
      throw (.cycle source.node port.node)
    let producer ← attempt (g.node source.node)
    let number ← attempt (checkedAdd source.index 1)
    insertLink (g.freeName (producer.name ++ "_out" ++ toString number)) source port

/-- Moves the edge at one input port to another, which has to be free.  Without the old edge no new
path arises, so it is enough to check the new edge beside it. -/
def moveInput (old new : InputPort) : Edit α Unit := do
  let g ← graph
  let some e := g.edgeInto? old | throw (.portNotConnected old.node old.index)
  if old = new then
    return
  let wire ← attempt (g.checkWire e.src 0 new.node new.index)
  let _ ← detach e.id
  let _ ← insertEdge wire

/-- Lets an input port read another data node. -/
def refeed (data : NodeId) (port : InputPort) : Edit α Unit := do
  if let some e := (← graph).edgeInto? port then
    let _ ← detach e.id
  let _ ← insertEdge ⟨data, 0, port.node, port.index⟩

/-- Lets every reader of one data node read another one instead. -/
def moveReaders (old new : NodeId) : Edit α Unit := do
  query fun g => g.requireKind old .data
  query fun g => g.requireKind new .data
  if old = new then
    return
  let g ← graph
  let readers := g.readers old
  readers.forM fun port => do
    if port.node = new || g.hasPath port.node new then
      throw (.cycle new port.node)
  readers.forM (refeed new)

/-! ## Order -/

/-- All nodes in topological order, which is remembered. -/
def order : Edit α (List NodeId) := do
  let g ← graph
  change Graph.remember
  return g.topologicalOrder

end Edit

end TensorGraph
