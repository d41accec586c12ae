/-
  Names for the places of a graph: node and edge ids, the two kinds of node, and the numbered
  input and output ports of operators.

  Ids count up from zero and are never reused, so an id identifies one node (or edge) for the whole
  life of a graph.
-/

namespace TensorGraph

/-- The id of a node: the number of nodes added before it. -/
abbrev NodeId := Nat

/-- The id of an edge: the number of edges added before it. -/
abbrev EdgeId := Nat

/-- A node is an operator or a piece of data; edges always join one kind to the other. -/
inductive Kind where
  | op
  | data
deriving DecidableEq, Repr

/-- The word for a kind in messages. -/
def Kind.word : Kind → String
  | .op => "op"
  | .data => "data"

/-- An input slot of an operator. -/
structure InputPort where
  node : NodeId
  index : Nat
deriving DecidableEq, Repr

/-- An output slot of an operator. -/
structure OutputPort where
  node : NodeId
  index : Nat
deriving DecidableEq, Repr

/-- Input ports are listed by node, then by index. -/
def InputPort.atMost (p q : InputPort) : Bool :=
  p.node < q.node || (p.node == q.node && p.index ≤ q.index)

/-- How messages write a node id. -/
def nodeText (id : NodeId) : String :=
  "#" ++ toString id

end TensorGraph
