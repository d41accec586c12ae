/-
  The matches of a pattern in a graph.

  Roles are bound in the order of their declaration, to distinct nodes.  A role with an edge to an
  earlier role is tried at the neighbours of that node, by id; any other role at all nodes, in
  topological order.  An edge of the pattern is checked as soon as both of its ends are bound.
-/
import TensorGraph.Pattern.Basic

namespace TensorGraph

/-- The nodes bound to the roles of a pattern, in the order of the roles. -/
structure Match where
  bindings : List (String × NodeId)
deriving DecidableEq, Repr

namespace Match

/-- The node of a role. -/
def get (m : Match) (role : String) : Except Error NodeId :=
  match m.bindings.find? fun binding => binding.1 == role with
  | some binding => .ok binding.2
  | none => .error (.unboundRole role)

/-- The bound nodes.  Since ids are never reused they identify the match for good. -/
def nodes (m : Match) : List NodeId :=
  m.bindings.map (·.2)

end Match

namespace Pattern

variable {α : Type}

/-- The match that binds the roles to the given nodes. -/
def toMatch (p : Pattern) (bound : List NodeId) : Match :=
  ⟨(p.roles.map (·.name)).zip bound⟩

/-- The nodes adjacent to the next role, by the first edge that ties it to a bound one. -/
def neighbours? (p : Pattern) (g : Graph α) (bound : List NodeId) : Option (List NodeId) :=
  p.edges.findSome? fun e =>
    if e.dst = bound.length then (bound[e.src]?).map g.successors
    else if e.src = bound.length then (bound[e.dst]?).map g.predecessors
    else none

/-- The nodes to try for the next role; `order` lists all nodes. -/
def candidates (p : Pattern) (g : Graph α) (order bound : List NodeId) : List NodeId :=
  match p.neighbours? g bound with
  | some nodes => ascending nodes
  | none => order

/-- Whether the graph has an edge as required between two bound roles. -/
def hasEdge (g : Graph α) (bound : List NodeId) (e : PatternEdge) : Bool :=
  match bound[e.src]?, bound[e.dst]? with
  | some src, some dst =>
    (g.outEdges src).any fun edge =>
      edge.dst == dst && e.port.all fun port => port == g.operatorPort edge
  | _, _ => false

/-- Whether a node can be bound to the next role. -/
def accepts (p : Pattern) (g : Graph α) (role : Role) (bound : List NodeId) (id : NodeId) : Bool :=
  !bound.contains id
    && (match g.node? id with
        | some n => role.predicate.holds n
        | none => false)
    && (p.edges.filter fun e => max e.src e.dst == bound.length).all (hasEdge g (bound ++ [id]))

/-- All ways to bind the remaining roles. -/
def extensions (p : Pattern) (g : Graph α) (order : List NodeId) :
    List Role → List NodeId → List (List NodeId)
  | [], bound => [bound]
  | role :: roles, bound =>
    ((p.candidates g order bound).filter (p.accepts g role bound)).flatMap fun id =>
      p.extensions g order roles (bound ++ [id])

/-- The first way to bind the remaining roles that is not skipped. -/
def firstExtension? (p : Pattern) (g : Graph α) (order : List NodeId)
    (skip : List NodeId → Bool) : List Role → List NodeId → Option (List NodeId)
  | [], bound => if skip bound then none else some bound
  | role :: roles, bound =>
    ((p.candidates g order bound).filter (p.accepts g role bound)).findSome? fun id =>
      p.firstExtension? g order skip roles (bound ++ [id])

/-- All matches, in the order of the search. -/
def allMatches (p : Pattern) (g : Graph α) : List Match :=
  (p.extensions g g.topologicalOrder p.roles []).map p.toMatch

/-- The first match whose nodes are not skipped. -/
def firstMatch? (p : Pattern) (g : Graph α) (skip : List NodeId → Bool) : Option Match :=
  (p.firstExtension? g g.topologicalOrder skip p.roles []).map p.toMatch

end Pattern

end TensorGraph
