/-
  Patterns: the subgraphs that rules look for.

  A pattern is a list of named roles, each with a predicate on nodes, and the edges required between
  them.  A description names roles; building it checks the names and turns them into positions.
-/
import TensorGraph.Graph.Basic
import TensorGraph.Order.Repeat

namespace TensorGraph

/-- A single condition on a node. -/
inductive Check where
  | kind (expected : Kind)
  | opcode (expected : Opcode)
  /-- A data node with, or without, a value. -/
  | hasValue (expected : Bool)
  /-- A data node with a known shape of this rank. -/
  | rank (expected : Nat)
  /-- An attribute equal to the given value. -/
  | hasAttribute (name : String) (expected : Attribute)

/-- Whether a node meets a condition. -/
def Check.holds {α : Type} (check : Check) (n : Node α) : Bool :=
  match check with
  | .kind expected => n.kind == expected
  | .opcode expected => n.opcode? == some expected
  | .hasValue expected =>
    match n.content? with
    | some content => content.isConstant == expected
    | none => false
  | .rank expected =>
    match n.content?.bind Content.knownShape with
    | some shape => shape.length == expected
    | none => false
  | .hasAttribute name expected =>
    match n.attributes.get? name with
    | some actual => actual == expected
    | none => false

/-- Conditions on a node, all of which are required. -/
abbrev Predicate := List Check

namespace Predicate

/-- Operators of one type. -/
def operator (type : Opcode) : Predicate := [.kind .op, .opcode type]

/-- Data nodes. -/
def data : Predicate := [.kind .data]

/-- Whether a node meets all conditions. -/
def holds {α : Type} (predicate : Predicate) (n : Node α) : Bool :=
  predicate.all fun check => check.holds n

end Predicate

/-- A place in a pattern that a node can take. -/
structure Role where
  name : String
  predicate : Predicate

/-- An edge required between two roles, given by name.  The port is that of the operator. -/
structure EdgeDescription where
  src : String
  dst : String
  port : Option Nat

/-- A pattern as it is written down. -/
structure PatternDescription where
  roles : List Role
  edges : List EdgeDescription

/-- An edge required between two roles, given by position.  The port is that of the operator: the
output port on an edge to data, the input port on an edge from data. -/
structure PatternEdge where
  src : Nat
  dst : Nat
  port : Option Nat
deriving DecidableEq, Repr

/-- A pattern whose names have been checked. -/
structure Pattern where
  roles : List Role
  edges : List PatternEdge

namespace Pattern

/-- The position of the role with the given name. -/
def position? (roles : List Role) (name : String) : Option Nat :=
  roles.findIdx? fun role => role.name == name

/-- The position of the role that an edge names. -/
def endpoint (roles : List Role) (name : String) : Except Error Nat :=
  match position? roles name with
  | some position => .ok position
  | none => .error (.malformedPattern (.unknownRole name))

/-- The edge with positions for names. -/
def buildEdge (roles : List Role) (edge : EdgeDescription) : Except Error PatternEdge := do
  let src ← endpoint roles edge.src
  let dst ← endpoint roles edge.dst
  if src = dst then
    throw (.malformedPattern (.selfEdge edge.src))
  return ⟨src, dst, edge.port⟩

/-- The described pattern; it needs a role, distinct role names, and edges between two of them. -/
def build (description : PatternDescription) : Except Error Pattern := do
  if description.roles.isEmpty then
    throw (.malformedPattern .noRoles)
  if let some name := firstRepeat? (description.roles.map (·.name)) then
    throw (.malformedPattern (.repeatedRole name))
  let edges ← description.edges.mapM (buildEdge description.roles)
  return ⟨description.roles, edges⟩

end Pattern

end TensorGraph
