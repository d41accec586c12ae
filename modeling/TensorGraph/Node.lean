/-
  Nodes: operators, and the data that flows between them.

  Both kinds have a name and a list of further attributes that no built-in rule depends on.
-/
import TensorGraph.Dictionary
import TensorGraph.Operation.Basic
import TensorGraph.Tensor.Basic

namespace TensorGraph

/-- A way to compute the output shapes of an operator from the graph around it. -/
inductive Inference where
  | parameter | const | output | mul | quantize | permute | tile | reshape
deriving DecidableEq, Repr

/-- The inference that an operator gets when it is created. -/
def Inference.ofOperation? : Operation → Option Inference
  | .parameter => some .parameter
  | .const => some .const
  | .output => some .output
  | .mul => some .mul
  | .quantize _ => some .quantize
  | .permute _ => some .permute
  | .tile _ _ => some .tile
  | .reshape _ => some .reshape
  | .stridedSlice _ | .custom _ => none

/-- The contents of an operator node. -/
structure Operator where
  operation : Operation
  inference : Option Inference
deriving DecidableEq, Repr

/-- An operator with the inference of its operation. -/
def Operator.ofOperation (operation : Operation) : Operator :=
  ⟨operation, Inference.ofOperation? operation⟩

/-- The contents of a data node.  Only constants have a value. -/
structure Content (α : Type) where
  shape : Option Shape := none
  value : Option (Tensor α) := none
  type : Option ElementType := none

namespace Content

variable {α : Type}

/-- The data node of a constant, with its shape and element type. -/
def constant (value : Tensor α) : Content α :=
  ⟨some value.shape, some value, some value.type⟩

/-- Whether the node has a value. -/
def isConstant (d : Content α) : Bool := d.value.isSome

/-- The stored shape, or else that of the value. -/
def knownShape (d : Content α) : Option Shape :=
  d.shape <|> d.value.map (·.shape)

end Content

/-- What a node holds. -/
inductive Payload (α : Type) where
  | op (operator : Operator)
  | data (content : Content α)

/-- The value of an attribute.  Floats compare as numbers: zeros of both signs are equal, and a NaN
differs from itself. -/
inductive Attribute where
  | int (value : Int64)
  | ints (values : List Int64)
  | float (value : Float32)
  | floats (values : List Float32)
  | string (value : String)
  | strings (values : List String)
deriving BEq, Repr

/-- Named attributes. -/
abbrev Attributes := Dictionary Attribute

/-- A node of a graph. -/
structure Node (α : Type) where
  id : NodeId
  name : String
  payload : Payload α
  attributes : Attributes

namespace Node

variable {α : Type}

/-- The kind of a node. -/
def kind (n : Node α) : Kind :=
  match n.payload with
  | .op _ => .op
  | .data _ => .data

/-- The operator of an operator node. -/
def operator? (n : Node α) : Option Operator :=
  match n.payload with
  | .op operator => some operator
  | .data _ => none

/-- The content of a data node. -/
def content? (n : Node α) : Option (Content α) :=
  match n.payload with
  | .op _ => none
  | .data content => some content

/-- The type of an operator node. -/
def opcode? (n : Node α) : Option Opcode :=
  n.operator?.map fun o => o.operation.type

end Node

end TensorGraph
