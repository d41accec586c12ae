/-
  The element types a stored tensor can have.

  Only four of them have elements that the graph reads or writes (`f64`, `f32`, `i64`, `i32`); the
  others are carried along as bytes.
-/

namespace TensorGraph

/-- The element type of a tensor. -/
inductive ElementType where
  | f64 | f32 | flex32 | f16 | bf16
  | i64 | i32 | i16 | i8
  | u64 | u32 | u16 | u8
  | bool
deriving DecidableEq, Repr

namespace ElementType

/-- All element types, in the order of their declaration. -/
def all : List ElementType :=
  [f64, f32, flex32, f16, bf16, i64, i32, i16, i8, u64, u32, u16, u8, bool]

/-- The name of an element type in messages. -/
def name : ElementType → String
  | f64 => "F64"
  | f32 => "F32"
  | flex32 => "Flex32"
  | f16 => "F16"
  | bf16 => "BF16"
  | i64 => "I64"
  | i32 => "I32"
  | i16 => "I16"
  | i8 => "I8"
  | u64 => "U64"
  | u32 => "U32"
  | u16 => "U16"
  | u8 => "U8"
  | bool => "Bool"

/-- The element type with a given name. -/
def ofName? (text : String) : Option ElementType :=
  all.find? fun t => t.name == text

/-- The element types whose elements are read as floats. -/
def isFloat : ElementType → Bool
  | f64 | f32 => true
  | _ => false

/-- The element types whose elements are read as integers. -/
def isInteger : ElementType → Bool
  | i64 | i32 => true
  | _ => false

end ElementType

end TensorGraph
