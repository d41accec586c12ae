/-
  Text of lists and of quoted names, as it appears inside error and log messages.

  A list is written `[a, b]`.  A quoted name escapes the quotation mark, the backslash, the usual
  control characters and, by code point, every other character that would not be seen in the
  quotation or would be seen as a part of its neighbour.
-/
import TensorGraph.Text.Extending
import TensorGraph.Text.Ignorable
import TensorGraph.Text.Unprintable

namespace TensorGraph.Text

/-- The items between square brackets, separated by a comma and a space. -/
def bracketed (items : List String) : String :=
  "[" ++ ", ".intercalate items ++ "]"

/-- A list of natural numbers, such as a shape. -/
def naturals (values : List Nat) : String :=
  bracketed (values.map toString)

/-- Whether a character has no visible form of its own. -/
def isHidden (c : Char) : Bool :=
  CodeRanges.contains unprintable c || CodeRanges.contains extending c
    || CodeRanges.contains ignorable c

/-- One character inside quotation marks. -/
def escape (c : Char) : String :=
  if c = '\x22' then "\\\x22"
  else if c = '\\' then "\\\\"
  else if c = '\n' then "\\n"
  else if c = '\r' then "\\r"
  else if c = '\t' then "\\t"
  else if c = '\x00' then "\\0"
  else if isHidden c then "\\u\x7b" ++ String.ofList (Nat.toDigits 16 c.toNat) ++ "\x7d"
  else c.toString

/-- A name between quotation marks. -/
def quoted (name : String) : String :=
  "\x22" ++ String.join (name.toList.map escape) ++ "\x22"

/-- A list of quoted names. -/
def quotedNames (names : List String) : String :=
  bracketed (names.map quoted)

end TensorGraph.Text
