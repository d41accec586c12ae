/-
  Repeated entries of a list.
-/

namespace TensorGraph

/-- The first entry that is among `seen` or occurs earlier in the list. -/
def repeatAfter? {β : Type} [BEq β] : List β → List β → Option β
  | _, [] => none
  | seen, x :: rest => if seen.contains x then some x else repeatAfter? (x :: seen) rest

/-- The first entry that occurs earlier in the list. -/
def firstRepeat? {β : Type} [BEq β] (entries : List β) : Option β :=
  repeatAfter? [] entries

end TensorGraph
