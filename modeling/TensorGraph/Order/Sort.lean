/-
  Sorting by insertion.

  Neighbour and port lists are short; sorting them by insertion keeps equal entries in their order.
  Sets of ids are kept as ascending lists.
-/

namespace TensorGraph

/-- Inserts an entry in front of the first one that it may precede. -/
def insertSorted {β : Type} (atMost : β → β → Bool) (x : β) : List β → List β
  | [] => [x]
  | y :: rest => if atMost x y then x :: y :: rest else y :: insertSorted atMost x rest

/-- The entries in order, equal ones as they stood. -/
def sorted {β : Type} (atMost : β → β → Bool) (entries : List β) : List β :=
  entries.foldr (insertSorted atMost) []

/-- Inserts a number into an ascending list, unless it is there. -/
def insertNew (x : Nat) : List Nat → List Nat
  | [] => [x]
  | y :: rest =>
    if x < y then x :: y :: rest
    else if x = y then y :: rest
    else y :: insertNew x rest

/-- The numbers of a list, ascending and each once. -/
def ascending (numbers : List Nat) : List Nat :=
  numbers.foldr insertNew []

end TensorGraph
