/-
  Permutations of axes, and the re-indexing of per-axis lists.

  A permutation of the axes `0, …, n - 1` is kept as two lists: the order, in which output axis `i`
  is input axis `order[i]`, and the inverse order, which has the position of each axis in the order.
  `AxisOrders` is a pair of lists.  There are a few ways to make one, and each writes its two lists
  by rules of its own; a `Permutation` is a pair that was made in these ways, and then the two lists
  undo each other.  `select` along the order is the action on lists, and composing two permutations
  is the action of the second on the order of the first.

  A per-axis list may be shorter than the permutation: its ellipsis entry then stands for the axes
  that are not written.  `scatter` first writes them out, behind the ellipsis, and then permutes; a
  list that is longer keeps its tail.
-/
import TensorGraph.Shape

namespace TensorGraph

/-- The entries of `values` at the given positions; positions outside the list are dropped. -/
def Permutation.select {β : Type} (positions : List Nat) (values : List β) : List β :=
  positions.filterMap fun i => values[i]?

/-- An order of axes, and the position of each axis in it. -/
structure AxisOrders where
  order : List Nat
  inverseOrder : List Nat
deriving DecidableEq, Repr

namespace AxisOrders

open Permutation (select)

/-- Writes the positions of the given axes, counted from `position`, into the slots of the axes.
`none` if an axis has no slot or comes twice. -/
def placeFrom? (position : Nat) : List Nat → List (Option Nat) → Option (List (Option Nat))
  | [], slots => some slots
  | axis :: axes, slots =>
    match slots[axis]? with
    | some none => placeFrom? (position + 1) axes (slots.set axis (some position))
    | _ => none

/-- The pair with the given order, `none` if the list is no order of the axes. -/
def ofOrder? (order : List Nat) : Option AxisOrders :=
  (placeFrom? 0 order (List.replicate order.length none)).map fun slots =>
    ⟨order, slots.filterMap id⟩

/-- The pair of an order and its inverse, `none` if they do not belong together. -/
def ofParts? (order inverse : List Nat) : Option AxisOrders :=
  (ofOrder? order).filter fun o => o.inverseOrder == inverse

/-- The order that changes nothing. -/
def identity (n : Nat) : AxisOrders :=
  ⟨List.range n, List.range n⟩

/-- The order `0, n - 1, 1, …, n - 2`, which moves the last axis behind the first.  Its inverse is
`0, 2, …, n - 1, 1`. -/
def channelsFirst (n : Nat) : AxisOrders :=
  if n < 2 then identity n
  else ⟨0 :: (n - 1) :: List.range' 1 (n - 2), 0 :: List.range' 2 (n - 2) ++ [1]⟩

/-- The pair the other way round. -/
def inverse (o : AxisOrders) : AxisOrders :=
  ⟨o.inverseOrder, o.order⟩

/-- The order that has the effect of `first` and then `next`, `none` if their lengths differ. -/
def compose? (first next : AxisOrders) : Option AxisOrders :=
  if first.order.length = next.order.length then
    some ⟨select next.order first.order, select first.inverseOrder next.inverseOrder⟩
  else none

/-- The pairs that can be made, one from the other or from given lists. -/
inductive Made : AxisOrders → Prop
  | ofOrder {order : List Nat} {o : AxisOrders} (h : ofOrder? order = some o) : Made o
  | ofParts {order inverse : List Nat} {o : AxisOrders} (h : ofParts? order inverse = some o) :
    Made o
  | identity (n : Nat) : Made (identity n)
  | channelsFirst (n : Nat) : Made (channelsFirst n)
  | inverse {o : AxisOrders} (ho : Made o) : Made o.inverse
  | compose {first next o : AxisOrders} (hfirst : Made first) (hnext : Made next)
    (h : first.compose? next = some o) : Made o

end AxisOrders

/-- An order of the axes `0, …, n - 1` with its inverse. -/
structure Permutation extends AxisOrders where
  made : toAxisOrders.Made

namespace Permutation

/-- The number of axes. -/
def size (p : Permutation) : Nat := p.order.length

/-- The permutation with the given order, `none` if the list is no order of the axes. -/
def ofOrder? (order : List Nat) : Option Permutation :=
  (AxisOrders.ofOrder? order).pmap mk fun _ h => .ofOrder h

/-- The permutation given by an order and its inverse, `none` if they do not belong together. -/
def ofParts? (order inverse : List Nat) : Option Permutation :=
  (AxisOrders.ofParts? order inverse).pmap mk fun _ h => .ofParts h

/-- The order that changes nothing. -/
def identity (n : Nat) : Permutation :=
  ⟨.identity n, .identity n⟩

/-- The order `0, n - 1, 1, …, n - 2`, which moves the last axis behind the first. -/
def channelsFirst (n : Nat) : Permutation :=
  ⟨.channelsFirst n, .channelsFirst n⟩

/-- The permutation that undoes `p`. -/
def inverse (p : Permutation) : Permutation :=
  ⟨p.toAxisOrders.inverse, .inverse p.made⟩

/-- The order that has the effect of `first` and then `next`, `none` if their lengths differ. -/
def compose? (first next : Permutation) : Option Permutation :=
  (first.toAxisOrders.compose? next.toAxisOrders).pmap mk fun _ h =>
    .compose first.made next.made h

/-- Whether the order changes nothing. -/
def isIdentity (p : Permutation) : Bool :=
  p.order == List.range p.size

/-- The list with entry `order[i]` at position `i`, `none` if it has another length. -/
def permute? {β : Type} (p : Permutation) (values : List β) : Option (List β) :=
  if values.length = p.size then some (select p.order values) else none

/-! ## Per-axis lists with an ellipsis -/

/-- The list with as many fills at position `start` as it lacks for `n` entries; at the end if
`start` lies beyond it. -/
def writeOut {β : Type} (n start : Nat) (fill : β) (values : List β) : List β :=
  values.take start ++ List.replicate (n - values.length) fill ++ values.drop start

/-- Permutes the first entries and keeps those beyond the permutation. -/
def permuteHead {β : Type} (p : Permutation) (values : List β) : List β :=
  select p.order values ++ values.drop p.size

/-- Where the fills go: behind the ellipsis, or at the end. -/
def fillStart (ellipsis : Option Nat) (length : Nat) : Nat :=
  match ellipsis with
  | some position => position + 1
  | none => length

/-- Re-indexes a per-axis list whose missing entries stand behind the ellipsis. -/
def scatter {β : Type} (p : Permutation) (ellipsis : Option Nat) (fill : β) (values : List β) :
    List β :=
  p.permuteHead (writeOut p.size (fillStart ellipsis values.length) fill values)

/-- Re-indexes a per-axis list whose missing entries stand at its end. -/
def scatterMask {β : Type} (p : Permutation) (fill : β) (mask : List β) : List β :=
  p.scatter none fill mask

/-- Like `scatter`, for an ellipsis position that comes from outside: the position behind it is only
needed, and has to be a word, if entries are missing. -/
def scatterChecked {β : Type} (p : Permutation) (ellipsis : Option Nat) (fill : β)
    (values : List β) : Except Error (List β) := do
  if values.length < p.size then
    if let some position := ellipsis then
      let _ ← checkedAdd position 1
  return p.scatter ellipsis fill values

end Permutation

end TensorGraph
