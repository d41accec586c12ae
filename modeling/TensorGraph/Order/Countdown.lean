/-
  Ordering by counting down.

  Each item has a count: how many edges lead to it from items that have not been emitted.  An item
  whose count is zero is ready.  In each step the least item that is ready is emitted, and every
  edge out of it takes one off the count of its end; two edges between the same items are two steps
  of the count.  Items that are held back by a cycle keep a count above zero and are never emitted.

  The items that are ready are kept in increasing order, so that the least one comes first.
-/
import TensorGraph.Order.Sort

namespace TensorGraph

/-- The count of each item, and the items that are ready. -/
structure Countdown where
  counts : List (Nat × Nat)
  ready : List Nat
deriving DecidableEq, Repr

namespace Countdown

/-- The count of an item. -/
def count? (c : Countdown) (item : Nat) : Option Nat :=
  (c.counts.find? fun entry => entry.1 == item).map (·.2)

/-- The counts at the start, with the items that nothing holds back. -/
def start (counts : List (Nat × Nat)) : Countdown :=
  ⟨counts, sorted (· ≤ ·) ((counts.filter fun entry => entry.2 == 0).map (·.1))⟩

/-- Takes one off the count of an item.  At zero the item becomes ready. -/
def release (c : Countdown) (item : Nat) : Countdown :=
  match c.count? item with
  | some (n + 1) =>
    { counts := c.counts.map fun entry => if entry.1 == item then (item, n) else entry
      ready := if n = 0 then insertSorted (· ≤ ·) item c.ready else c.ready }
  | _ => c

/-- Emits at most `steps` items, and says what remains.  Emitting an item releases the ends of the
edges out of it. -/
def emit (heads : Nat → List Nat) : Nat → Countdown → List Nat × Countdown
  | 0, c => ([], c)
  | steps + 1, c =>
    match c.ready with
    | [] => ([], c)
    | item :: ready =>
      let (order, rest) := emit heads steps ((heads item).foldl release { c with ready })
      (item :: order, rest)

/-- The items that are held back at the end. -/
def stuck (c : Countdown) : List Nat :=
  (c.counts.filter fun entry => 0 < entry.2).map (·.1)

end Countdown

/-- The items that can be ordered, and what remains.  An item becomes ready once, so one step for
each item is enough. -/
def countdown (counts : List (Nat × Nat)) (heads : Nat → List Nat) : List Nat × Countdown :=
  (Countdown.start counts).emit heads counts.length

end TensorGraph
