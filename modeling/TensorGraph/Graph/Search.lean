/-
  The search for a path.

  A search keeps a stack of nodes to look at and the nodes that it has seen.  Each turn takes one
  node off the stack.  If it is the target, a path is found; if it was seen before, it is dropped;
  else the ends of its edges come onto the stack.  Without a node to look at there is no path.

  A node comes onto the stack for an edge out of a node that is seen from then on, so for every edge
  that is listed at most once.  The nodes on the stack and the edges listed at unseen nodes together
  are fewer after every turn, and the search ends, whatever the table lists.
-/
import TensorGraph.Graph.Basic

namespace TensorGraph

variable {α : Type}

/-- A search: the nodes to look at, the next one first, and the nodes that it has seen. -/
structure Search where
  stack : List NodeId
  seen : List NodeId
deriving DecidableEq, Repr

namespace Search

/-- The search that begins at a node. -/
def start (id : NodeId) : Search :=
  ⟨[id], []⟩

/-- One turn of the search for a target: the answer, or how the search goes on.  Of the nodes that
`heads` gives for a node, the last one is looked at first. -/
def turn (heads : NodeId → List NodeId) (target : NodeId) (s : Search) : Bool ⊕ Search :=
  match s.stack with
  | [] => .inl false
  | id :: stack =>
    if id = target then .inl true
    else if id ∈ s.seen then .inr ⟨stack, s.seen⟩
    else .inr ⟨(heads id).reverse ++ stack, id :: s.seen⟩

/-- The search goes on behind a node that is not the target: it is dropped, or its edges are
followed. -/
theorem turn_eq_inr {heads : NodeId → List NodeId} {target : NodeId} {s next : Search}
    (h : s.turn heads target = .inr next) :
    ∃ id stack seen, s = ⟨id :: stack, seen⟩ ∧ id ≠ target ∧
      (id ∈ seen ∧ next = ⟨stack, seen⟩ ∨
        id ∉ seen ∧ next = ⟨(heads id).reverse ++ stack, id :: seen⟩) := by
  obtain ⟨stack, seen⟩ := s
  cases stack with
  | nil => cases h
  | cons id stack =>
    refine ⟨id, stack, seen, rfl, ?_⟩
    simp only [turn] at h
    split at h
    · cases h
    · rename_i hne
      refine ⟨hne, ?_⟩
      split at h
      · rename_i hseen
        cases h
        exact .inl ⟨hseen, rfl⟩
      · rename_i hnew
        cases h
        exact .inr ⟨hnew, rfl⟩

/-- The edges that are still to be followed: those listed at nodes that have not been seen. -/
def unused (g : Graph α) (seen : List NodeId) : List EdgeId :=
  ((List.range g.outgoing.length).filter (· ∉ seen)).flatMap g.outEdgeIds

/-- How many turns there can be before the answer. -/
def turnsLeft (g : Graph α) (s : Search) : Nat :=
  s.stack.length + (unused g s.seen).length

/-- Fewer nodes list no more edges. -/
theorem length_flatMap_filter_le (f : NodeId → List EdgeId) (p : NodeId → Bool) (ids : List NodeId) :
    ((ids.filter p).flatMap f).length ≤ (ids.flatMap f).length := by
  induction ids with
  | nil => exact Nat.le_refl _
  | cons x rest ih =>
    rw [List.filter_cons, List.flatMap_cons, List.length_append]
    split
    · rw [List.flatMap_cons, List.length_append]
      omega
    · omega

/-- Without one of the nodes, the edges that it lists are missing. -/
theorem length_flatMap_filter_ne (f : NodeId → List EdgeId) {ids : List NodeId} {id : NodeId}
    (h : id ∈ ids) :
    (f id).length + ((ids.filter (· != id)).flatMap f).length ≤ (ids.flatMap f).length := by
  induction ids with
  | nil => cases h
  | cons x rest ih =>
    rw [List.filter_cons, List.flatMap_cons, List.length_append]
    by_cases hx : x = id
    · subst hx
      have hrest := length_flatMap_filter_le f (· != x) rest
      rw [if_neg (by simp)]
      omega
    · have hrest := ih ((List.mem_cons.mp h).resolve_left (Ne.symm hx))
      rw [if_pos (by simpa using hx), List.flatMap_cons, List.length_append]
      omega

/-- Seeing a node uses up the edges listed at it. -/
theorem length_unused_cons (g : Graph α) {id : NodeId} {seen : List NodeId} (h : id ∉ seen) :
    (g.heads id).length + (unused g (id :: seen)).length ≤ (unused g seen).length := by
  have hheads : (g.heads id).length ≤ (g.outEdgeIds id).length := by
    rw [Graph.heads, List.length_map]
    exact List.length_filterMap_le _ _
  have hfilter : (List.range g.outgoing.length).filter (· ∉ id :: seen) =
      ((List.range g.outgoing.length).filter (· ∉ seen)).filter (· != id) := by
    rw [List.filter_filter]
    refine List.filter_congr fun x _ => ?_
    by_cases hx : x = id <;> simp [hx]
  rw [unused, unused, hfilter]
  rcases Nat.lt_or_ge id g.outgoing.length with hid | hid
  · have hmem : id ∈ (List.range g.outgoing.length).filter (· ∉ seen) := by simp [hid, h]
    exact Nat.le_trans (Nat.add_le_add_right hheads _) (length_flatMap_filter_ne g.outEdgeIds hmem)
  · -- the table has no entry for the node
    have hnone : g.outEdgeIds id = [] := by
      rw [Graph.outEdgeIds, List.getElem?_eq_none hid, Option.getD_none]
    rw [hnone, List.length_nil, Nat.le_zero] at hheads
    rw [hheads, Nat.zero_add]
    exact length_flatMap_filter_le _ _ _

/-- Every turn takes one node off the stack, and puts one onto it only for an edge that it uses up.
-/
theorem turnsLeft_turn {g : Graph α} {target : NodeId} {s next : Search}
    (h : s.turn g.heads target = .inr next) : next.turnsLeft g < s.turnsLeft g := by
  obtain ⟨id, stack, seen, rfl, -, ⟨-, rfl⟩ | ⟨hnew, rfl⟩⟩ := turn_eq_inr h
  · simp only [turnsLeft, List.length_cons]
    omega
  · have hused := length_unused_cons g hnew
    simp only [turnsLeft, List.length_append, List.length_reverse, List.length_cons]
    omega

/-- The answer of the search for a target in a graph. -/
@[semireducible]
def run (g : Graph α) (target : NodeId) (s : Search) : Bool :=
  match _h : s.turn g.heads target with
  | .inl found => found
  | .inr next => run g target next
termination_by s.turnsLeft g
decreasing_by exact turnsLeft_turn _h

end Search

/-- Whether a path leads from one node to the other; a node reaches itself. -/
def Graph.hasPath (g : Graph α) (start target : NodeId) : Bool :=
  (Search.start start).run g target

end TensorGraph
