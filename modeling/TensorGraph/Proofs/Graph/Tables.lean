/-
  The tables of a graph.

  A table has an entry for every node id that was ever given away, and the entry lists the ids of
  the edges that have this node as one of their ends, as they were added.  `tableOf` computes the
  table of an end from the edges.  The changes of a graph write the tables it keeps entry by entry,
  and the lemmas of this module say that each write leads from one computed table to the next:

    * a new node appends an empty entry (`tableOf_succ`);
    * a new edge is appended to one entry (`tableOf_append`);
    * an edge that goes is filtered out of one entry (`tableOf_erase`).
-/
import TensorGraph.Proofs.Graph.Lookup
import TensorGraph.Proofs.Order

namespace TensorGraph

/-- The table for one end of the edges, with entries for the first `count` nodes. -/
def tableOf (side : Edge → NodeId) (count : Nat) (edges : List Edge) : List (List EdgeId) :=
  (List.range count).map fun id => (edges.filter fun e => side e == id).map (·.id)

variable {side : Edge → NodeId} {count : Nat} {edges : List Edge}

@[simp] theorem length_tableOf : (tableOf side count edges).length = count := by
  rw [tableOf, List.length_map, List.length_range]

/-- What the table lists at a node; nothing has an end that the table has no entry for. -/
theorem getElem?_tableOf (hbelow : ∀ e ∈ edges, side e < count) (id : NodeId) :
    (tableOf side count edges)[id]?.getD [] = (edges.filter fun e => side e == id).map (·.id) := by
  rw [tableOf, List.getElem?_map]
  rcases Nat.lt_or_ge id count with hid | hid
  · rw [List.getElem?_range hid]
    rfl
  · have hnone : edges.filter (fun e => side e == id) = [] := by
      rw [List.filter_eq_nil_iff]
      intro e he hside
      have hlt := hbelow e he
      rw [beq_iff_eq.mp hside] at hlt
      exact Nat.not_lt.mpr hid hlt
    rw [List.getElem?_eq_none (by rwa [List.length_range]), hnone]
    rfl

/-- Writing one entry of a table that is computed entry by entry. -/
theorem modify_map_range {β : Type} (f : Nat → β) (write : β → β) (n k : Nat) :
    ((List.range n).map f).modify k write =
      (List.range n).map fun i => if i = k then write (f i) else f i := by
  refine List.ext_getElem? fun i => ?_
  rw [List.getElem?_modify, List.getElem?_map, List.getElem?_map]
  rcases Nat.lt_or_ge i n with hi | hi
  · rw [List.getElem?_range hi]
    by_cases hik : i = k
    · simp [hik]
    · simp [hik, Ne.symm hik]
  · rw [List.getElem?_eq_none (by rwa [List.length_range])]
    rfl

/-- A new node has an empty entry. -/
theorem tableOf_succ (hbelow : ∀ e ∈ edges, side e < count) :
    tableOf side (count + 1) edges = tableOf side count edges ++ [[]] := by
  have hnone : edges.filter (fun e => side e == count) = [] := by
    rw [List.filter_eq_nil_iff]
    intro e he hside
    exact Nat.ne_of_lt (hbelow e he) (beq_iff_eq.mp hside)
  rw [tableOf, List.range_succ, List.map_append, List.map_singleton, hnone]
  rfl

/-- A new edge is appended to one entry. -/
theorem tableOf_append (e : Edge) :
    tableOf side count (edges ++ [e]) = (tableOf side count edges).modify (side e) (· ++ [e.id]) := by
  rw [tableOf, tableOf, modify_map_range]
  refine List.map_congr_left fun id _ => ?_
  rw [List.filter_append, List.map_append]
  by_cases hid : id = side e
  · simp [hid]
  · simp [hid, Ne.symm hid]

/-- An edge that goes is filtered out of one entry. -/
theorem tableOf_erase (hids : (edges.map (·.id)).Nodup) {e : Edge} (he : e ∈ edges) :
    tableOf side count (edges.filter fun f => f.id != e.id) =
      (tableOf side count edges).modify (side e) (·.filter (· != e.id)) := by
  rw [tableOf, tableOf, modify_map_range]
  refine List.map_congr_left fun id _ => ?_
  rw [List.filter_filter]
  split
  · rw [List.filter_map, List.filter_filter]
    congr 1
    refine List.filter_congr fun f _ => ?_
    rw [Function.comp_apply, Bool.and_comm]
  · -- the edge is not listed at another node
    rename_i hid
    congr 1
    refine List.filter_congr fun f hf => ?_
    by_cases hsame : f.id = e.id
    · obtain rfl := List.inj_on_of_nodup_map hids hf he hsame
      simp [Ne.symm hid]
    · simp [hsame]

end TensorGraph
