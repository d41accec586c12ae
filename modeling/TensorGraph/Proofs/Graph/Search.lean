/-
  The search for a path, turn by turn.

  The search follows the edges that the table lists at each node.  In a well-formed graph every edge
  is listed at one node (`length_unused_nil`), so there are at most as many turns as edges and one
  more, until the turn that answers (`after_eq_run`).  `search_exact` says what the answer is, for
  any two ids, of live nodes or not.

  Of a run over a graph two facts are shown together, since neither says much alone: the answer is
  exact, also where the two ids are the same or name nothing, and it comes within a number of turns
  that does not depend on how many paths there are.  `diamondCommands` makes a graph with two paths
  between two nodes, where a node is met twice and looked at once.
-/
import TensorGraph.Proofs.Reachable

namespace TensorGraph

open Relation

variable {α : Type} {g : Graph α}

namespace Search

/-- The search after a number of turns: its answer, if it has one by then, or how far it is. -/
def after (heads : NodeId → List NodeId) (target : NodeId) : Nat → Search → Bool ⊕ Search
  | 0, s => .inr s
  | turns + 1, s =>
    match s.turn heads target with
    | .inl found => .inl found
    | .inr next => after heads target turns next

/-- The answer comes after the turns that are left, and one more. -/
theorem after_eq_run {target : NodeId} {turns : Nat} {s : Search} (h : s.turnsLeft g < turns) :
    s.after g.heads target turns = .inl (s.run g target) := by
  obtain ⟨turns, rfl⟩ : ∃ more, turns = more + 1 := ⟨turns - 1, by omega⟩
  fun_induction s.run g target generalizing turns with
  | case1 s found hturn => rw [after, hturn]
  | case2 s next hturn ih =>
    have hless := turnsLeft_turn hturn
    obtain ⟨more, rfl⟩ : ∃ more, turns = more + 1 := ⟨turns - 1, by omega⟩
    rw [after, hturn]
    exact ih more (by omega)

/-- The edges that start at the first nodes, node by node. -/
theorem length_flatMap_listed (edges : List Edge) (count : Nat) :
    ((List.range count).flatMap fun id => (edges.filter fun e => e.src == id).map (·.id)).length =
      (edges.filter fun e => e.src < count).length := by
  induction count with
  | zero => simp
  | succ count ih =>
    have hsplit : edges.countP (fun e => e.src < count + 1) =
        edges.countP (fun e => e.src < count) + edges.countP (fun e => e.src == count) := by
      clear ih
      induction edges with
      | nil => rfl
      | cons e rest ih =>
        simp only [List.countP_cons, decide_eq_true_eq, beq_iff_eq, Nat.lt_succ_iff_lt_or_eq]
        grind
    rw [List.range_succ, List.flatMap_append, List.length_append, ih, List.flatMap_singleton,
      List.length_map]
    simpa only [List.countP_eq_length_filter] using hsplit.symm

/-- Every edge is listed at one node. -/
theorem length_unused_nil (hg : g.WellFormed) : (unused g []).length ≤ g.edges.length := by
  have hlisted : g.outEdgeIds = fun id => (g.edges.filter fun e => e.src == id).map (·.id) :=
    funext hg.outEdgeIds_eq
  have hall : (List.range g.outgoing.length).filter (· ∉ []) = List.range g.outgoing.length := by
    simp
  rw [unused, hall, hlisted, length_flatMap_listed]
  exact List.length_filter_le _ _

end Search

theorem Graph.WellFormed.hasPath_iff_transGen (hg : g.WellFormed) (start target : NodeId) :
    g.hasPath start target = true ↔ start = target ∨ TransGen g.Joins start target := by
  rw [hg.hasPath_iff, reflTransGen_iff_eq_or_transGen, eq_comm]

/-- **The search for a path is exact.**  It has its answer after at most two turns more than there
are edges, and the answer is yes exactly if the two ids are the same or a path of at least one edge
leads from the first to the second. -/
theorem search_exact [Scalar α] (hg : Reachable g) (start target : NodeId) :
    (Search.start start).after g.heads target (g.edges.length + 2) =
        .inl (g.hasPath start target) ∧
      (g.hasPath start target = true ↔ start = target ∨ TransGen g.Joins start target) := by
  have hturns : (Search.start start).turnsLeft g < g.edges.length + 2 := by
    have hunused := Search.length_unused_nil hg.wellFormed
    simp only [Search.turnsLeft, Search.start, List.length_singleton]
    omega
  exact ⟨Search.after_eq_run hturns, hg.wellFormed.hasPath_iff_transGen start target⟩

/-- Two operators read the same tensor and are read by a third; a fourth one has been removed. -/
def diamondCommands : List (Command Float) :=
  [.addOperator "top" .parameter, .addOperator "left" .mul, .addOperator "right" .mul,
    .addOperator "bottom" .mul, .addOperator "gone" .mul,
    .link ⟨0, 0⟩ ⟨1, 0⟩, .link ⟨0, 0⟩ ⟨2, 0⟩, .link ⟨1, 0⟩ ⟨3, 0⟩, .link ⟨2, 0⟩ ⟨3, 1⟩,
    .removeNode 4]

/-- The search from the top sees the bottom on both ways and finds no path to the node that is gone,
which still reaches itself. -/
theorem diamondCommands_search :
    Reachable (runCommands .nchw diamondCommands) ∧
    (Search.start 0).after (runCommands .nchw diamondCommands).heads 4 9 = .inl false ∧
    TransGen (runCommands .nchw diamondCommands).Joins 0 3 ∧
    ¬ TransGen (runCommands .nchw diamondCommands).Joins 0 4 ∧
    (runCommands .nchw diamondCommands).hasPath 4 4 = true := by
  have hg : Reachable (runCommands .nchw diamondCommands) := ⟨_, _, rfl⟩
  have hedges : (runCommands .nchw diamondCommands).edges.length = 7 := by decide +kernel
  have hyes : (runCommands .nchw diamondCommands).hasPath 0 3 = true := by decide +kernel
  have hno : (runCommands .nchw diamondCommands).hasPath 0 4 = false := by decide +kernel
  obtain ⟨hafter, hgone⟩ := search_exact hg 0 4
  rw [hedges, hno] at hafter
  refine ⟨hg, hafter, ?_, fun hpath => ?_, (search_exact hg 4 4).2.mpr (.inl rfl)⟩
  · exact ((search_exact hg 0 3).2.mp hyes).resolve_left (by decide)
  · rw [hgone.mpr (.inr hpath)] at hno
    cases hno

end TensorGraph
