/-
  The order that a workspace answers with.

  A graph remembers the topological order that it was last asked for.  A question returns what is
  remembered as it is, so an order that is out of date would be returned like any other.  Nodes and
  edges come and go by four writes, `insertNode`, `insertEdge`, `eraseEdge` and `takeNode`, and each
  of them forgets the order; all other changes leave alone what the order is computed from
  (`Step.forgets_or_keeps`).  So along a run the graph remembers no order or the one of now.

  The order is computed by counting down, for each node, the edges from nodes that are not placed
  yet, parallel ones one by one.  Of the nodes without such edges the one with the least id comes
  next.

    * `isLeastOrder_topologicalOrder`: the result is the least list of all live nodes in which edges
      point forward;
    * `order_isLeast`: this is what every question is answered with, after any commands and with any
      questions among them.
-/
import TensorGraph.Proofs.Graph.History
import TensorGraph.Workspace

namespace TensorGraph

open Edit TensorGraph.Graph

variable {α : Type}

/-! ## The least order -/

namespace Graph

/-- The list has every live node once and no other id, and edges point forward in it. -/
structure IsOrder (g : Graph α) (order : List NodeId) : Prop where
  nodup : order.Nodup
  live : ∀ id, id ∈ order ↔ g.node? id ≠ none
  forward : ∀ e ∈ g.edges, order.idxOf e.src < order.idxOf e.dst

/-- The list is such an order, and comes before every other one, compared id by id. -/
structure IsLeastOrder (g : Graph α) (order : List NodeId) : Prop extends g.IsOrder order where
  least : ∀ other, g.IsOrder other → order = other ∨ List.Lex (· < ·) order other

namespace WellFormed

variable {g : Graph α} (hg : g.WellFormed)
include hg

/-- The topological order lists all live nodes, and edges point forward in it. -/
theorem isOrder_topologicalOrder : g.IsOrder g.topologicalOrder where
  nodup := hg.topologicalOrder_perm.nodup_iff.mpr hg.ids_nodup
  live id := by
    rw [hg.mem_topologicalOrder]
    exact Option.isSome_iff_ne_none
  forward e he := hg.ranked_topologicalOrder e.toWire ⟨e, he, rfl⟩

/-- An order of the graph is one in which nodes follow what they wait for. -/
theorem follows_waitingNodes {order : List NodeId} (h : g.IsOrder order) :
    Follows g.waitingNodes order where
  items := by
    rw [waitingNodes_items, List.perm_ext_iff_of_nodup h.nodup hg.ids_nodup]
    intro id
    rw [h.live, hg.mem_ids_iff]
    exact Option.isSome_iff_ne_none.symm
  after := by
    intro w hw d hd
    rw [(mem_waitingNodes.mp hw).2, hg.mem_inEdges_src] at hd
    obtain ⟨e, he, rfl, hdst⟩ := hd
    exact hdst ▸ h.forward e he

/-- It is the least of all such orders. -/
theorem isLeastOrder_topologicalOrder : g.IsLeastOrder g.topologicalOrder where
  toIsOrder := hg.isOrder_topologicalOrder
  least other h := by
    rw [hg.topologicalOrder_eq]
    exact emitSteps_least _ g.waitingNodes other hg.waitingNodes_increasing (Nat.le_refl _)
      (hg.follows_waitingNodes h)

end WellFormed

end Graph

/-! ## The remembered order -/

namespace Graph

/-- A step forgets the order, or nodes and edges stay as they are.  In the second case it leaves the
order as it is remembered, or remembers the one that a question is answered with. -/
theorem Step.forgets_or_keeps {g g' : Graph α} {ids : List NodeId} (h : Step g ids g') :
    g'.knownOrder = none ∨ g'.computeOrder = g.computeOrder ∧
      (g'.knownOrder = g.knownOrder ∨ g'.knownOrder = some g.topologicalOrder) := by
  cases h with
  | insertNode => exact .inl rfl
  | setPayload => exact .inr ⟨computeOrder_congr (ids_setPayload _ _ _) rfl rfl rfl, .inl rfl⟩
  | setAttributes => exact .inr ⟨computeOrder_congr (ids_setAttributes _ _ _) rfl rfl rfl, .inl rfl⟩
  | setLayout => exact .inr ⟨rfl, .inl rfl⟩
  | insertEdge => exact .inl rfl
  -- without the edge or the node there is nothing to take away
  | eraseEdge id =>
    rw [Graph.eraseEdge]
    split
    · exact .inr ⟨rfl, .inl rfl⟩
    · exact .inl rfl
  | takeNode id =>
    rw [Graph.takeNode]
    split
    · exact .inr ⟨rfl, .inl rfl⟩
    · exact .inl rfl
  | remember => exact .inr ⟨rfl, .inr rfl⟩

/-- No order is remembered, or the one of now. -/
def Current (g : Graph α) : Prop :=
  g.knownOrder = none ∨ g.knownOrder = some g.computeOrder

/-- What is remembered, if anything is, is what would be computed. -/
theorem Current.topologicalOrder_eq {g : Graph α} (h : g.Current) :
    g.topologicalOrder = g.computeOrder := by
  rcases h with hnone | hsome
  · rw [topologicalOrder, hnone, Option.getD_none]
  · rw [topologicalOrder, hsome, Option.getD_some]

/-- No step leaves an order behind that is out of date. -/
theorem keptBySteps_current : KeptBySteps (Current : Graph α → Prop) := by
  intro g ids g' hstep h
  rcases hstep.forgets_or_keeps with hnone | ⟨hsame, hknown | hknown⟩
  · exact .inl hnone
  · rw [Current, hknown, hsame]
    exact h
  · right
    rw [hknown, hsame, h.topologicalOrder_eq]

end Graph

/-! ## Runs -/

namespace Workspace

/-- A workspace performs a command as a run does. -/
@[simp] theorem session_edit [Scalar α] (w : Workspace α) (command : Command α) :
    (w.edit command.perform).2.session = command.apply w.session := by
  unfold edit Command.apply
  cases command.perform w.session <;> rfl

/-- The workspace after a sequence of commands, whose results are dropped.  Questions for the order
are among the commands. -/
def after [Scalar α] (layout : Layout) (commands : List (Command α)) : Workspace α :=
  commands.foldl (fun w command => (w.edit command.perform).2) (empty layout)

/-- The graph of a workspace is that of the run. -/
theorem graph_after [Scalar α] (layout : Layout) (commands : List (Command α)) :
    (after layout commands).graph = runCommands layout commands := by
  have hrun : ∀ (commands : List (Command α)) (w : Workspace α),
      (commands.foldl (fun w command => (w.edit command.perform).2) w).session =
        commands.foldl Command.apply w.session := by
    intro commands
    induction commands with
    | nil => exact fun _ => rfl
    | cons command rest ih =>
      intro w
      rw [List.foldl_cons, ih, session_edit]
      rfl
  exact congrArg Session.graph (hrun commands _)

end Workspace

/-- **The topological order is right and never out of date.**  After any commands, failing ones
among them, and any questions in between, the graph remembers no order or the one of now.  The next
question is answered with the least order, which is then remembered. -/
theorem order_isLeast [Scalar α] (layout : Layout) (commands : List (Command α)) :
    (Workspace.after layout commands).graph = runCommands layout commands ∧
    (runCommands layout commands).Current ∧
    (runCommands layout commands).IsLeastOrder (Workspace.after layout commands).order.1 ∧
    Workspace.after layout (commands ++ [.order]) = (Workspace.after layout commands).order.2 ∧
    (runCommands layout (commands ++ [.order])).knownOrder =
      some (Workspace.after layout commands).order.1 := by
  have hgraph := Workspace.graph_after layout commands
  have hasked : Workspace.after layout (commands ++ [.order]) =
      (Workspace.after layout commands).order.2 := by
    rw [Workspace.after, List.foldl_append]
    rfl
  refine ⟨hgraph, ?_, ?_, hasked, ?_⟩
  · exact runCommands_keeps keptBySteps_current.keptByEdits (fun _ => .inl rfl) layout commands
  · show (runCommands layout commands).IsLeastOrder
      (Workspace.after layout commands).graph.topologicalOrder
    rw [hgraph]
    exact (runCommands_wellFormed layout commands).isLeastOrder_topologicalOrder
  · rw [← Workspace.graph_after, hasked]
    rfl

end TensorGraph
