/-
  A workspace: a session that edits run on one after the other.

  An edit that fails leaves its session behind, and the next one goes on there.  The topological
  order is asked for between edits; the graph of the session remembers it.
-/
import TensorGraph.Graph.Edit

namespace TensorGraph

variable {α β : Type}

/-- A session. -/
structure Workspace (α : Type) where
  session : Session α

namespace Workspace

/-- The workspace with the empty graph. -/
def empty (layout : Layout) : Workspace α :=
  ⟨⟨Graph.empty layout, []⟩⟩

/-- The graph as it is now. -/
def graph (w : Workspace α) : Graph α :=
  w.session.graph

/-- Runs an edit.  What it has done by the time it fails stays. -/
def edit (w : Workspace α) (e : Edit α β) : Except Error β × Workspace α :=
  match e w.session with
  | .ok result session => (.ok result, ⟨session⟩)
  | .error error session => (.error error, ⟨session⟩)

/-- All nodes in topological order, which is remembered. -/
def order (w : Workspace α) : List NodeId × Workspace α :=
  (w.graph.topologicalOrder, ⟨{ w.session with graph := w.graph.remember }⟩)

end Workspace

end TensorGraph
