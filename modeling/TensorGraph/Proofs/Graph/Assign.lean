/-
  Graphs and their stored shapes.

  A graph is a skeleton and a shape, or none, for each data node: `assign` puts shapes on a skeleton
  and `shapeAt` reads them off again.  Graphs that differ in stored shapes only are one skeleton
  with different shapes, and a stored shape is changed by an update of a function.

  Reading an assigned graph finds the operators, the kinds and the wiring of the skeleton and the
  shapes that were assigned (`operator?_assign`, `output_assign`, `shapeAt_assign`).  The two
  directions are inverse: assigning what is read changes nothing (`assign_shapeAt`), and of two
  assignments the last one counts (`assign_assign`).  Storing content at a node of an assigned graph
  is assigning the updated function (`setPayload_assign`), which turns inference, a computation on
  graphs, into one on functions.
-/
import TensorGraph.Proofs.Graph.View

namespace TensorGraph

open Function (update)

variable {α : Type}

/-- The stored shapes of the data nodes. -/
abbrev Shapes := NodeId → Option Shape

/-- The payload with another stored shape, if it is data. -/
def Payload.withShape (shape : Option Shape) : Payload α → Payload α
  | .op o => .op o
  | .data c => .data { c with shape }

/-- The node with another stored shape, if it is data. -/
def Node.withShape (shape : Option Shape) (n : Node α) : Node α :=
  { n with payload := n.payload.withShape shape }

/-- A node keeps its id. -/
@[simp] theorem Node.id_withShape (shape : Option Shape) (n : Node α) :
    (n.withShape shape).id = n.id :=
  rfl

/-- Of two shapes the last one is stored. -/
@[simp] theorem Node.withShape_withShape (s t : Option Shape) (n : Node α) :
    (n.withShape s).withShape t = n.withShape t := by
  obtain ⟨_, _, (o | c), _⟩ := n <;> rfl

@[simp] theorem Node.kind_withShape (s : Option Shape) (n : Node α) :
    (n.withShape s).kind = n.kind := by
  obtain ⟨_, _, (o | c), _⟩ := n <;> rfl

/-- An operator has no shape of its own. -/
@[simp] theorem Node.operator?_withShape (s : Option Shape) (n : Node α) :
    (n.withShape s).operator? = n.operator? := by
  obtain ⟨_, _, (o | c), _⟩ := n <;> rfl

/-- Content gets the new shape and keeps the rest. -/
theorem Node.content?_withShape (s : Option Shape) (n : Node α) :
    (n.withShape s).content? = n.content?.map fun c => { c with shape := s } := by
  obtain ⟨_, _, (o | c), _⟩ := n <;> rfl

namespace Graph

/-- The graph with the given stored shapes. -/
def assign (g : Graph α) (σ : Shapes) : Graph α :=
  { g with nodes := g.nodes.map fun n => n.withShape (σ n.id) }

/-- The stored shapes of a graph. -/
def shapeAt (g : Graph α) : Shapes :=
  fun d => (g.content? d).bind (·.shape)

variable {g : Graph α} {σ τ : Shapes}

/-! ## Reading an assigned graph -/

/-- Looking up a node, then assigning, is assigning at once. -/
theorem node?_assign (id : NodeId) :
    (g.assign σ).node? id = (g.node? id).map (Node.withShape (σ id)) := by
  have hsame : (fun n : Node α => n.id == id) ∘ (fun n : Node α => n.withShape (σ n.id)) =
      fun n => n.id == id := rfl
  rw [node?, assign, List.find?_map, hsame]
  refine Option.map_congr fun n hn => ?_
  have hid : n.id = id := by simpa using List.find?_some hn
  rw [hid]

/-- The operators are those of the skeleton. -/
@[simp] theorem operator?_assign : (g.assign σ).operator? = g.operator? := by
  funext id
  rw [operator?, node?_assign, operator?]
  cases g.node? id <;> simp

@[simp] theorem kind?_assign : (g.assign σ).kind? = g.kind? := by
  funext id
  rw [kind?, node?_assign, kind?]
  cases g.node? id <;> simp

/-- Content has the shape that is assigned to its node. -/
theorem content?_assign (id : NodeId) :
    (g.assign σ).content? id = (g.content? id).map fun c => { c with shape := σ id } := by
  rw [content?, node?_assign, content?]
  cases g.node? id with
  | none => rfl
  | some n => exact n.content?_withShape (σ id)

@[simp] theorem ids_assign : (g.assign σ).ids = g.ids := by
  simp [ids, assign]

/-- Of two assignments the last one counts. -/
theorem assign_assign : (g.assign σ).assign τ = g.assign τ := by
  simp [assign]

/-- The order does not depend on shapes. -/
@[simp] theorem topologicalOrder_assign :
    (g.assign σ).topologicalOrder = g.topologicalOrder := by
  have horder : (g.assign σ).computeOrder = g.computeOrder :=
    computeOrder_congr ids_assign rfl rfl rfl
  rw [topologicalOrder, horder]
  rfl

/-- The wiring is that of the skeleton. -/
theorem output_assign : (g.assign σ).view.output = g.view.output := by
  funext p
  show (if (g.assign σ).kind? p.node = some .op then g.result? p else none) = _
  rw [kind?_assign]
  rfl

/-- The shape of data is the one that was assigned. -/
theorem shapeAt_assign {d : NodeId} (hd : g.kind? d = some .data) :
    (g.assign σ).shapeAt d = σ d := by
  obtain ⟨c, hc⟩ := kind?_eq_data.mp hd
  rw [shapeAt, content?_assign, hc]
  rfl

namespace WellFormed

variable (hg : g.WellFormed)
include hg

/-! ## Skeletons and shapes -/

/-- Assigning the shapes that are there changes nothing. -/
theorem assign_shapeAt : g.assign g.shapeAt = g := by
  have hnodes : (g.nodes.map fun n => n.withShape (g.shapeAt n.id)) = g.nodes := by
    refine (List.map_congr_left fun n hn => ?_).trans (List.map_id _)
    have hfound := hg.node?_eq_some_iff.mpr ⟨hn, rfl⟩
    rw [shapeAt, content?, hfound]
    obtain ⟨_, _, (o | c), _⟩ := n <;> rfl
  exact congrArg (fun nodes => { g with nodes }) hnodes

/-- Storing a shape is an update of the stored shapes. -/
theorem setPayload_assign {d : NodeId} {c : Content α} (hc : (g.assign σ).content? d = some c)
    (s : Option Shape) :
    (g.assign σ).setPayload d (.data { c with shape := s }) = g.assign (update σ d s) := by
  have hnodes : ((g.nodes.map fun n => n.withShape (σ n.id)).map fun n =>
      if n.id == d then { n with payload := .data { c with shape := s } } else n) =
      g.nodes.map fun n => n.withShape (update σ d s n.id) := by
    rw [List.map_map]
    refine List.map_congr_left fun n hn => ?_
    have hfound := hg.node?_eq_some_iff.mpr ⟨hn, rfl⟩
    by_cases hid : n.id = d
    · subst hid
      rw [content?_assign, content?, hfound] at hc
      simp only [Function.comp, Node.id_withShape, beq_self_eq_true, if_true, Function.update_self]
      obtain ⟨_, _, (o | c'), _⟩ := n
      · cases hc
      · cases hc
        rfl
    · simp [Function.comp, hid]
  exact congrArg (fun nodes => { g with nodes }) hnodes

end WellFormed

end Graph

end TensorGraph
