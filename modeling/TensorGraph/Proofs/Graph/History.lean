/-
  What a graph can become.

  All edits are made of a few kinds of `Step`: the four writes that nodes and edges come and go by,
  the changes of what a node holds, and remembering the order.  The steps from one graph to another
  are its `History`.  A history lists the ids that are given to new nodes, one after the other.

  An edit makes its steps one by one and may stop between two of them, so a property that every step
  keeps holds wherever an edit ends (`KeptBySteps.keptByEdits`) and along every run.  Rules that add
  no node need less: it is enough that the steps without a new node keep the property
  (`KeptByRewiring`).
-/
import TensorGraph.Proofs.Reachable

namespace TensorGraph

open Edit TensorGraph.Graph

variable {α : Type}

/-! ## Steps -/

namespace Graph

/-- A change that edits make, with the ids that it gives away.  A new node gets a free name, and
what a node holds is replaced by something of the same kind. -/
inductive Step : Graph α → List NodeId → Graph α → Prop where
  | insertNode (g : Graph α) (base : String) (payload : Payload α) :
    Step g [g.nextNode] (g.insertNode (g.freeName base) payload)
  | setPayload {g : Graph α} {id : NodeId} {payload : Payload α}
    (hkind : (g.setPayload id payload).kind? = g.kind?) : Step g [] (g.setPayload id payload)
  | setAttributes (g : Graph α) (id : NodeId) (attributes : Attributes) :
    Step g [] (g.setAttributes id attributes)
  | setLayout (g : Graph α) (layout : Layout) : Step g [] { g with layout }
  | insertEdge (g : Graph α) (wire : Wire) : Step g [] (g.insertEdge wire)
  | eraseEdge (g : Graph α) (id : EdgeId) : Step g [] (g.eraseEdge id)
  | takeNode (g : Graph α) (id : NodeId) : Step g [] (g.takeNode id)
  | remember (g : Graph α) : Step g [] g.remember

/-- Steps lead from one graph to the other; the ids are those that the steps give away, in turn. -/
inductive History (g : Graph α) : List NodeId → Graph α → Prop where
  | start : History g [] g
  | step {ids new : List NodeId} {g' g'' : Graph α} (h : History g ids g') (hstep : Step g' new g'') :
    History g (ids ++ new) g''

/-- Steps may follow steps. -/
theorem History.trans {g g' g'' : Graph α} {ids ids' : List NodeId} (h : History g ids g')
    (h' : History g' ids' g'') : History g (ids ++ ids') g'' := by
  induction h' with
  | start => rwa [List.append_nil]
  | step _ hstep ih =>
    rw [← List.append_assoc]
    exact ih.step hstep

/-- Every step keeps the property. -/
def KeptBySteps (P : Graph α → Prop) : Prop :=
  ∀ ⦃g ids g'⦄, Step g ids g' → P g → P g'

/-- Every step that adds no node keeps the property. -/
def KeptByRewiring (P : Graph α → Prop) : Prop :=
  ∀ ⦃g g'⦄, Step g [] g' → P g → P g'

theorem KeptBySteps.rewiring {P : Graph α → Prop} (hP : KeptBySteps P) : KeptByRewiring P :=
  fun _ _ hstep hg => hP hstep hg

/-- What every step keeps holds at the end of a history. -/
theorem KeptBySteps.history {P : Graph α → Prop} (hP : KeptBySteps P) {g g' : Graph α}
    {ids : List NodeId} (h : History g ids g') (hg : P g) : P g' := by
  induction h with
  | start => exact hg
  | step _ hstep ih => exact hP hstep ih

/-- That there is a history is kept by every step. -/
theorem keptBySteps_history (g : Graph α) : KeptBySteps fun g' => ∃ ids, History g ids g' := by
  rintro g' new g'' hstep ⟨ids, h⟩
  exact ⟨ids ++ new, h.step hstep⟩

end Graph

/-! ## Edits are made of steps -/

namespace Graph.KeptByRewiring

variable {P : Graph α → Prop} (hP : KeptByRewiring P)
include hP

/-- To replace an operation is one step. -/
theorem keeps_setOperation (id : NodeId) (operation : Operation) :
    Keeps P P (setOperation id operation) := fun _ hs => runs_setOperation
  (fun o ho => hP (.setPayload (kind?_setPayload_op (kind?_eq_op.mpr ⟨o, ho⟩))) hs) fun _ => hs

theorem keeps_modifyContent (id : NodeId) (f : Content α → Content α) :
    Keeps P P (modifyContent id f) := fun _ hs => runs_modifyContent
  (fun c hc => hP (.setPayload (kind?_setPayload_data (kind?_eq_data.mpr ⟨c, hc⟩))) hs) fun _ => hs

/-- To insert an edge is one step, after the check of its ends. -/
theorem keeps_insertEdge (wire : Wire) : Keeps P P (Edit.insertEdge wire) :=
  keeps_graph.bind fun _ => (keeps_attempt (fun _ h => h) _).bind fun _ =>
    (keeps_change fun g hg => hP (.insertEdge g wire) hg).bind fun _ => keeps_pure _

/-- To take an edge away is one step, if there is one. -/
theorem keeps_detach (id : EdgeId) : Keeps P P (detach id) := by
  refine keeps_graph.bind fun g => ?_
  split
  · exact keeps_pure _
  · exact (keeps_attempt (fun _ h => h) _).bind fun _ =>
      (keeps_change fun g hg => hP (.eraseEdge g id) hg).bind fun _ => keeps_pure _

theorem keeps_takeNode (id : NodeId) : Keeps P P (Edit.takeNode id) :=
  keeps_graph.bind fun _ => (keeps_attempt (fun _ h => h) _).bind fun _ =>
    (keeps_attempt (fun _ h => h) _).bind fun _ =>
    (keeps_change fun g hg => hP (.takeNode g id) hg).bind fun _ => keeps_pure _

/-- Removing a node takes its edges away, one step for each, and then the node. -/
theorem keeps_removeNode (id : NodeId) : Keeps P P (removeNode id) :=
  (keeps_query (fun _ h => h) _).bind fun _ => keeps_graph.bind fun _ =>
    (keeps_forM fun e _ => (hP.keeps_detach e).bind fun _ => keeps_pure _).bind fun _ =>
    hP.keeps_takeNode id

theorem keeps_addEdge (src : NodeId) (srcPort : Nat) (dst : NodeId) (dstPort : Nat) :
    Keeps P P (addEdge src srcPort dst dstPort) :=
  (keeps_query (fun _ h => h) _).bind fun w => hP.keeps_insertEdge w

theorem keeps_removeEdge (id : EdgeId) : Keeps P P (removeEdge id) := by
  refine (keeps_query (fun _ h => h) _).bind fun _ => (hP.keeps_detach id).bind fun e => ?_
  split
  · exact keeps_pure _
  · exact keeps_throw (fun _ h => h) _

theorem keeps_feed (data : NodeId) (port : InputPort) : Keeps P P (feed data port) :=
  (keeps_query (fun _ h => h) _).bind fun _ => (hP.keeps_addEdge _ _ _ _).bind fun _ => keeps_pure _

theorem keeps_unplug (port : InputPort) : Keeps P P (unplug port) := by
  refine (keeps_query (fun _ h => h) _).bind fun _ => keeps_graph.bind fun _ => ?_
  split
  · exact (hP.keeps_detach _).bind fun _ => keeps_pure _
  · exact keeps_pure _

/-- Moving an edge is two steps, and the edit may stop between them. -/
theorem keeps_moveInput (old new : InputPort) : Keeps P P (moveInput old new) := by
  refine keeps_graph.bind fun g => ?_
  split
  · split
    · exact keeps_pure _
    · exact (keeps_attempt (fun _ h => h) _).bind fun w => (hP.keeps_detach _).bind fun _ =>
        (hP.keeps_insertEdge w).bind fun _ => keeps_pure _
  · exact keeps_throw (fun _ h => h) _

/-- To feed a port with other data is two steps. -/
theorem keeps_refeed (data : NodeId) (port : InputPort) : Keeps P P (Edit.refeed data port) := by
  have hinsert : Keeps P P (do
      let _ ← Edit.insertEdge ⟨data, 0, port.node, port.index⟩ : Edit α PUnit) :=
    (hP.keeps_insertEdge _).bind fun _ => keeps_pure _
  refine keeps_graph.bind fun g => ?_
  split
  · exact (hP.keeps_detach _).bind fun _ => hinsert
  · exact hinsert

/-- Readers are moved one after the other. -/
theorem keeps_moveReaders (old new : NodeId) : Keeps P P (moveReaders old new) := by
  refine (keeps_query (fun _ h => h) _).bind fun _ => (keeps_query (fun _ h => h) _).bind fun _ => ?_
  split
  · exact keeps_pure _
  · refine keeps_graph.bind fun g => (keeps_forM fun p _ => ?_).bind fun _ =>
      keeps_forM fun p _ => hP.keeps_refeed new p
    split
    · exact keeps_throw (fun _ h => h) _
    · exact keeps_pure _

end Graph.KeptByRewiring

namespace Graph.KeptBySteps

variable {P : Graph α → Prop} (hP : KeptBySteps P)
include hP

/-- To add a node is one step. -/
theorem keeps_addNode (name : String) (payload : Payload α) : Keeps P P (addNode name payload) :=
  fun s hs => runs_addNode (hP (.insertNode s.graph name payload) hs)

/-- A link through a new node is three steps. -/
theorem keeps_insertLink (name : String) (source : OutputPort) (port : InputPort) :
    Keeps P P (Edit.insertLink name source port) :=
  (hP.keeps_addNode _ _).bind fun _ => (hP.rewiring.keeps_insertEdge _).bind fun _ =>
    (hP.rewiring.keeps_insertEdge _).bind fun _ => keeps_pure _

/-- A link is one step or three. -/
theorem keeps_link (source : OutputPort) (port : InputPort) : Keeps P P (link source port) := by
  refine (keeps_query (fun _ h => h) _).bind fun _ => (keeps_query (fun _ h => h) _).bind fun _ =>
    keeps_graph.bind fun g => ?_
  refine keeps_guard (fun _ h => h) ?_
  split
  · exact (hP.rewiring.keeps_feed _ _).bind fun _ => keeps_pure _
  · refine keeps_guard (fun _ h => h) ?_
    exact (keeps_attempt (fun _ h => h) _).bind fun _ =>
      (keeps_attempt (fun _ h => h) _).bind fun _ => hP.keeps_insertLink _ _ _

/-- What every step keeps, every edit keeps, wherever it ends. -/
theorem keptByEdits : KeptByEdits P where
  addNode := hP.keeps_addNode
  setOperation := hP.rewiring.keeps_setOperation
  setInference id inference := fun s hs => runs_setInference
    (fun o ho => hP (.setPayload (kind?_setPayload_op (kind?_eq_op.mpr ⟨o, ho⟩))) hs) fun _ => hs
  modifyContent := hP.rewiring.keeps_modifyContent
  setAttribute id name value := fun s hs => runs_setAttribute
    (fun _ _ attributes => hP (.setAttributes s.graph id attributes) hs) fun _ => hs
  setLayout layout := keeps_change fun g hg => hP (.setLayout g layout) hg
  removeNode := hP.rewiring.keeps_removeNode
  addEdge := hP.rewiring.keeps_addEdge
  removeEdge := hP.rewiring.keeps_removeEdge
  feed := hP.rewiring.keeps_feed
  produce port data := (keeps_query (fun _ h => h) _).bind fun _ =>
    (hP.rewiring.keeps_addEdge _ _ _ _).bind fun _ => keeps_pure _
  unplug := hP.rewiring.keeps_unplug
  release port := by
    refine (keeps_query (fun _ h => h) _).bind fun _ => keeps_graph.bind fun _ => ?_
    split
    · exact (hP.rewiring.keeps_removeEdge _).bind fun _ => keeps_pure _
    · exact keeps_pure _
  link := hP.keeps_link
  moveInput := hP.rewiring.keeps_moveInput
  moveReaders := hP.rewiring.keeps_moveReaders
  order := keeps_graph.bind fun _ =>
    (keeps_change fun g hg => hP (.remember g) hg).bind fun _ => keeps_pure _

end Graph.KeptBySteps

end TensorGraph
