/-
  What a graph says about its nodes and wires, and how each change alters it.

  For reasoning, a graph is two things: the partial map `node?` from ids to nodes, with its views
  `kind?`, `operator?` and `content?`, and the set `Wired` of the connections between them.  The ids
  of edges and the order of the lists do not matter for either, nor do the tables, the names and the
  remembered order.  Every change of a graph is an update of the map, or adds and removes wires.

  The module goes through the changes in this order:

    1. the views of a graph, and what they say of a node that is there (`kind?_eq_op`,
       `kind?_eq_data`, `operator_eq_ok`, `content_eq_ok`);
    2. the map of nodes after each change (`node?_insertNode`, `node?_setPayload`, `node?_takeNode`,
       `node?_eraseNode`), all by one lemma about looking up a changed list (`find_changed`);
    3. the views after each change, by one lemma as well (`view_update`);
    4. the wires after each change (`wired_insertEdge`, `mem_edges_eraseEdge`).

  The lemmas about fields that a change does not touch are equations for `simp`.
-/
import TensorGraph.Proofs.Graph.Path
import Mathlib.Logic.Function.Basic

namespace TensorGraph

open Function (update)

/-- The port at which a wire ends. -/
def Wire.target (w : Wire) : InputPort :=
  ⟨w.dst, w.dstPort⟩

namespace Graph

variable {α : Type} {g : Graph α}

/-! ## Views -/

/-- The kind of the node with the given id. -/
def kind? (g : Graph α) (id : NodeId) : Option Kind :=
  (g.node? id).map Node.kind

/-- The operator with the given id. -/
def operator? (g : Graph α) (id : NodeId) : Option Operator :=
  (g.node? id).bind Node.operator?

/-- The content of the data node with the given id. -/
def content? (g : Graph α) (id : NodeId) : Option (Content α) :=
  (g.node? id).bind Node.content?

/-- The graph has this connection. -/
def Wired (g : Graph α) (w : Wire) : Prop :=
  ∃ e ∈ g.edges, e.toWire = w

/-- What is found under an id has this id. -/
theorem node?_id {id : NodeId} {n : Node α} (h : g.node? id = some n) : n.id = id := by
  simpa using List.find?_some h

theorem node?_mem {id : NodeId} {n : Node α} (h : g.node? id = some n) : n ∈ g.nodes :=
  List.mem_of_find?_eq_some h

theorem mem_ids_of_node? {id : NodeId} {n : Node α} (h : g.node? id = some n) : id ∈ g.ids :=
  List.mem_map.mpr ⟨n, node?_mem h, node?_id h⟩

/-- The nodes of kind operator are those that hold one. -/
theorem kind?_eq_op {id : NodeId} :
    g.kind? id = some .op ↔ ∃ o, g.operator? id = some o := by
  rw [kind?, operator?]
  rcases g.node? id with _ | ⟨_, _, (o | c), _⟩ <;> simp [Node.kind, Node.operator?]

/-- The nodes of kind data are those that hold some. -/
theorem kind?_eq_data {id : NodeId} :
    g.kind? id = some .data ↔ ∃ c, g.content? id = some c := by
  rw [kind?, content?]
  rcases g.node? id with _ | ⟨_, _, (o | c), _⟩ <;> simp [Node.kind, Node.content?]

/-- Nodes of different kinds are different. -/
theorem op_ne_data {a b : NodeId} (ha : g.kind? a = some .op) (hb : g.kind? b = some .data) :
    a ≠ b := by
  rintro rfl
  exact absurd (ha.symm.trans hb) (by decide)

/-- Without a node there is no kind. -/
theorem kind?_eq_none {id : NodeId} : g.kind? id = none ↔ g.node? id = none := by
  rw [kind?, Option.map_eq_none_iff]

/-- No node is both an operator and data. -/
theorem operator?_of_data {id : NodeId} (h : g.kind? id = some .data) :
    g.operator? id = none := by
  revert h
  rw [kind?, operator?]
  rcases g.node? id with _ | ⟨_, _, (o | c), _⟩ <;> simp [Node.kind, Node.operator?]

/-- The operators are the nodes that have a type. -/
theorem kind?_eq_op_iff_opcode? {id : NodeId} {n : Node α} (hn : g.node? id = some n) :
    g.kind? id = some .op ↔ ∃ type, n.opcode? = some type := by
  rw [kind?_eq_op, operator?, hn, Option.bind_some, Node.opcode?]
  simp [Option.map_eq_some_iff]

/-- Data nodes have no opcode. -/
theorem opcode?_of_data {id : NodeId} {n : Node α} (hn : g.node? id = some n)
    (hdata : g.kind? id = some .data) : n.opcode? = none := by
  have hoperator := operator?_of_data hdata
  rw [operator?, hn, Option.bind_some] at hoperator
  rw [Node.opcode?, hoperator, Option.map_none]

theorem hasNode_of_kind? {id : NodeId} {k : Kind} (h : g.kind? id = some k) :
    g.hasNode id = true := by
  obtain ⟨n, hn, -⟩ := Option.map_eq_some_iff.mp h
  rw [hasNode, hn, Option.isSome_some]

/-- Asking for a node succeeds if it is live. -/
theorem node_eq_ok {id : NodeId} {n : Node α} : g.node id = .ok n ↔ g.node? id = some n := by
  rw [node]
  split <;> simp_all

/-- Asking for an operator succeeds if the node is one. -/
theorem operator_eq_ok {id : NodeId} {o : Operator} :
    g.operator id = .ok o ↔ g.operator? id = some o := by
  rw [operator, operator?, node]
  rcases g.node? id with _ | ⟨_, _, (o | c), _⟩ <;>
    simp [Node.operator?, bind, Except.bind, pure, Except.pure, throw, throwThe,
      MonadExceptOf.throw]

/-- Asking for content succeeds if the node is a data node. -/
theorem content_eq_ok {id : NodeId} {c : Content α} :
    g.content id = .ok c ↔ g.content? id = some c := by
  rw [content, content?, node]
  rcases g.node? id with _ | ⟨_, _, (o | c), _⟩ <;>
    simp [Node.content?, bind, Except.bind, pure, Except.pure, throw, throwThe,
      MonadExceptOf.throw]

/-- Asking for a kind succeeds for a live node of this kind. -/
theorem requireKind_eq_ok {id : NodeId} {k : Kind} :
    g.requireKind id k = .ok () ↔ g.kind? id = some k := by
  rw [requireKind, kind?, node]
  rcases g.node? id with _ | n
  · simp [bind, Except.bind]
  · by_cases hk : n.kind = k <;>
      simp [hk, bind, Except.bind, pure, Except.pure, throw, throwThe, MonadExceptOf.throw]

/-- Two nodes are joined by a wire between some of their ports. -/
theorem joins_iff {a b : NodeId} : g.Joins a b ↔ ∃ i j, g.Wired ⟨a, i, b, j⟩ := by
  constructor
  · rintro ⟨e, he, rfl, rfl⟩
    exact ⟨e.srcPort, e.dstPort, e, he, rfl⟩
  · rintro ⟨i, j, e, he, hw⟩
    exact ⟨e, he, congrArg Wire.src hw, congrArg Wire.dst hw⟩

theorem Wired.joins {w : Wire} (h : g.Wired w) : g.Joins w.src w.dst :=
  joins_iff.mpr ⟨w.srcPort, w.dstPort, h⟩

/-! ## Nodes under changes -/

/-- A new node is found under its id, and all others are found as before. -/
theorem node?_insertNode {name : String} {payload : Payload α}
    (hfresh : g.node? g.nextNode = none) :
    (g.insertNode name payload).node? =
      update g.node? g.nextNode (some ⟨g.nextNode, name, payload, {}⟩) := by
  funext id
  by_cases hid : id = g.nextNode
  · subst hid
    rw [Function.update_self, node?, insertNode, List.find?_append]
    rw [node?] at hfresh
    simp [hfresh]
  · rw [Function.update_of_ne hid, node?, insertNode, List.find?_append]
    have hnew : (g.nextNode == id) = false := by simpa using Ne.symm hid
    simp [hnew, node?]

/-- Changing the node with one id changes what is found under that id. -/
theorem find_changed (f : Node α → Node α) (hf : ∀ n, (f n).id = n.id) (nodes : List (Node α))
    (id x : NodeId) :
    (nodes.map fun n => if n.id == id then f n else n).find? (fun n => n.id == x) =
      if x = id then (nodes.find? fun n => n.id == id).map f
      else nodes.find? fun n => n.id == x := by
  have hsame : (fun n => n.id == x) ∘ (fun n => if n.id == id then f n else n) =
      fun n : Node α => n.id == x := by
    funext n
    by_cases hn : n.id = id <;> simp [hn, hf]
  rw [List.find?_map, hsame]
  split
  · rename_i hx
    subst hx
    refine Option.map_congr fun n hn => if_pos ?_
    simpa using List.find?_some hn
  · rename_i hx
    refine (Option.map_congr fun n hn => if_neg ?_).trans Option.map_id'
    have hid : n.id = x := by simpa using List.find?_some hn
    simpa [hid] using hx

/-- What a node holds is no part of its id. -/
theorem ids_setPayload (g : Graph α) (id : NodeId) (payload : Payload α) :
    (g.setPayload id payload).ids = g.ids := by
  rw [ids, ids, setPayload, List.map_map]
  refine List.map_congr_left fun n _ => ?_
  rw [Function.comp_apply]
  split <;> rfl

theorem ids_setAttributes (g : Graph α) (id : NodeId) (attributes : Attributes) :
    (g.setAttributes id attributes).ids = g.ids := by
  rw [ids, ids, setAttributes, List.map_map]
  refine List.map_congr_left fun n _ => ?_
  rw [Function.comp_apply]
  split <;> rfl

/-- Another payload shows at its node only. -/
theorem node?_setPayload (g : Graph α) (id : NodeId) (payload : Payload α) :
    (g.setPayload id payload).node? =
      update g.node? id ((g.node? id).map fun n => { n with payload }) := by
  funext x
  rw [Function.update_apply]
  exact find_changed (fun n => { n with payload }) (fun _ => rfl) g.nodes id x

/-- Other attributes show at their node only. -/
theorem node?_setAttributes (g : Graph α) (id : NodeId) (attributes : Attributes) :
    (g.setAttributes id attributes).node? =
      update g.node? id ((g.node? id).map fun n => { n with attributes }) := by
  funext x
  rw [Function.update_apply]
  exact find_changed (fun n => { n with attributes }) (fun _ => rfl) g.nodes id x

/-- Erasing an edge keeps the others; if there is no such edge, it keeps all. -/
@[simp] theorem edges_eraseEdge (g : Graph α) (id : EdgeId) :
    (g.eraseEdge id).edges = g.edges.filter fun e => e.id != id := by
  rw [eraseEdge]
  split
  · rename_i hnone
    rw [edge?, List.find?_eq_none] at hnone
    exact (List.filter_eq_self.mpr fun e he => by simpa using hnone e he).symm
  · rfl

/-- Without an edge, nodes, layout, counters and names are as before. -/
@[simp] theorem nodes_eraseEdge (g : Graph α) (id : EdgeId) : (g.eraseEdge id).nodes = g.nodes := by
  rw [eraseEdge]
  split <;> rfl

@[simp] theorem layout_eraseEdge (g : Graph α) (id : EdgeId) :
    (g.eraseEdge id).layout = g.layout := by
  rw [eraseEdge]
  split <;> rfl

@[simp] theorem nextNode_eraseEdge (g : Graph α) (id : EdgeId) :
    (g.eraseEdge id).nextNode = g.nextNode := by
  rw [eraseEdge]
  split <;> rfl

@[simp] theorem nextEdge_eraseEdge (g : Graph α) (id : EdgeId) :
    (g.eraseEdge id).nextEdge = g.nextEdge := by
  rw [eraseEdge]
  split <;> rfl

@[simp] theorem names_eraseEdge (g : Graph α) (id : EdgeId) : (g.eraseEdge id).names = g.names := by
  rw [eraseEdge]
  split <;> rfl

/-- What erasing an edge keeps, erasing several keeps. -/
theorem eraseEdges_induction {P : Graph α → Prop} (hP : ∀ g id, P g → P (g.eraseEdge id))
    (ids : List EdgeId) {g : Graph α} (hg : P g) : P (g.eraseEdges ids) := by
  induction ids generalizing g with
  | nil => exact hg
  | cons id ids ih => exact ih (hP g id hg)

/-- What is left are the edges with other ids. -/
theorem edges_eraseEdges (g : Graph α) (ids : List EdgeId) :
    (g.eraseEdges ids).edges = g.edges.filter fun e => e.id ∉ ids := by
  induction ids generalizing g with
  | nil => simp [eraseEdges]
  | cons id ids ih =>
    show ((g.eraseEdge id).eraseEdges ids).edges = _
    rw [ih, edges_eraseEdge, List.filter_filter]
    refine List.filter_congr fun e _ => ?_
    by_cases hid : e.id = id <;> simp [hid]

/-- Without some edges, nodes, counters and names are as before. -/
@[simp] theorem nodes_eraseEdges (g : Graph α) (ids : List EdgeId) :
    (g.eraseEdges ids).nodes = g.nodes :=
  eraseEdges_induction (P := fun g' => g'.nodes = g.nodes)
    (fun g' id h => (nodes_eraseEdge g' id).trans h) ids rfl

@[simp] theorem nextNode_eraseEdges (g : Graph α) (ids : List EdgeId) :
    (g.eraseEdges ids).nextNode = g.nextNode :=
  eraseEdges_induction (P := fun g' => g'.nextNode = g.nextNode)
    (fun g' id h => (nextNode_eraseEdge g' id).trans h) ids rfl

@[simp] theorem nextEdge_eraseEdges (g : Graph α) (ids : List EdgeId) :
    (g.eraseEdges ids).nextEdge = g.nextEdge :=
  eraseEdges_induction (P := fun g' => g'.nextEdge = g.nextEdge)
    (fun g' id h => (nextEdge_eraseEdge g' id).trans h) ids rfl

@[simp] theorem names_eraseEdges (g : Graph α) (ids : List EdgeId) :
    (g.eraseEdges ids).names = g.names :=
  eraseEdges_induction (P := fun g' => g'.names = g.names)
    (fun g' id h => (names_eraseEdge g' id).trans h) ids rfl

/-- Taking a node keeps the others; if there is no such node, it keeps all. -/
@[simp] theorem nodes_takeNode (g : Graph α) (id : NodeId) :
    (g.takeNode id).nodes = g.nodes.filter fun n => n.id != id := by
  rw [takeNode]
  split
  · rename_i hnone
    rw [node?, List.find?_eq_none] at hnone
    exact (List.filter_eq_self.mpr fun n hn => by simpa using hnone n hn).symm
  · rfl

/-- Without a node, edges and counters are as before. -/
@[simp] theorem edges_takeNode (g : Graph α) (id : NodeId) : (g.takeNode id).edges = g.edges := by
  rw [takeNode]
  split <;> rfl

@[simp] theorem nextNode_takeNode (g : Graph α) (id : NodeId) :
    (g.takeNode id).nextNode = g.nextNode := by
  rw [takeNode]
  split <;> rfl

@[simp] theorem nextEdge_takeNode (g : Graph α) (id : NodeId) :
    (g.takeNode id).nextEdge = g.nextEdge := by
  rw [takeNode]
  split <;> rfl

/-- What is left are the nodes with other ids. -/
theorem nodes_eraseNode (g : Graph α) (id : NodeId) :
    (g.eraseNode id).nodes = g.nodes.filter fun n => n.id != id := by
  rw [eraseNode, nodes_takeNode, nodes_eraseEdges]

/-- The edges that are listed at the node go with it. -/
theorem edges_eraseNode (g : Graph α) (id : NodeId) :
    (g.eraseNode id).edges = g.edges.filter fun e => e.id ∉ g.edgeIdsAt id := by
  rw [eraseNode, edges_takeNode, edges_eraseEdges]

@[simp] theorem node?_eraseEdge (g : Graph α) (id : EdgeId) : (g.eraseEdge id).node? = g.node? := by
  funext x
  rw [node?, node?, nodes_eraseEdge]

@[simp] theorem kind?_eraseEdge (g : Graph α) (id : EdgeId) : (g.eraseEdge id).kind? = g.kind? := by
  funext x
  rw [kind?, kind?, node?_eraseEdge]

@[simp] theorem node?_eraseEdges (g : Graph α) (ids : List EdgeId) :
    (g.eraseEdges ids).node? = g.node? := by
  funext x
  rw [node?, node?, nodes_eraseEdges]

/-- A node that was taken away is not found, and all others are. -/
theorem node?_takeNode (g : Graph α) (id : NodeId) :
    (g.takeNode id).node? = update g.node? id none := by
  funext x
  rw [node?, nodes_takeNode, List.find?_filter]
  by_cases hx : x = id
  · subst hx
    rw [Function.update_self, List.find?_eq_none]
    simp
  · rw [Function.update_of_ne hx, node?]
    congr 1
    funext n
    by_cases hn : n.id = x
    · simp [hn, hx]
    · simp [hn]

/-- A node that was erased is not found, and all others are. -/
theorem node?_eraseNode (g : Graph α) (id : NodeId) :
    (g.eraseNode id).node? = update g.node? id none := by
  rw [eraseNode, node?_takeNode, node?_eraseEdges]

/-- The other nodes stay live. -/
theorem hasNode_eraseNode {id x : NodeId} :
    (g.eraseNode x).hasNode id = (id != x && g.hasNode id) := by
  rw [hasNode, node?_eraseNode, hasNode]
  by_cases hid : id = x
  · simp [hid]
  · simp [hid]

/-! ## Views under changes -/

section Views

variable {id : NodeId} {name : String} {o : Operator} {c : Content α}

/-- A view of nodes follows an update of the nodes. -/
theorem view_update {β : Type} {nodes nodes' : NodeId → Option (Node α)} {n : Option (Node α)}
    (view : Option (Node α) → β) (h : nodes' = update nodes id n) :
    (fun x => view (nodes' x)) = update (fun x => view (nodes x)) id (view n) := by
  rw [h]
  exact Function.comp_update view nodes id n

/-- A new node has the kind of its payload. -/
theorem kind?_insertNode {payload : Payload α} (hfresh : g.node? g.nextNode = none) :
    (g.insertNode name payload).kind? =
      update g.kind? g.nextNode (some (Node.mk g.nextNode name payload {}).kind) :=
  view_update (Option.map Node.kind) (node?_insertNode hfresh)

/-- A payload of the same kind changes no kind. -/
theorem kind?_setPayload {payload : Payload α} {k : Kind}
    (hk : ∀ n : Node α, ({ n with payload } : Node α).kind = k) (h : g.kind? id = some k) :
    (g.setPayload id payload).kind? = g.kind? := by
  refine (view_update (Option.map Node.kind) (node?_setPayload g id _)).trans ?_
  refine Function.update_eq_self_iff.mpr ?_
  obtain ⟨n, hn, _⟩ := Option.map_eq_some_iff.mp h
  simp only [hn, Option.map_some, hk]
  exact h.symm.trans (congrArg (Option.map Node.kind) hn)

/-- An operator stays one when its payload is replaced by an operator. -/
theorem kind?_setPayload_op (h : g.kind? id = some .op) :
    (g.setPayload id (.op o)).kind? = g.kind? :=
  kind?_setPayload (fun _ => rfl) h

/-- A data node stays one when its payload is replaced by content. -/
theorem kind?_setPayload_data (h : g.kind? id = some .data) :
    (g.setPayload id (.data c)).kind? = g.kind? :=
  kind?_setPayload (fun _ => rfl) h

/-- Attributes say nothing about the kind. -/
theorem kind?_setAttributes (g : Graph α) (id : NodeId) (attributes : Attributes) :
    (g.setAttributes id attributes).kind? = g.kind? := by
  refine (view_update (Option.map Node.kind) (node?_setAttributes g id attributes)).trans ?_
  refine Function.update_eq_self_iff.mpr ?_
  rw [Option.map_map]
  rfl

theorem kind?_takeNode (g : Graph α) (id : NodeId) :
    (g.takeNode id).kind? = update g.kind? id none :=
  view_update (Option.map Node.kind) (node?_takeNode g id)

/-- A node that was erased has no kind, and all others keep theirs. -/
theorem kind?_eraseNode (g : Graph α) (id : NodeId) :
    (g.eraseNode id).kind? = update g.kind? id none :=
  view_update (Option.map Node.kind) (node?_eraseNode g id)

end Views

/-- The edge into a port is one that the table lists at its node. -/
theorem mem_of_edgeInto? {p : InputPort} {e : Edge} (h : g.edgeInto? p = some e) :
    e ∈ g.inEdges p.node ∧ e.dstPort = p.index :=
  ⟨List.mem_of_find?_eq_some h, by simpa using List.find?_some h⟩

/-- A port is fed if the table lists an edge into it. -/
theorem feeding?_ne_none_of_mem {id : NodeId} {e : Edge} (h : e ∈ g.inEdges id) :
    g.feeding? ⟨id, e.dstPort⟩ ≠ none := by
  rw [feeding?, edgeInto?, Ne, Option.map_eq_none_iff, List.find?_eq_none]
  exact fun hnone => hnone e h (beq_self_eq_true _)

/-- The edge out of a port is one that the table lists at its node. -/
theorem mem_of_edgeOutOf? {p : OutputPort} {e : Edge} (h : g.edgeOutOf? p = some e) :
    e ∈ g.outEdges p.node ∧ e.srcPort = p.index :=
  ⟨List.mem_of_find?_eq_some h, by simpa using List.find?_some h⟩

/-- A port has a result if the table lists an edge out of it. -/
theorem result?_ne_none_of_mem {id : NodeId} {e : Edge} (h : e ∈ g.outEdges id) :
    g.result? ⟨id, e.srcPort⟩ ≠ none := by
  rw [result?, edgeOutOf?, Ne, Option.map_eq_none_iff, List.find?_eq_none]
  exact fun hnone => hnone e h (beq_self_eq_true _)

/-! ## Wires under changes -/

/-- The edges that are left have other ids. -/
theorem mem_edges_eraseEdge {id : EdgeId} {e : Edge} :
    e ∈ (g.eraseEdge id).edges ↔ e ∈ g.edges ∧ e.id ≠ id := by
  rw [edges_eraseEdge, List.mem_filter, bne_iff_ne]

/-- A new edge adds its wire and no other. -/
theorem wired_insertEdge {w v : Wire} : (g.insertEdge w).Wired v ↔ g.Wired v ∨ v = w := by
  simp only [Wired, insertEdge, List.mem_append, List.mem_singleton]
  constructor
  · rintro ⟨e, he | rfl, rfl⟩
    · exact Or.inl ⟨e, he, rfl⟩
    · exact Or.inr rfl
  · rintro (⟨e, he, rfl⟩ | rfl)
    · exact ⟨e, Or.inl he, rfl⟩
    · exact ⟨⟨v, g.nextEdge⟩, Or.inr rfl, rfl⟩

/-- A new edge joins its ends and nothing else. -/
theorem joins_insertEdge {w : Wire} {a b : NodeId} :
    (g.insertEdge w).Joins a b ↔ g.Joins a b ∨ (a = w.src ∧ b = w.dst) := by
  simp only [joins_iff, wired_insertEdge]
  constructor
  · rintro ⟨i, j, h | rfl⟩
    · exact Or.inl ⟨i, j, h⟩
    · exact Or.inr ⟨rfl, rfl⟩
  · rintro (⟨i, j, h⟩ | ⟨rfl, rfl⟩)
    · exact ⟨i, j, Or.inl h⟩
    · exact ⟨w.srcPort, w.dstPort, Or.inr rfl⟩

end Graph

end TensorGraph
