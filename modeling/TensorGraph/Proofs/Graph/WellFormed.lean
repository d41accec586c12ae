/-
  Well-formed graphs.

  `WellFormed` bundles what every edit keeps: ids grow along the lists and stay below the counters,
  edges join live nodes of different kinds and have port zero at their data side, no two edges end
  at one port or start at one output port of an operator, and there is no cycle.  The tables list
  the edges at both ends, and an order that is remembered is the one that would be computed now.

  In a well-formed graph the queries, which read the tables, are exact readings of `Wired`, and the
  topological order lists every node once, the source of an edge before its end.  The position in
  that order is a `Ranked` function; a ranking refutes a path by comparing two numbers, which is how
  rules show that their edits close no cycle.
-/
import TensorGraph.Proofs.Countdown
import TensorGraph.Proofs.Graph.Tables

namespace TensorGraph

open Relation
open Function (update)

namespace Graph

variable {α : Type} {g : Graph α}

/-- The wire leads from an operator to data or from data to an operator, and has port zero at its
data side. -/
def Alternates (g : Graph α) (w : Wire) : Prop :=
  (g.kind? w.src = some .op ∧ g.kind? w.dst = some .data ∧ w.dstPort = 0) ∨
    (g.kind? w.src = some .data ∧ g.kind? w.dst = some .op ∧ w.srcPort = 0)

/-- A wire from data ends at an operator. -/
theorem Alternates.op_of_data {w : Wire} (h : g.Alternates w) (hsrc : g.kind? w.src = some .data) :
    g.kind? w.dst = some .op := by
  rcases h with ⟨hop, _⟩ | ⟨_, hdst, _⟩
  · exact absurd rfl (op_ne_data hop hsrc)
  · exact hdst

/-- A wire from an operator ends at data. -/
theorem Alternates.data_of_op {w : Wire} (h : g.Alternates w) (hsrc : g.kind? w.src = some .op) :
    g.kind? w.dst = some .data := by
  rcases h with ⟨_, hdst, _⟩ | ⟨hdata, _⟩
  · exact hdst
  · exact absurd rfl (op_ne_data hsrc hdata)

/-- The invariant of graphs. -/
structure WellFormed (g : Graph α) : Prop where
  nodes_increasing : (g.nodes.map (·.id)).Pairwise (· < ·)
  nodes_below : ∀ n ∈ g.nodes, n.id < g.nextNode
  edges_increasing : (g.edges.map (·.id)).Pairwise (· < ·)
  edges_below : ∀ e ∈ g.edges, e.id < g.nextEdge
  /-- Edges join live nodes of different kinds. -/
  alternates : ∀ e ∈ g.edges, g.Alternates e.toWire
  /-- No two edges end at one port; so data has one producer at most. -/
  inputs_distinct : ∀ e ∈ g.edges, ∀ f ∈ g.edges,
    e.dst = f.dst → e.dstPort = f.dstPort → e = f
  /-- No two edges start at one output port of an operator. -/
  outputs_distinct : ∀ e ∈ g.edges, ∀ f ∈ g.edges, g.kind? e.src = some .op →
    e.src = f.src → e.srcPort = f.srcPort → e = f
  acyclic : g.Acyclic
  incoming : g.incoming = tableOf (·.dst) g.nextNode g.edges
  outgoing : g.outgoing = tableOf (·.src) g.nextNode g.edges
  /-- What is remembered is not out of date. -/
  current : ∀ order, g.knownOrder = some order → order = g.computeOrder

/-- A number for each node that grows along every wire. -/
def Ranked (g : Graph α) (rank : NodeId → Nat) : Prop :=
  ∀ w, g.Wired w → rank w.src < rank w.dst

/-- The number grows along an edge. -/
theorem Ranked.lt_of_joins {rank : NodeId → Nat} (h : g.Ranked rank) {a b : NodeId}
    (hjoins : g.Joins a b) : rank a < rank b := by
  obtain ⟨i, j, hw⟩ := joins_iff.mp hjoins
  exact h _ hw

/-- The number never falls along a path. -/
theorem Ranked.le_of_path {rank : NodeId → Nat} (h : g.Ranked rank) {a b : NodeId}
    (hpath : ReflTransGen g.Joins a b) : rank a ≤ rank b := by
  induction hpath with
  | refl => exact Nat.le_refl _
  | tail _ hjoins ih => exact Nat.le_trans ih (Nat.le_of_lt (h.lt_of_joins hjoins))

/-! ## Nodes and wires -/

/-- Under distinct ids, what is found under an id is the node with this id. -/
theorem node?_eq_some_iff_of_nodup (hids : g.ids.Nodup) {id : NodeId} {n : Node α} :
    g.node? id = some n ↔ n ∈ g.nodes ∧ n.id = id :=
  find?_key_eq_some_iff hids

namespace WellFormed

variable (hg : g.WellFormed)
include hg

/-- Ids are not repeated. -/
theorem ids_nodup : g.ids.Nodup :=
  hg.nodes_increasing.imp Nat.ne_of_lt

theorem edge_ids_nodup : (g.edges.map (·.id)).Nodup :=
  hg.edges_increasing.imp Nat.ne_of_lt

theorem node?_eq_some_iff {id : NodeId} {n : Node α} :
    g.node? id = some n ↔ n ∈ g.nodes ∧ n.id = id :=
  node?_eq_some_iff_of_nodup hg.ids_nodup

/-- The ids are those of the live nodes. -/
theorem mem_ids_iff {id : NodeId} : id ∈ g.ids ↔ g.hasNode id = true := by
  rw [ids, List.mem_map, hasNode, Option.isSome_iff_exists]
  constructor
  · rintro ⟨n, hn, rfl⟩
    exact ⟨n, hg.node?_eq_some_iff.mpr ⟨hn, rfl⟩⟩
  · rintro ⟨n, h⟩
    exact ⟨n, node?_mem h, node?_id h⟩

/-- The next id is not in use. -/
theorem node?_nextNode : g.node? g.nextNode = none := by
  rw [node?, List.find?_eq_none]
  intro n hn
  simpa using Nat.ne_of_lt (hg.nodes_below n hn)

/-- The id of a live node has been given away. -/
theorem ne_nextNode {id : NodeId} (h : g.node? id ≠ none) : id ≠ g.nextNode := by
  rintro rfl
  exact h hg.node?_nextNode

theorem wired_alternates {w : Wire} (hw : g.Wired w) : g.Alternates w := by
  obtain ⟨e, he, rfl⟩ := hw
  exact hg.alternates e he

/-- Two wires into one port are the same. -/
theorem eq_of_input {w v : Wire} (hw : g.Wired w) (hv : g.Wired v) (hdst : w.dst = v.dst)
    (hport : w.dstPort = v.dstPort) : w = v := by
  obtain ⟨e, he, rfl⟩ := hw
  obtain ⟨f, hf, rfl⟩ := hv
  rw [hg.inputs_distinct e he f hf hdst hport]

/-- Two wires out of one port of an operator are the same. -/
theorem eq_of_output {w v : Wire} (hw : g.Wired w) (hv : g.Wired v)
    (hop : g.kind? w.src = some .op) (hsrc : w.src = v.src) (hport : w.srcPort = v.srcPort) :
    w = v := by
  obtain ⟨e, he, rfl⟩ := hw
  obtain ⟨f, hf, rfl⟩ := hv
  rw [hg.outputs_distinct e he f hf hop hsrc hport]

/-- A wire from an operator ends at data, at port zero. -/
theorem wired_of_op {w : Wire} (hw : g.Wired w) (hop : g.kind? w.src = some .op) :
    g.kind? w.dst = some .data ∧ w.dstPort = 0 := by
  rcases hg.wired_alternates hw with ⟨_, hdst⟩ | ⟨hsrc, _⟩
  · exact hdst
  · rw [hop] at hsrc
    cases hsrc

/-- A wire from data ends at an operator and starts at port zero. -/
theorem wired_of_data {w : Wire} (hw : g.Wired w) (hdata : g.kind? w.src = some .data) :
    g.kind? w.dst = some .op ∧ w.srcPort = 0 := by
  rcases hg.wired_alternates hw with ⟨hsrc, _⟩ | ⟨_, hdst⟩
  · rw [hdata] at hsrc
    cases hsrc
  · exact hdst

/-- A wire to an operator starts at data, at port zero. -/
theorem wired_to_op {w : Wire} (hw : g.Wired w) (hop : g.kind? w.dst = some .op) :
    g.kind? w.src = some .data ∧ w.srcPort = 0 := by
  rcases hg.wired_alternates hw with ⟨_, hdst, _⟩ | ⟨hsrc, _, hport⟩
  · rw [hop] at hdst
    cases hdst
  · exact ⟨hsrc, hport⟩

/-- A wire to data starts at an operator and ends at port zero. -/
theorem wired_to_data {w : Wire} (hw : g.Wired w) (hdata : g.kind? w.dst = some .data) :
    g.kind? w.src = some .op ∧ w.dstPort = 0 := by
  rcases hg.wired_alternates hw with ⟨hsrc, _, hport⟩ | ⟨_, hdst, _⟩
  · exact ⟨hsrc, hport⟩
  · rw [hdata] at hdst
    cases hdst

/-- What is behind an operator is data. -/
theorem data_of_joins {a b : NodeId} (h : g.Joins a b) (hop : g.kind? a = some .op) :
    g.kind? b = some .data := by
  obtain ⟨i, j, hw⟩ := joins_iff.mp h
  exact (hg.wired_of_op hw hop).1

/-- What is behind data is an operator. -/
theorem op_of_joins {a b : NodeId} (h : g.Joins a b) (hdata : g.kind? a = some .data) :
    g.kind? b = some .op := by
  obtain ⟨i, j, hw⟩ := joins_iff.mp h
  exact (hg.wired_of_data hw hdata).1

/-- Data has at most one producer. -/
theorem eq_of_producer {w v : Wire} (hw : g.Wired w) (hv : g.Wired v)
    (hdata : g.kind? w.dst = some .data) (hdst : w.dst = v.dst) : w = v := by
  have hport := (hg.wired_to_data hw hdata).2
  have hport' := (hg.wired_to_data hv (hdst ▸ hdata)).2
  exact hg.eq_of_input hw hv hdst (hport.trans hport'.symm)

/-- Both ends of a wire are live. -/
theorem wired_live {w : Wire} (hw : g.Wired w) :
    g.node? w.src ≠ none ∧ g.node? w.dst ≠ none := by
  rw [ne_eq, ne_eq, ← kind?_eq_none, ← kind?_eq_none]
  rcases hg.wired_alternates hw with ⟨hsrc, hdst, _⟩ | ⟨hsrc, hdst, _⟩ <;>
    simp [hsrc, hdst]

end WellFormed

/-! ## Tables -/

namespace WellFormed

variable (hg : g.WellFormed)
include hg

/-- What is found under the id of an edge is the edge with this id. -/
theorem edge?_eq_some_iff {id : EdgeId} {e : Edge} :
    g.edge? id = some e ↔ e ∈ g.edges ∧ e.id = id :=
  find?_key_eq_some_iff hg.edge_ids_nodup

/-- A live node has an id that was given away. -/
theorem below_of_kind? {id : NodeId} {k : Kind} (h : g.kind? id = some k) : id < g.nextNode := by
  obtain ⟨n, hn, -⟩ := Option.map_eq_some_iff.mp h
  rw [← node?_id hn]
  exact hg.nodes_below n (node?_mem hn)

/-- Both ends of an edge have ids that were given away. -/
theorem ends_below {e : Edge} (he : e ∈ g.edges) : e.src < g.nextNode ∧ e.dst < g.nextNode := by
  rcases hg.alternates e he with ⟨hsrc, hdst, _⟩ | ⟨hsrc, hdst, _⟩ <;>
    exact ⟨hg.below_of_kind? hsrc, hg.below_of_kind? hdst⟩

/-- The table lists the edges that end at a node. -/
theorem inEdgeIds_eq (id : NodeId) :
    g.inEdgeIds id = (g.edges.filter fun e => e.dst == id).map (·.id) := by
  rw [inEdgeIds, hg.incoming]
  exact getElem?_tableOf (fun e he => (hg.ends_below he).2) id

/-- The table lists the edges that start at a node. -/
theorem outEdgeIds_eq (id : NodeId) :
    g.outEdgeIds id = (g.edges.filter fun e => e.src == id).map (·.id) := by
  rw [outEdgeIds, hg.outgoing]
  exact getElem?_tableOf (fun e he => (hg.ends_below he).1) id

/-- Looking up edges by their ids gives them back. -/
theorem filterMap_edge? {edges : List Edge} (h : ∀ e ∈ edges, e ∈ g.edges) :
    (edges.map (·.id)).filterMap g.edge? = edges := by
  rw [List.filterMap_map]
  refine (List.filterMap_congr fun e he => ?_).trans List.filterMap_some
  exact hg.edge?_eq_some_iff.mpr ⟨h e he, rfl⟩

/-- The table gives the edges that end at a node. -/
theorem inEdges_eq (id : NodeId) : g.inEdges id = g.edges.filter fun e => e.dst == id := by
  rw [inEdges, hg.inEdgeIds_eq]
  exact hg.filterMap_edge? fun e he => (List.mem_filter.mp he).1

/-- The table gives the edges that start at a node. -/
theorem outEdges_eq (id : NodeId) : g.outEdges id = g.edges.filter fun e => e.src == id := by
  rw [outEdges, hg.outEdgeIds_eq]
  exact hg.filterMap_edge? fun e he => (List.mem_filter.mp he).1

theorem mem_inEdges {id : NodeId} {e : Edge} : e ∈ g.inEdges id ↔ e ∈ g.edges ∧ e.dst = id := by
  rw [hg.inEdges_eq, List.mem_filter, beq_iff_eq]

theorem mem_outEdges {id : NodeId} {e : Edge} : e ∈ g.outEdges id ↔ e ∈ g.edges ∧ e.src = id := by
  rw [hg.outEdges_eq, List.mem_filter, beq_iff_eq]

/-! ## Queries -/

/-- No edge is found at an input port if no wire ends there. -/
theorem edgeInto?_eq_none_iff {p : InputPort} :
    g.edgeInto? p = none ↔ ∀ w, g.Wired w → ¬ (w.dst = p.node ∧ w.dstPort = p.index) := by
  rw [edgeInto?, List.find?_eq_none]
  simp only [hg.mem_inEdges, beq_iff_eq]
  constructor
  · rintro h w ⟨e, he, rfl⟩ ⟨hdst, hport⟩
    exact h e ⟨he, hdst⟩ hport
  · rintro h e ⟨he, hdst⟩ hport
    exact h e.toWire ⟨e, he, rfl⟩ ⟨hdst, hport⟩

/-- No edge is found at an output port if no wire starts there. -/
theorem edgeOutOf?_eq_none_iff {p : OutputPort} :
    g.edgeOutOf? p = none ↔ ∀ w, g.Wired w → ¬ (w.src = p.node ∧ w.srcPort = p.index) := by
  rw [edgeOutOf?, List.find?_eq_none]
  simp only [hg.mem_outEdges, beq_iff_eq]
  constructor
  · rintro h w ⟨e, he, rfl⟩ ⟨hsrc, hport⟩
    exact h e ⟨he, hsrc⟩ hport
  · rintro h e ⟨he, hsrc⟩ hport
    exact h e.toWire ⟨e, he, rfl⟩ ⟨hsrc, hport⟩

/-- No producing edge is found if no wire ends at the data. -/
theorem producingEdge?_eq_none_iff {data : NodeId} :
    g.producingEdge? data = none ↔ ∀ w, g.Wired w → w.dst ≠ data := by
  rw [producingEdge?, List.head?_eq_none_iff, List.eq_nil_iff_forall_not_mem]
  simp only [hg.mem_inEdges, not_and]
  constructor
  · rintro h w ⟨e, he, rfl⟩
    exact h e he
  · intro h e he
    exact h e.toWire ⟨e, he, rfl⟩

/-- Data has no producer if no wire ends at it. -/
theorem producer?_eq_none_iff {data : NodeId} :
    g.producer? data = none ↔ ∀ w, g.Wired w → w.dst ≠ data := by
  rw [producer?, Option.map_eq_none_iff, hg.producingEdge?_eq_none_iff]

/-- The edge found at an input port is live and ends there. -/
theorem edgeInto?_spec {p : InputPort} {e : Edge} (h : g.edgeInto? p = some e) :
    e ∈ g.edges ∧ e.dst = p.node ∧ e.dstPort = p.index := by
  obtain ⟨he, hdst⟩ := hg.mem_inEdges.mp (List.mem_of_find?_eq_some h)
  exact ⟨he, hdst, by simpa using List.find?_some h⟩

/-- The edge found at an output port is live and starts there. -/
theorem edgeOutOf?_spec {p : OutputPort} {e : Edge} (h : g.edgeOutOf? p = some e) :
    e ∈ g.edges ∧ e.src = p.node ∧ e.srcPort = p.index := by
  obtain ⟨hmem, hport⟩ := mem_of_edgeOutOf? h
  obtain ⟨he, hsrc⟩ := hg.mem_outEdges.mp hmem
  exact ⟨he, hsrc, hport⟩

theorem producingEdge?_spec {data : NodeId} {e : Edge} (h : g.producingEdge? data = some e) :
    e ∈ g.edges ∧ e.dst = data :=
  hg.mem_inEdges.mp (List.mem_of_head? h)

/-- The readers of data are the ports at the ends of its wires. -/
theorem mem_readers {data : NodeId} {p : InputPort} :
    p ∈ g.readers data ↔ ∃ i, g.Wired ⟨data, i, p.node, p.index⟩ := by
  rw [readers, mem_sorted, List.mem_map]
  simp only [hg.mem_outEdges]
  constructor
  · rintro ⟨e, ⟨he, rfl⟩, rfl⟩
    exact ⟨e.srcPort, e, he, rfl⟩
  · rintro ⟨i, e, he, hw⟩
    refine ⟨e, ⟨he, congrArg Wire.src hw⟩, ?_⟩
    rw [congrArg Wire.dst hw, congrArg Wire.dstPort hw]

/-- Data without readers is joined to nothing. -/
theorem readers_isEmpty_iff {data : NodeId} :
    (g.readers data).isEmpty = true ↔ ∀ op, ¬ g.Joins data op := by
  rw [List.isEmpty_iff, List.eq_nil_iff_forall_not_mem]
  constructor
  · intro h op hjoins
    obtain ⟨i, j, hw⟩ := joins_iff.mp hjoins
    exact h ⟨op, j⟩ (hg.mem_readers.mpr ⟨i, hw⟩)
  · intro h p hp
    obtain ⟨i, hw⟩ := hg.mem_readers.mp hp
    exact h p.node hw.joins

/-- The successors of a node are what it is joined to. -/
theorem mem_successors {id x : NodeId} : x ∈ g.successors id ↔ g.Joins id x := by
  rw [successors, List.mem_map]
  simp only [mem_sorted, hg.mem_outEdges]
  constructor
  · rintro ⟨e, ⟨he, hsrc⟩, hdst⟩
    exact ⟨e, he, hsrc, hdst⟩
  · rintro ⟨e, he, hsrc, hdst⟩
    exact ⟨e, ⟨he, hsrc⟩, hdst⟩

/-- The predecessors of a node are what is joined to it. -/
theorem mem_predecessors {id x : NodeId} : x ∈ g.predecessors id ↔ g.Joins x id := by
  rw [predecessors, List.mem_map]
  simp only [mem_sorted, hg.mem_inEdges]
  constructor
  · rintro ⟨e, ⟨he, hdst⟩, hsrc⟩
    exact ⟨e, he, hsrc, hdst⟩
  · rintro ⟨e, he, hsrc, hdst⟩
    exact ⟨e, ⟨he, hdst⟩, hsrc⟩

/-- Nothing is listed at a node exactly if no wire starts there. -/
theorem outEdgeIds_isEmpty_iff {id : NodeId} :
    (g.outEdgeIds id).isEmpty = true ↔ ∀ w, g.Wired w → w.src ≠ id := by
  rw [hg.outEdgeIds_eq, List.isEmpty_iff, List.map_eq_nil_iff, List.filter_eq_nil_iff]
  simp only [beq_iff_eq]
  constructor
  · rintro h w ⟨e, he, rfl⟩
    exact h e he
  · intro h e he
    exact h e.toWire ⟨e, he, rfl⟩

/-- The heads of a node are the ends of the edges out of it. -/
theorem mem_heads {a b : NodeId} : b ∈ g.heads a ↔ g.Joins a b := by
  rw [heads, List.mem_map]
  simp only [hg.mem_outEdges]
  constructor
  · rintro ⟨e, ⟨he, hsrc⟩, hdst⟩
    exact ⟨e, he, hsrc, hdst⟩
  · rintro ⟨e, he, hsrc, hdst⟩
    exact ⟨e, ⟨he, hsrc⟩, hdst⟩

/-- The path test is exact. -/
theorem hasPath_iff (a b : NodeId) : g.hasPath a b = true ↔ ReflTransGen g.Joins a b :=
  hasPath_iff_of_heads (fun _ _ => hg.mem_heads) a b

/-- The search finds no path if there is none. -/
theorem hasPath_eq_false_iff (a b : NodeId) :
    g.hasPath a b = false ↔ ¬ ReflTransGen g.Joins a b := by
  rw [← hg.hasPath_iff, Bool.not_eq_true]

/-- Edits spare the search where the two nodes are one. -/
theorem same_or_hasPath_iff {a b : NodeId} {p : Prop} [Decidable p] (hsame : p → a = b) :
    (decide p || g.hasPath a b) = true ↔ ReflTransGen g.Joins a b := by
  rw [Bool.or_eq_true, decide_eq_true_eq, hg.hasPath_iff]
  refine or_iff_right_of_imp fun hp => ?_
  rw [hsame hp]

end WellFormed

/-- A ranking refutes paths from higher to lower nodes. -/
theorem Ranked.no_path (hg : g.WellFormed) {rank : NodeId → Nat} (h : g.Ranked rank) {a b : NodeId}
    (hlt : rank b < rank a) : g.hasPath a b = false := by
  rw [hg.hasPath_eq_false_iff]
  intro hpath
  exact absurd (h.le_of_path hpath) (Nat.not_le.mpr hlt)

/-- The only reader of a data node with one reader. -/
theorem eq_of_single_reader {data : NodeId} (h : (g.readers data).length = 1) {p q : InputPort}
    (hp : p ∈ g.readers data) (hq : q ∈ g.readers data) : p = q := by
  obtain ⟨r, hr⟩ := List.length_eq_one_iff.mp h
  rw [hr, List.mem_singleton] at hp hq
  rw [hp, hq]

namespace WellFormed

variable (hg : g.WellFormed)
include hg

/-- Only operators read data. -/
theorem readers_op {data : NodeId} (hdata : g.kind? data = some .data) :
    ∀ p ∈ g.readers data, g.kind? p.node = some .op := by
  intro p hp
  obtain ⟨i, hw⟩ := hg.mem_readers.mp hp
  exact (hg.wired_of_data hw hdata).1

/-- The edge found at an input port is the one that ends there. -/
theorem edgeInto?_eq_some_iff {p : InputPort} {e : Edge} :
    g.edgeInto? p = some e ↔ e ∈ g.edges ∧ e.dst = p.node ∧ e.dstPort = p.index := by
  refine ⟨hg.edgeInto?_spec, fun ⟨he, hdst, hport⟩ => ?_⟩
  cases hf : g.edgeInto? p with
  | none => exact absurd ⟨hdst, hport⟩ (hg.edgeInto?_eq_none_iff.mp hf e.toWire ⟨e, he, rfl⟩)
  | some f =>
    obtain ⟨hfmem, hfdst, hfport⟩ := hg.edgeInto?_spec hf
    rw [hg.inputs_distinct f hfmem e he (hfdst.trans hdst.symm) (hfport.trans hport.symm)]

/-- The edge found at an output port of an operator is the one that starts there. -/
theorem edgeOutOf?_eq_some_iff {p : OutputPort} (hop : g.kind? p.node = some .op) {e : Edge} :
    g.edgeOutOf? p = some e ↔ e ∈ g.edges ∧ e.src = p.node ∧ e.srcPort = p.index := by
  refine ⟨hg.edgeOutOf?_spec, fun ⟨he, hsrc, hport⟩ => ?_⟩
  cases hf : g.edgeOutOf? p with
  | none => exact absurd ⟨hsrc, hport⟩ (hg.edgeOutOf?_eq_none_iff.mp hf e.toWire ⟨e, he, rfl⟩)
  | some f =>
    obtain ⟨hfmem, hfsrc, hfport⟩ := hg.edgeOutOf?_spec hf
    rw [hg.outputs_distinct f hfmem e he (hfsrc ▸ hop) (hfsrc.trans hsrc.symm)
      (hfport.trans hport.symm)]

/-- The node at the other end of the wire into a port. -/
theorem feeding?_eq_some_iff {p : InputPort} {data : NodeId} :
    g.feeding? p = some data ↔ ∃ i, g.Wired ⟨data, i, p.node, p.index⟩ := by
  rw [feeding?, Option.map_eq_some_iff]
  constructor
  · rintro ⟨e, he, rfl⟩
    obtain ⟨hmem, hdst, hport⟩ := hg.edgeInto?_spec he
    refine ⟨e.srcPort, e, hmem, ?_⟩
    rw [← hdst, ← hport]
  · rintro ⟨i, e, he, hw⟩
    exact ⟨e, hg.edgeInto?_eq_some_iff.mpr
      ⟨he, congrArg Wire.dst hw, congrArg Wire.dstPort hw⟩, congrArg Wire.src hw⟩

/-- The data node that feeds an input port of an operator. -/
theorem feeding?_op_iff {p : InputPort} (hop : g.kind? p.node = some .op) {data : NodeId} :
    g.feeding? p = some data ↔ g.Wired ⟨data, 0, p.node, p.index⟩ := by
  rw [hg.feeding?_eq_some_iff]
  constructor
  · rintro ⟨i, hw⟩
    have hport : i = 0 := (hg.wired_to_op hw hop).2
    rwa [hport] at hw
  · intro hw
    exact ⟨0, hw⟩

/-- The data node at an output port of an operator. -/
theorem result?_eq_some_iff {p : OutputPort} (hop : g.kind? p.node = some .op) {data : NodeId} :
    g.result? p = some data ↔ g.Wired ⟨p.node, p.index, data, 0⟩ := by
  rw [result?, Option.map_eq_some_iff]
  constructor
  · rintro ⟨e, he, rfl⟩
    obtain ⟨hmem, hsrc, hport⟩ := hg.edgeOutOf?_spec he
    have hzero : e.dstPort = 0 := (hg.wired_of_op ⟨e, hmem, rfl⟩ (hsrc ▸ hop)).2
    refine ⟨e, hmem, ?_⟩
    rw [← hsrc, ← hport, ← hzero]
  · rintro ⟨e, he, hw⟩
    exact ⟨e, (hg.edgeOutOf?_eq_some_iff hop).mpr
      ⟨he, congrArg Wire.src hw, congrArg Wire.srcPort hw⟩, congrArg Wire.dst hw⟩

end WellFormed

/-! ## The topological order -/

/-- What each node waits for in the topological order: the nodes in front of it, once for each edge.
-/
def waitingNodes (g : Graph α) : List (Waiting NodeId) :=
  g.ids.map fun id => ⟨id, (g.inEdges id).map (·.src)⟩

/-- Every live node waits, for its predecessors. -/
theorem waitingNodes_items (g : Graph α) : g.waitingNodes.map (·.item) = g.ids := by
  rw [waitingNodes, List.map_map]
  exact List.map_id _

theorem mem_waitingNodes {w : Waiting NodeId} :
    w ∈ g.waitingNodes ↔ w.item ∈ g.ids ∧ w = ⟨w.item, (g.inEdges w.item).map (·.src)⟩ := by
  rw [waitingNodes, List.mem_map]
  constructor
  · rintro ⟨id, hid, rfl⟩
    exact ⟨hid, rfl⟩
  · rintro ⟨hid, hw⟩
    exact ⟨w.item, hid, hw.symm⟩

namespace WellFormed

variable (hg : g.WellFormed)
include hg

/-- The sources of the edges that end at a node are what is joined to it. -/
theorem mem_inEdges_src {id x : NodeId} : x ∈ (g.inEdges id).map (·.src) ↔ g.Joins x id := by
  simp only [List.mem_map, hg.mem_inEdges]
  constructor
  · rintro ⟨e, ⟨he, hdst⟩, hsrc⟩
    exact ⟨e, he, hsrc, hdst⟩
  · rintro ⟨e, he, hsrc, hdst⟩
    exact ⟨e, ⟨he, hdst⟩, hsrc⟩

theorem waitingNodes_increasing : (g.waitingNodes.map (·.item)).Pairwise (· < ·) := by
  rw [waitingNodes_items]
  exact hg.nodes_increasing

theorem waitingNodes_nodup : (g.waitingNodes.map (·.item)).Nodup := by
  rw [waitingNodes_items]
  exact hg.ids_nodup

/-- The edges from one node to another are counted at either of them. -/
theorem count_heads (a b : NodeId) :
    (g.heads a).count b = ((g.inEdges b).map (·.src)).count a := by
  rw [heads, hg.outEdges_eq, hg.inEdges_eq, List.count, List.count, List.countP_map, List.countP_map,
    List.countP_filter, List.countP_filter]
  refine List.countP_congr fun e _ => ?_
  simp [and_comm]

/-- Counting down the edges in front of the nodes gives their least order. -/
theorem computeOrder_eq : g.computeOrder = (leastOrder g.waitingNodes).1 := by
  have hcounts : (g.ids.map fun id => (id, (g.inEdgeIds id).length)) =
      g.waitingNodes.map fun w => (w.item, w.waitsFor.length) := by
    rw [waitingNodes, List.map_map]
    refine List.map_congr_left fun id _ => ?_
    rw [Function.comp_apply, hg.inEdgeIds_eq, hg.inEdges_eq, List.length_map, List.length_map]
  have hmatched : Countdown.Matched g.heads g.waitingNodes := by
    intro v hv w hw
    rw [(mem_waitingNodes.mp hw).2]
    exact hg.count_heads v.item w.item
  rw [computeOrder, hcounts]
  exact (countdown_eq_leastOrder hg.waitingNodes_increasing hmatched).1

/-- The order is the same whether it was remembered or not. -/
theorem topologicalOrder_eq_computeOrder : g.topologicalOrder = g.computeOrder := by
  rw [topologicalOrder]
  cases horder : g.knownOrder with
  | none => rfl
  | some order => exact hg.current order horder

/-- The topological order is the least order of the waiting nodes. -/
theorem topologicalOrder_eq : g.topologicalOrder = (leastOrder g.waitingNodes).1 :=
  hg.topologicalOrder_eq_computeOrder.trans hg.computeOrder_eq

/-- Both ends of an edge are live. -/
theorem joins_mem_ids {a b : NodeId} (h : g.Joins a b) : a ∈ g.ids ∧ b ∈ g.ids := by
  obtain ⟨i, j, hw⟩ := joins_iff.mp h
  obtain ⟨ha, hb⟩ := hg.wired_live hw
  rw [hg.mem_ids_iff, hg.mem_ids_iff, hasNode, hasNode]
  exact ⟨Option.isSome_iff_ne_none.mpr ha, Option.isSome_iff_ne_none.mpr hb⟩

/-- The topological order lists every node once. -/
theorem topologicalOrder_perm : g.topologicalOrder.Perm g.ids := by
  have hrest : (leastOrder g.waitingNodes).2 = [] := by
    refine leastOrder_complete hg.waitingNodes_nodup ?_ (r := g.Joins) ?_ hg.acyclic
    · intro w hw d hd
      rw [(mem_waitingNodes.mp hw).2, hg.mem_inEdges_src] at hd
      rw [waitingNodes_items]
      exact (hg.joins_mem_ids hd).1
    · intro w hw d hd
      rwa [(mem_waitingNodes.mp hw).2, hg.mem_inEdges_src] at hd
  have hperm := leastOrder_perm hg.waitingNodes_nodup hrest
  rwa [waitingNodes_items, ← hg.topologicalOrder_eq] at hperm

/-- The topological order has exactly the live nodes. -/
theorem mem_topologicalOrder {id : NodeId} :
    id ∈ g.topologicalOrder ↔ g.hasNode id = true := by
  rw [hg.topologicalOrder_perm.mem_iff, hg.mem_ids_iff]

/-- The position in the topological order grows along every wire. -/
theorem ranked_topologicalOrder : g.Ranked fun id => g.topologicalOrder.idxOf id := by
  intro w hw
  have hlive := (hg.joins_mem_ids hw.joins).2
  have hwait : (⟨w.dst, (g.inEdges w.dst).map (·.src)⟩ : Waiting NodeId) ∈ g.waitingNodes :=
    mem_waitingNodes.mpr ⟨hlive, rfl⟩
  have hlisted := hg.topologicalOrder_perm.mem_iff.mpr hlive
  rw [hg.topologicalOrder_eq] at hlisted ⊢
  exact (emitSteps_after g.waitingNodes.length g.waitingNodes hg.waitingNodes_nodup _ hwait hlisted
    w.src (hg.mem_inEdges_src.mpr hw.joins)).2

end WellFormed

end Graph

end TensorGraph
