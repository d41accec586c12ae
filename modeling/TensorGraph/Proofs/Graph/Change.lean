/-
  Changes that keep a graph well-formed.

  Changes of nodes, and changes that only take away edges, keep the invariant as long as the ends of
  the remaining edges keep their kinds (`WellFormed.restrict`).  A new edge keeps it if the graph
  `Admits` its wire: both ports are free, the kinds alternate and no path leads back.  Moving the
  readers of one data node to another rests on one observation: a path to the new data node that
  enters it for the first time cannot use an edge that starts there, so it is a path of the graph
  before the move (`path_to_source`).

  The tables follow the edges, write by write, and the remembered order is either emptied or was
  computed from what the change leaves as it is (`computeOrder_congr`).
-/
import TensorGraph.Proofs.Graph.WellFormed

namespace TensorGraph

open Relation
open Function (update)

namespace Graph

variable {α : Type} {g : Graph α}

/-- A wire that can be added to the graph. -/
structure Admits (g : Graph α) (w : Wire) : Prop where
  alternates : g.Alternates w
  input_free : ∀ v, g.Wired v → ¬ (v.dst = w.dst ∧ v.dstPort = w.dstPort)
  output_free : g.kind? w.src = some .op →
    ∀ v, g.Wired v → ¬ (v.src = w.src ∧ v.srcPort = w.srcPort)
  no_path_back : ¬ ReflTransGen g.Joins w.dst w.src

/-- Fewer wires between nodes of the same kinds admit no less. -/
theorem Admits.mono {g' : Graph α} {w : Wire} (hw : g.Admits w) (hkind : g'.kind? = g.kind?)
    (hsub : ∀ v, g'.Wired v → g.Wired v) : g'.Admits w where
  alternates := by
    rw [Alternates, hkind]
    exact hw.alternates
  input_free := fun v hv => hw.input_free v (hsub v hv)
  output_free := fun hop v hv => hw.output_free (hkind ▸ hop) v (hsub v hv)
  no_path_back := fun hpath => hw.no_path_back <|
    ReflTransGen.mono (fun _ _ hjoin => by
      obtain ⟨i, j, hv⟩ := joins_iff.mp hjoin
      exact (hsub _ hv).joins) _ _ hpath

/-- What gets the next number comes last. -/
theorem increasing_append {β : Type} {key : β → Nat} {list : List β} {new : β}
    (hkeys : (list.map key).Pairwise (· < ·)) (hbelow : ∀ x ∈ list, key x < key new) :
    ((list ++ [new]).map key).Pairwise (· < ·) ∧ ∀ x ∈ list ++ [new], key x < key new + 1 := by
  constructor
  · rw [List.map_append, List.pairwise_append]
    refine ⟨hkeys, List.pairwise_singleton _ _, fun i hi j hj => ?_⟩
    obtain ⟨x, hx, rfl⟩ := List.mem_map.mp hi
    rw [List.map_singleton, List.mem_singleton] at hj
    exact hj ▸ hbelow x hx
  · intro x hx
    rcases List.mem_append.mp hx with hx | hx
    · exact Nat.lt_succ_of_lt (hbelow x hx)
    · rw [List.mem_singleton.mp hx]
      exact Nat.lt_succ_self _

/-- The empty graph is well-formed. -/
theorem wellFormed_empty (layout : Layout) : (Graph.empty layout : Graph α).WellFormed where
  nodes_increasing := List.Pairwise.nil
  nodes_below := by simp [Graph.empty]
  edges_increasing := List.Pairwise.nil
  edges_below := by simp [Graph.empty]
  alternates := by simp [Graph.empty]
  inputs_distinct := by simp [Graph.empty]
  outputs_distinct := by simp [Graph.empty]
  acyclic := by
    intro id hcycle
    obtain ⟨next, ⟨e, he, _⟩, _⟩ := TransGen.head'_iff.mp hcycle
    simp [Graph.empty] at he
  incoming := rfl
  outgoing := rfl
  current := by simp [Graph.empty]

/-- The order depends on the ids, the edges and the tables. -/
theorem computeOrder_congr {g' : Graph α} (hids : g'.ids = g.ids) (hedges : g'.edges = g.edges)
    (hincoming : g'.incoming = g.incoming) (houtgoing : g'.outgoing = g.outgoing) :
    g'.computeOrder = g.computeOrder := by
  unfold computeOrder heads outEdges outEdgeIds inEdgeIds edge?
  rw [hids, hedges, hincoming, houtgoing]

namespace WellFormed

variable (hg : g.WellFormed)
include hg

/-- Changing nodes and taking away edges keeps the invariant, if the remaining edges keep the kinds
of their ends and the tables list them. -/
theorem restrict {g' : Graph α} (hnodes : (g'.nodes.map (·.id)).Pairwise (· < ·))
    (hbelow : ∀ n ∈ g'.nodes, n.id < g'.nextNode) (hsub : g'.edges.Sublist g.edges)
    (hnext : g'.nextEdge = g.nextEdge)
    (hkind : ∀ e ∈ g'.edges, g'.kind? e.src = g.kind? e.src ∧ g'.kind? e.dst = g.kind? e.dst)
    (hincoming : g'.incoming = tableOf (·.dst) g'.nextNode g'.edges)
    (houtgoing : g'.outgoing = tableOf (·.src) g'.nextNode g'.edges)
    (hcurrent : ∀ order, g'.knownOrder = some order → order = g'.computeOrder) : g'.WellFormed where
  nodes_increasing := hnodes
  nodes_below := hbelow
  edges_increasing := hg.edges_increasing.sublist (hsub.map _)
  edges_below := fun e he => hnext ▸ hg.edges_below e (hsub.subset he)
  alternates := by
    intro e he
    have halt := hg.alternates e (hsub.subset he)
    obtain ⟨hsrc, hdst⟩ := hkind e he
    rwa [Alternates, hsrc, hdst]
  inputs_distinct := fun e he f hf =>
    hg.inputs_distinct e (hsub.subset he) f (hsub.subset hf)
  outputs_distinct := by
    intro e he f hf hop
    rw [(hkind e he).1] at hop
    exact hg.outputs_distinct e (hsub.subset he) f (hsub.subset hf) hop
  acyclic := hg.acyclic.mono fun _ _ => JoinedBy.mono fun _ he => hsub.subset he
  incoming := hincoming
  outgoing := houtgoing
  current := hcurrent

/-- Changing nodes in place keeps the invariant if it keeps ids and kinds and changes nothing else.
-/
theorem change_nodes {g' : Graph α} (hids : g'.ids = g.ids) (hkind : g'.kind? = g.kind?)
    (hrest : g' = { g with layout := g'.layout, nodes := g'.nodes }) : g'.WellFormed := by
  have hedges : g'.edges = g.edges := by rw [hrest]
  have hnext : g'.nextNode = g.nextNode := by rw [hrest]
  have hincoming : g'.incoming = g.incoming := by rw [hrest]
  have houtgoing : g'.outgoing = g.outgoing := by rw [hrest]
  refine hg.restrict ?_ ?_ (by rw [hedges]) (by rw [hrest]) ?_ ?_ ?_ ?_
  · show g'.ids.Pairwise (· < ·)
    rw [hids]
    exact hg.nodes_increasing
  · intro n hn
    have hmem : n.id ∈ g.ids := hids ▸ List.mem_map.mpr ⟨n, hn, rfl⟩
    obtain ⟨m, hm, hid⟩ := List.mem_map.mp hmem
    rw [hnext, ← hid]
    exact hg.nodes_below m hm
  · intro e _
    rw [hkind]
    exact ⟨rfl, rfl⟩
  · rw [hincoming, hedges, hnext]
    exact hg.incoming
  · rw [houtgoing, hedges, hnext]
    exact hg.outgoing
  · intro order horder
    rw [computeOrder_congr hids hedges hincoming houtgoing]
    rw [hrest] at horder
    exact hg.current order horder

/-- A new node has no edges, and empty entries in the tables. -/
theorem insertNode (name : String) (payload : Payload α) :
    (g.insertNode name payload).WellFormed := by
  refine hg.restrict (increasing_append hg.nodes_increasing hg.nodes_below).1
    (increasing_append hg.nodes_increasing hg.nodes_below).2 (List.Sublist.refl _) rfl ?_ ?_ ?_ nofun
  · intro e he
    rw [kind?_insertNode hg.node?_nextNode]
    obtain ⟨hsrc, hdst⟩ := hg.wired_live ⟨e, he, rfl⟩
    constructor
    · exact Function.update_of_ne (hg.ne_nextNode hsrc) _ _
    · exact Function.update_of_ne (hg.ne_nextNode hdst) _ _
  · show g.incoming ++ [[]] = tableOf (·.dst) (g.nextNode + 1) g.edges
    rw [hg.incoming, tableOf_succ fun e he => (hg.ends_below he).2]
  · show g.outgoing ++ [[]] = tableOf (·.src) (g.nextNode + 1) g.edges
    rw [hg.outgoing, tableOf_succ fun e he => (hg.ends_below he).1]

/-- A payload of the same kind keeps the invariant. -/
theorem setPayload {id : NodeId} {payload : Payload α}
    (hkind : (g.setPayload id payload).kind? = g.kind?) : (g.setPayload id payload).WellFormed :=
  hg.change_nodes (ids_setPayload g id payload) hkind rfl

theorem setAttributes (id : NodeId) (attributes : Attributes) :
    (g.setAttributes id attributes).WellFormed :=
  hg.change_nodes (ids_setAttributes g id attributes) (kind?_setAttributes g id attributes) rfl

theorem setLayout (layout : Layout) : ({ g with layout } : Graph α).WellFormed :=
  hg.change_nodes rfl rfl rfl

/-- Remembering the order of now keeps the invariant. -/
theorem remember : g.remember.WellFormed := by
  refine hg.restrict hg.nodes_increasing hg.nodes_below (List.Sublist.refl _) rfl
    (fun _ _ => ⟨rfl, rfl⟩) hg.incoming hg.outgoing fun order horder => ?_
  obtain rfl : g.topologicalOrder = order := Option.some.inj horder
  exact hg.topologicalOrder_eq_computeOrder

/-- Fewer edges keep the invariant; the edge goes from both tables. -/
theorem eraseEdge (id : EdgeId) : (g.eraseEdge id).WellFormed := by
  rw [Graph.eraseEdge]
  split
  · exact hg
  · rename_i e he
    obtain ⟨hmem, rfl⟩ := hg.edge?_eq_some_iff.mp he
    refine hg.restrict hg.nodes_increasing hg.nodes_below List.filter_sublist rfl
      (fun _ _ => ⟨rfl, rfl⟩) ?_ ?_ ?_
    · dsimp only
      rw [hg.incoming, tableOf_erase hg.edge_ids_nodup hmem]
    · dsimp only
      rw [hg.outgoing, tableOf_erase hg.edge_ids_nodup hmem]
    · intro order horder
      cases horder

theorem eraseEdges (ids : List EdgeId) : (g.eraseEdges ids).WellFormed :=
  eraseEdges_induction (fun _ id hg => hg.eraseEdge id) ids hg

/-- The edges listed at a node are those that start or end there. -/
theorem mem_edgeIdsAt {e : Edge} (he : e ∈ g.edges) {id : NodeId} :
    e.id ∈ g.edgeIdsAt id ↔ e.src = id ∨ e.dst = id := by
  have hlisted : ∀ side : Edge → NodeId,
      e.id ∈ (g.edges.filter fun f => side f == id).map (·.id) ↔ side e = id := by
    intro side
    simp only [List.mem_map, List.mem_filter, beq_iff_eq]
    constructor
    · rintro ⟨f, ⟨hf, hside⟩, hid⟩
      rwa [← List.inj_on_of_nodup_map hg.edge_ids_nodup hf he hid]
    · intro hside
      exact ⟨e, ⟨he, hside⟩, rfl⟩
  rw [edgeIdsAt, List.mem_append, hg.inEdgeIds_eq, hg.outEdgeIds_eq, hlisted, hlisted, or_comm]

/-- The edges that go with a node are those at it. -/
theorem edges_eraseNode (id : NodeId) :
    (g.eraseNode id).edges = g.edges.filter fun e => e.src != id && e.dst != id := by
  rw [Graph.edges_eraseNode]
  refine List.filter_congr fun e he => ?_
  have hlisted : e.id ∈ g.edgeIdsAt id ↔ e.src = id ∨ e.dst = id := hg.mem_edgeIdsAt he
  by_cases hmem : e.id ∈ g.edgeIdsAt id
  · rcases hlisted.mp hmem with hend | hend <;> simp [hmem, hend]
  · have hends := mt hlisted.mpr hmem
    rw [not_or] at hends
    simp [hmem, hends]

/-- A node at which no edge starts or ends can be taken. -/
theorem takeNode {id : NodeId} (hloose : ∀ e ∈ g.edges, e.src ≠ id ∧ e.dst ≠ id) :
    (g.takeNode id).WellFormed := by
  have hkind := kind?_takeNode g id
  rw [Graph.takeNode] at hkind ⊢
  split
  · exact hg
  · rename_i n hn
    rw [hn] at hkind
    refine hg.restrict ?_ ?_ (List.Sublist.refl _) rfl ?_ hg.incoming hg.outgoing ?_
    · exact hg.nodes_increasing.sublist (List.filter_sublist.map _)
    · exact fun n hn => hg.nodes_below n (List.filter_sublist.subset hn)
    · intro e he
      obtain ⟨hsrc, hdst⟩ := hloose e he
      rw [hkind]
      exact ⟨Function.update_of_ne hsrc _ _, Function.update_of_ne hdst _ _⟩
    · intro order horder
      cases horder

/-- Once its edges are gone, a node can be taken away. -/
theorem eraseNode (id : NodeId) : (g.eraseNode id).WellFormed := by
  refine (hg.eraseEdges (g.edgeIdsAt id)).takeNode fun e he => ?_
  rw [edges_eraseEdges, List.mem_filter, decide_eq_true_eq] at he
  rw [hg.mem_edgeIdsAt he.1, not_or] at he
  exact he.2

/-- The wires that are left are those between other nodes. -/
theorem wired_eraseNode {id : NodeId} {v : Wire} :
    (g.eraseNode id).Wired v ↔ g.Wired v ∧ v.src ≠ id ∧ v.dst ≠ id := by
  simp only [Wired, hg.edges_eraseNode, List.mem_filter, Bool.and_eq_true, bne_iff_ne]
  constructor
  · rintro ⟨e, ⟨he, hsrc, hdst⟩, rfl⟩
    exact ⟨⟨e, he, rfl⟩, hsrc, hdst⟩
  · rintro ⟨⟨e, he, rfl⟩, hsrc, hdst⟩
    exact ⟨e, ⟨he, hsrc, hdst⟩, rfl⟩

/-- The joins that are left are those between other nodes. -/
theorem joins_eraseNode {x a b : NodeId} :
    (g.eraseNode x).Joins a b ↔ g.Joins a b ∧ a ≠ x ∧ b ≠ x := by
  simp only [joins_iff, hg.wired_eraseNode]
  constructor
  · rintro ⟨i, j, hw, hends⟩
    exact ⟨⟨i, j, hw⟩, hends⟩
  · rintro ⟨⟨i, j, hw⟩, hends⟩
    exact ⟨i, j, hw, hends⟩

/-- One node less is one node less. -/
theorem length_eraseNode {id : NodeId} {n : Node α} (hn : g.node? id = some n) :
    (g.eraseNode id).nodes.length + 1 = g.nodes.length := by
  have hids : (g.eraseNode id).ids = g.ids.erase id := by
    rw [hg.ids_nodup.erase_eq_filter, ids, ids, nodes_eraseNode, List.filter_map]
    rfl
  have hmem := mem_ids_of_node? hn
  have hlength := List.length_erase_of_mem hmem
  have hpos := List.length_pos_of_mem hmem
  rw [← hids, ids, ids, List.length_map, List.length_map] at hlength
  rw [ids, List.length_map] at hpos
  omega

/-- Adding a wire that the graph admits keeps the invariant. -/
theorem insertEdge {w : Wire} (hw : g.Admits w) : (g.insertEdge w).WellFormed where
  nodes_increasing := hg.nodes_increasing
  nodes_below := hg.nodes_below
  edges_increasing := (increasing_append hg.edges_increasing hg.edges_below).1
  edges_below := (increasing_append hg.edges_increasing hg.edges_below).2
  alternates := by
    intro e he
    rcases List.mem_append.mp he with he | he
    · exact hg.alternates e he
    · rw [List.mem_singleton.mp he]
      exact hw.alternates
  inputs_distinct := by
    intro e he f hf hdst hport
    rcases List.mem_append.mp he with he | he <;> rcases List.mem_append.mp hf with hf | hf
    · exact hg.inputs_distinct e he f hf hdst hport
    · rw [List.mem_singleton.mp hf] at hdst hport
      exact absurd ⟨hdst, hport⟩ (hw.input_free e.toWire ⟨e, he, rfl⟩)
    · rw [List.mem_singleton.mp he] at hdst hport
      exact absurd ⟨hdst.symm, hport.symm⟩ (hw.input_free f.toWire ⟨f, hf, rfl⟩)
    · rw [List.mem_singleton.mp he, List.mem_singleton.mp hf]
  outputs_distinct := by
    intro e he f hf hop hsrc hport
    rcases List.mem_append.mp he with he | he <;> rcases List.mem_append.mp hf with hf | hf
    · exact hg.outputs_distinct e he f hf hop hsrc hport
    · rw [List.mem_singleton.mp hf] at hsrc hport
      exact absurd ⟨hsrc, hport⟩ (hw.output_free (hsrc ▸ hop) e.toWire ⟨e, he, rfl⟩)
    · rw [List.mem_singleton.mp he] at hop hsrc hport
      exact absurd ⟨hsrc.symm, hport.symm⟩ (hw.output_free hop f.toWire ⟨f, hf, rfl⟩)
    · rw [List.mem_singleton.mp he, List.mem_singleton.mp hf]
  acyclic := acyclic_with_step (fun _ _ => joins_insertEdge.mp) hg.acyclic hw.no_path_back
  incoming := by
    show g.incoming.modify w.dst (· ++ [g.nextEdge]) = _
    rw [hg.incoming]
    exact (tableOf_append ⟨w, g.nextEdge⟩).symm
  outgoing := by
    show g.outgoing.modify w.src (· ++ [g.nextEdge]) = _
    rw [hg.outgoing]
    exact (tableOf_append ⟨w, g.nextEdge⟩).symm
  current := nofun

/-- Erasing an edge takes away its wire and no other. -/
theorem wired_eraseEdge {e : Edge} (he : e ∈ g.edges) {v : Wire} :
    (g.eraseEdge e.id).Wired v ↔ g.Wired v ∧ v ≠ e.toWire := by
  simp only [Wired, edges_eraseEdge, List.mem_filter, bne_iff_ne]
  constructor
  · rintro ⟨f, ⟨hf, hid⟩, rfl⟩
    refine ⟨⟨f, hf, rfl⟩, fun hsame => hid ?_⟩
    rw [hg.inputs_distinct f hf e he (congrArg Wire.dst hsame) (congrArg Wire.dstPort hsame)]
  · rintro ⟨⟨f, hf, rfl⟩, hne⟩
    refine ⟨f, ⟨hf, fun hid => hne ?_⟩, rfl⟩
    rw [List.inj_on_of_nodup_map hg.edge_ids_nodup hf he hid]

end WellFormed

/-! ## A new data node between two operators -/

section Link

variable (hg : g.WellFormed) {name : String} {source : OutputPort} {port : InputPort}
  (hsource : g.kind? source.node = some .op) (hport : g.kind? port.node = some .op)
  (hout : ∀ v, g.Wired v → ¬ (v.src = source.node ∧ v.srcPort = source.index))
  (hin : ∀ v, g.Wired v → ¬ (v.dst = port.node ∧ v.dstPort = port.index))
  (hback : ¬ ReflTransGen g.Joins port.node source.node)
include hg hsource hport hout hin hback

/-- What `insertLink` needs: two operators, a free port on each, and no path back. -/
theorem WellFormed.admits_insertLink :
    (g.insertNode name (.data {})).Admits ⟨source.node, source.index, g.nextNode, 0⟩ ∧
      ((g.insertNode name (.data {})).insertEdge ⟨source.node, source.index, g.nextNode, 0⟩).Admits
        ⟨g.nextNode, 0, port.node, port.index⟩ := by
  have hfresh := hg.node?_nextNode
  have hlive : ∀ {id k}, g.kind? id = some k → id ≠ g.nextNode := fun h =>
    hg.ne_nextNode fun hnone => by rw [kind?, hnone] at h; cases h
  have hnew : ∀ v, g.Wired v → v.src ≠ g.nextNode ∧ v.dst ≠ g.nextNode := fun v hv =>
    ⟨hg.ne_nextNode (hg.wired_live hv).1, hg.ne_nextNode (hg.wired_live hv).2⟩
  have hsource' := hlive hsource
  have hport' := hlive hport
  let g₁ := g.insertNode name (.data {})
  have hkind : ∀ id, g₁.kind? id = update g.kind? g.nextNode (some .data) id :=
    congrFun (kind?_insertNode hfresh)
  have hfirst : g₁.Admits ⟨source.node, source.index, g.nextNode, 0⟩ := by
    refine ⟨Or.inl ⟨?_, ?_, rfl⟩, ?_, ?_, ?_⟩
    · rw [hkind, Function.update_of_ne hsource', hsource]
    · rw [hkind, Function.update_self]
    · exact fun v hv h => (hnew v hv).2 h.1
    · exact fun _ v hv h => hout v hv h
    · intro hpath
      rcases ReflTransGen.cases_head hpath with hsame | ⟨x, hjoin, _⟩
      · exact hsource' hsame.symm
      · obtain ⟨i, j, hv⟩ := joins_iff.mp hjoin
        exact (hnew _ hv).1 rfl
  refine ⟨hfirst, Or.inr ⟨?_, ?_, rfl⟩, ?_, ?_, ?_⟩
  · exact (hkind _).trans (Function.update_self ..)
  · exact (hkind _).trans ((Function.update_of_ne hport' _ _).trans hport)
  · intro v hv h
    rcases wired_insertEdge.mp hv with hv | rfl
    · exact hin v hv h
    · exact hport' h.1.symm
  · intro hop
    have hdata : g₁.kind? g.nextNode = some .data := (hkind _).trans (Function.update_self ..)
    exact absurd (hop.symm.trans hdata) (by decide)
  · -- the new data node is entered from the producer only
    intro hpath
    rcases reflTransGen_iff_eq_or_transGen.mp hpath with hsame | hpath
    · exact hport' hsame.symm
    · rcases path_with_step (fun _ _ => joins_insertEdge.mp) hpath with hold | ⟨hto, _⟩
      · obtain ⟨x, _, hjoin⟩ := TransGen.tail'_iff.mp hold
        obtain ⟨i, j, hv⟩ := joins_iff.mp hjoin
        exact (hnew _ hv).2 rfl
      · exact hback hto

/-- A new data node between two ports keeps the invariant if it closes no cycle. -/
theorem WellFormed.insertLink : (g.insertLink name source port).WellFormed := by
  obtain ⟨hfirst, hsecond⟩ := hg.admits_insertLink hsource hport hout hin hback
  exact ((hg.insertNode name (.data {})).insertEdge hfirst).insertEdge hsecond

end Link

/-! ## Moving readers -/

/-- A path to `source` is a path of the old graph, if all new steps start at `source`. -/
theorem path_to_source {r r' : NodeId → NodeId → Prop} {source a : NodeId}
    (hstep : ∀ x y, r' x y → r x y ∨ x = source) (h : ReflTransGen r' a source) :
    ReflTransGen r a source := by
  induction h using ReflTransGen.head_induction_on with
  | refl => exact .refl
  | head hab _ ih =>
    rcases hstep _ _ hab with hold | rfl
    · exact ih.head hold
    · exact .refl

/-- Feeding a port with other data replaces the wire into it. -/
theorem wired_refeed (hg : g.WellFormed) {data : NodeId} {port : InputPort} {v : Wire} :
    (g.refeed data port).Wired v ↔
      (g.Wired v ∧ v.target ≠ port) ∨ v = ⟨data, 0, port.node, port.index⟩ := by
  rw [refeed, wired_insertEdge]
  refine or_congr ?_ Iff.rfl
  have htarget : v.target = port ↔ v.dst = port.node ∧ v.dstPort = port.index := by
    rw [Wire.target, InputPort.mk.injEq]
  rw [ne_eq, htarget]
  split
  · rename_i e he
    obtain ⟨hmem, hdst, hport⟩ := hg.edgeInto?_spec he
    rw [hg.wired_eraseEdge hmem]
    refine and_congr_right fun hv => not_congr ⟨?_, fun hsame => ?_⟩
    · rintro rfl
      exact ⟨hdst, hport⟩
    · exact hg.eq_of_input hv ⟨e, hmem, rfl⟩ (hsame.1.trans hdst.symm) (hsame.2.trans hport.symm)
  · rename_i hnone
    exact ⟨fun hv => ⟨hv, hg.edgeInto?_eq_none_iff.mp hnone v hv⟩, And.left⟩

/-- New steps start at the data. -/
theorem joins_refeed (hg : g.WellFormed) {data : NodeId} {port : InputPort} (x y : NodeId)
    (h : (g.refeed data port).Joins x y) : g.Joins x y ∨ x = data := by
  obtain ⟨i, j, hv⟩ := joins_iff.mp h
  rcases (wired_refeed hg).mp hv with ⟨hv, _⟩ | hv
  · exact Or.inl (joins_iff.mpr ⟨i, j, hv⟩)
  · exact Or.inr (congrArg Wire.src hv)

/-- Feeding a port with other data leaves all nodes as they are. -/
@[simp] theorem node?_refeed (g : Graph α) (data : NodeId) (port : InputPort) :
    (g.refeed data port).node? = g.node? := by
  rw [refeed]
  split
  · rename_i e _
    exact node?_eraseEdge g e.id
  · rfl

theorem kind?_of_node? {g' : Graph α} (h : g'.node? = g.node?) : g'.kind? = g.kind? := by
  funext id
  rw [kind?, kind?, h]

/-- Feeding a port with other data keeps the invariant if it closes no cycle. -/
theorem WellFormed.refeed (hg : g.WellFormed) {data : NodeId} {port : InputPort}
    (hdata : g.kind? data = some .data) (hport : g.kind? port.node = some .op)
    (hback : ¬ ReflTransGen g.Joins port.node data) : (g.refeed data port).WellFormed := by
  -- the edge into the port goes first, so that the port is free
  have hfreed : ∀ g₁ : Graph α, g₁.WellFormed → g₁.kind? = g.kind? →
      (∀ v, g₁.Wired v → g.Wired v ∧ v.target ≠ port) →
      (g₁.insertEdge ⟨data, 0, port.node, port.index⟩).WellFormed := by
    intro g₁ hg₁ hkind hwired
    refine hg₁.insertEdge ⟨Or.inr ⟨hkind ▸ hdata, hkind ▸ hport, rfl⟩, ?_, ?_, ?_⟩
    · intro v hv h
      exact (hwired v hv).2 (InputPort.mk.injEq .. ▸ h)
    · intro hop
      rw [hkind, hdata] at hop
      cases hop
    · intro hpath
      refine hback (ReflTransGen.mono (fun x y hjoin => ?_) _ _ hpath)
      obtain ⟨i, j, hv⟩ := joins_iff.mp hjoin
      exact joins_iff.mpr ⟨i, j, (hwired _ hv).1⟩
  rw [Graph.refeed]
  split
  · rename_i e he
    obtain ⟨hmem, hdst, hport'⟩ := hg.edgeInto?_spec he
    refine hfreed _ (hg.eraseEdge e.id) (kind?_eraseEdge g e.id) fun v hv => ?_
    obtain ⟨hold, hne⟩ := (hg.wired_eraseEdge hmem).mp hv
    refine ⟨hold, fun htarget => hne ?_⟩
    rw [Wire.target, InputPort.mk.injEq] at htarget
    exact hg.eq_of_input hold ⟨e, hmem, rfl⟩ (htarget.1.trans hdst.symm)
      (htarget.2.trans hport'.symm)
  · rename_i hnone
    refine hfreed g hg rfl fun v hv => ⟨hv, fun htarget => ?_⟩
    rw [Wire.target, InputPort.mk.injEq] at htarget
    exact hg.edgeInto?_eq_none_iff.mp hnone v hv htarget

/-- The graph with several input ports fed by one data node. -/
def refeedAll (g : Graph α) (data : NodeId) (ports : List InputPort) : Graph α :=
  ports.foldl (fun g port => g.refeed data port) g

@[simp] theorem node?_refeedAll (g : Graph α) (data : NodeId) (ports : List InputPort) :
    (g.refeedAll data ports).node? = g.node? := by
  induction ports generalizing g with
  | nil => rfl
  | cons port ports ih => exact (ih (g.refeed data port)).trans (node?_refeed g data port)

/-- Feeding several ports from data that none of them reaches keeps the invariant; the wires into
these ports are replaced. -/
theorem WellFormed.refeedAll {data : NodeId} : ∀ (ports : List InputPort) {g : Graph α},
    g.WellFormed → g.kind? data = some .data → (∀ p ∈ ports, g.kind? p.node = some .op) →
    (∀ p ∈ ports, ¬ ReflTransGen g.Joins p.node data) →
    (g.refeedAll data ports).WellFormed ∧ ∀ v, (g.refeedAll data ports).Wired v ↔
      (g.Wired v ∧ v.target ∉ ports) ∨
        (v.src = data ∧ v.srcPort = 0 ∧ v.target ∈ ports) := by
  intro ports
  induction ports with
  | nil =>
    intro g hg _ _ _
    exact ⟨hg, fun v => by simp [Graph.refeedAll]⟩
  | cons port ports ih =>
    intro g hg hdata hops hback
    have hport := hops port List.mem_cons_self
    have hkind := kind?_of_node? (node?_refeed g data port)
    -- new steps start at the data, so the other ports do not begin to reach it
    obtain ⟨hwf, hwired⟩ := ih (hg.refeed hdata hport (hback port List.mem_cons_self))
      (hkind ▸ hdata) (fun p hp => hkind ▸ hops p (List.mem_cons_of_mem _ hp))
      (fun p hp hpath => hback p (List.mem_cons_of_mem _ hp) (path_to_source (joins_refeed hg) hpath))
    refine ⟨hwf, fun v => ?_⟩
    rw [show g.refeedAll data (port :: ports) = (g.refeed data port).refeedAll data ports from rfl,
      hwired, wired_refeed hg, List.mem_cons]
    by_cases htarget : v.target = port
    · have hends : v = ⟨data, 0, port.node, port.index⟩ ↔ v.src = data ∧ v.srcPort = 0 := by
        rw [← htarget, Wire.target, Wire.mk.injEq]
        simp
      rw [hends]
      tauto
    · have hne : v ≠ ⟨data, 0, port.node, port.index⟩ := by
        rintro rfl
        exact htarget rfl
      tauto

end Graph

end TensorGraph
