/-
  What the removal of dead nodes leaves.

  An operator is worth keeping if some path leads from it to an `Anchor`: a graph input or output,
  or an operator without results.  The rule knows nothing about paths; it looks at a node and its
  neighbours, and starts over when it has removed what it found.  `Pruned` says how far such a run
  can have got: the graph is the one at the start without some nodes, no useful operator is missing,
  and no data next to an operator that is still there.

  A node that is found dead is `Spare`: it can be removed, and removing others does not change that,
  so a round never fails.  Where no node is spare any more, an operator that is left leads to
  another one, or is an anchor itself.  Wires lead up in the topological order, so in the end there
  is an anchor.
-/
import TensorGraph.Proofs.Reachable

namespace TensorGraph

open Edit TensorGraph.Graph Relation

variable {α : Type} {g₀ g : Graph α} {id : NodeId}

namespace Graph

/-- A graph input or output, or an operator without results: it stays even if nothing reads it. -/
def Anchor (g : Graph α) (id : NodeId) : Prop :=
  ∃ n type, g.node? id = some n ∧ n.opcode? = some type ∧
    (type = .output ∨ type = .parameter ∨ ∀ data, ¬ g.Joins id data)

/-- Some path, possibly an empty one, leads from the node to an anchor. -/
def Useful (g : Graph α) (id : NodeId) : Prop :=
  ∃ anchor, ReflTransGen g.Joins id anchor ∧ g.Anchor anchor

/-- `g'` is `g` without its dead part, which is `k` nodes. -/
structure DeadRemoved (g : Graph α) (k : Nat) (g' : Graph α) : Prop where
  operators : ∀ id, g.kind? id = some .op → (g'.hasNode id = true ↔ g.Useful id)
  data : ∀ id, g.kind? id = some .data → (g'.hasNode id = true ↔
    (∃ op, g.Joins op id ∧ g'.hasNode op = true) ∨ ∃ op, g.Joins id op ∧ g'.hasNode op = true)
  /-- The nodes that are left are as they were, and in the same order. -/
  nodes : g'.nodes = g.nodes.filter fun n => g'.hasNode n.id
  edges : g'.edges = g.edges.filter fun e => g'.hasNode e.src && g'.hasNode e.dst
  /-- What is in front of a node that is left is left. -/
  closed : ∀ a b, g.Joins a b → g'.hasNode b = true → g'.hasNode a = true
  count : g'.nodes.length + k = g.nodes.length

theorem Anchor.kind? (h : g.Anchor id) : g.kind? id = some .op := by
  obtain ⟨n, type, hn, htype, -⟩ := h
  exact (kind?_eq_op_iff_opcode? hn).mpr ⟨type, htype⟩

end Graph

namespace DeadRule

/-! ## The dead nodes of a graph -/

theorem isUnused_operator (hg : g.WellFormed) {n : Node α} {type : Opcode}
    (htype : n.opcode? = some type) :
    isUnused g n = true ↔ type ≠ .output ∧ type ≠ .parameter ∧ (∃ data, g.Joins n.id data) ∧
      ∀ data op, g.Joins n.id data → ¬ g.Joins data op := by
  have hresults : (!(g.successors n.id).isEmpty) = true ↔ ∃ data, g.Joins n.id data := by
    rw [Bool.not_eq_true', ← Bool.not_eq_true, List.isEmpty_iff, List.eq_nil_iff_forall_not_mem]
    simp [hg.mem_successors]
  have hunread : (g.successors n.id).all (fun data => (g.readers data).isEmpty) = true ↔
      ∀ data op, g.Joins n.id data → ¬ g.Joins data op := by
    rw [List.all_eq_true]
    simp only [hg.readers_isEmpty_iff, hg.mem_successors]
    exact forall_congr' fun data => forall_comm
  rw [isUnused, htype]
  by_cases houtput : type = .output
  · simp [houtput]
  · by_cases hparameter : type = .parameter
    · simp [hparameter]
    · simp [houtput, hparameter, hresults, hunread]

theorem isUnused_data (hg : g.WellFormed) {n : Node α} (hdata : n.opcode? = none) :
    isUnused g n = true ↔ ∀ op, ¬ g.Joins op n.id ∧ ¬ g.Joins n.id op := by
  have hunmade : (g.producer? n.id).isNone = true ↔ ∀ op, ¬ g.Joins op n.id := by
    rw [Option.isNone_iff_eq_none, hg.producer?_eq_none_iff]
    constructor
    · intro h op hjoins
      obtain ⟨i, j, hw⟩ := joins_iff.mp hjoins
      exact h _ hw rfl
    · rintro h w hw hdst
      exact h w.src (hdst ▸ hw.joins)
  rw [isUnused, hdata, Bool.and_eq_true, hunmade, hg.readers_isEmpty_iff, forall_and]

theorem not_isUnused (hend : unusedNodes g = []) {n : Node α} (hn : g.node? id = some n) :
    ¬ isUnused g n = true := by
  intro hunused
  have hmem : n.id ∈ unusedNodes g :=
    List.mem_map_of_mem (List.mem_filter.mpr ⟨node?_mem hn, hunused⟩)
  rw [hend] at hmem
  exact absurd hmem List.not_mem_nil

/-! ## Graphs in the course of a run -/

/-- `g` is `g₀` without some nodes; useful operators are still there, and so is the data that is
read or made by an operator that is. -/
structure Pruned (g₀ g : Graph α) : Prop where
  wellFormed : g.WellFormed
  nodes : g.nodes = g₀.nodes.filter fun n => g.hasNode n.id
  edges : g.edges = g₀.edges.filter fun e => g.hasNode e.src && g.hasNode e.dst
  useful : ∀ id, g₀.kind? id = some .op → g₀.Useful id → g.hasNode id = true
  read : ∀ data op, g₀.Joins data op → g₀.kind? data = some .data → g.hasNode op = true →
    g.hasNode data = true
  made : ∀ op data, g₀.Joins op data → g₀.kind? data = some .data → g.hasNode op = true →
    g.hasNode data = true

/-- The node is there and can be removed: an operator that is no anchor and whose results are
unread, or data without neighbours. -/
structure Spare (g₀ g : Graph α) (id : NodeId) : Prop where
  live : g.hasNode id = true
  operator : g₀.kind? id = some .op →
    ¬ g₀.Anchor id ∧ ∀ data op, g.Joins id data → ¬ g.Joins data op
  data : g₀.kind? id = some .data → ∀ op, ¬ g.Joins op id ∧ ¬ g.Joins id op

/-- Removing another node leaves a spare node spare. -/
theorem Spare.eraseNode (hg : g.WellFormed) {x : NodeId} (h : Spare g₀ g id) (hne : id ≠ x) :
    Spare g₀ (g.eraseNode x) id where
  live := by simp [hasNode_eraseNode, hne, h.live]
  operator hop := by
    obtain ⟨hanchor, hunread⟩ := h.operator hop
    refine ⟨hanchor, fun data op hresult hread => ?_⟩
    exact hunread data op (hg.joins_eraseNode.mp hresult).1 (hg.joins_eraseNode.mp hread).1
  data hdata op := by
    obtain ⟨hunmade, hunread⟩ := h.data hdata op
    exact ⟨fun hjoins => hunmade (hg.joins_eraseNode.mp hjoins).1,
      fun hjoins => hunread (hg.joins_eraseNode.mp hjoins).1⟩

theorem pruned_self (hg : g.WellFormed) : Pruned g g where
  wellFormed := hg
  nodes := by
    refine (List.filter_eq_self.mpr fun n hn => ?_).symm
    exact hg.mem_ids_iff.mp (List.mem_map_of_mem hn)
  edges := by
    refine (List.filter_eq_self.mpr fun e he => ?_).symm
    obtain ⟨hsrc, hdst⟩ := hg.joins_mem_ids ⟨e, he, rfl, rfl⟩
    rw [hg.mem_ids_iff.mp hsrc, hg.mem_ids_iff.mp hdst, Bool.and_self]
  useful _ hop _ := hasNode_of_kind? hop
  read _ _ _ hdata _ := hasNode_of_kind? hdata
  made _ _ _ hdata _ := hasNode_of_kind? hdata

namespace Pruned

theorem joins_iff (h : Pruned g₀ g) {a b : NodeId} :
    g.Joins a b ↔ g₀.Joins a b ∧ g.hasNode a = true ∧ g.hasNode b = true := by
  rw [Joins, JoinedBy, h.edges]
  simp only [List.mem_filter, Bool.and_eq_true]
  constructor
  · rintro ⟨e, ⟨he, hlive⟩, rfl, rfl⟩
    exact ⟨⟨e, he, rfl, rfl⟩, hlive⟩
  · rintro ⟨⟨e, he, rfl, rfl⟩, hlive⟩
    exact ⟨e, ⟨he, hlive⟩, rfl, rfl⟩

variable (hg₀ : g₀.WellFormed) (h : Pruned g₀ g)
include hg₀ h

theorem node?_eq (hlive : g.hasNode id = true) : g.node? id = g₀.node? id := by
  obtain ⟨n, hn⟩ := Option.isSome_iff_exists.mp hlive
  have hmem := node?_mem hn
  rw [h.nodes, List.mem_filter] at hmem
  rw [hn, hg₀.node?_eq_some_iff.mpr ⟨hmem.1, node?_id hn⟩]

theorem kind?_eq (hlive : g.hasNode id = true) : g.kind? id = g₀.kind? id := by
  rw [Graph.kind?, h.node?_eq hg₀ hlive, Graph.kind?]

/-- A path from a spare operator to an anchor would go on from one of its results to a reader, which
is useful and so still there. -/
theorem not_useful (hspare : Spare g₀ g id) (hop : g₀.kind? id = some .op) : ¬ g₀.Useful id := by
  rintro ⟨anchor, hpath, hanchor⟩
  obtain ⟨hno, hunread⟩ := hspare.operator hop
  -- the path is empty, ends at a result, or has a result and a reader on it
  rcases ReflTransGen.cases_head hpath with rfl | ⟨data, hresult, hpath⟩
  · exact hno hanchor
  · have hdata := hg₀.data_of_joins hresult hop
    rcases ReflTransGen.cases_head hpath with rfl | ⟨op, hread, hpath⟩
    · exact op_ne_data hanchor.kind? hdata rfl
    · have hreader := h.useful op (hg₀.op_of_joins hread hdata) ⟨anchor, hpath, hanchor⟩
      have hlive := h.made id data hresult hdata hspare.live
      exact hunread data op (h.joins_iff.mpr ⟨hresult, hspare.live, hlive⟩)
        (h.joins_iff.mpr ⟨hread, hlive, hreader⟩)

theorem removable (hspare : Spare g₀ g id) : g.Removable id := by
  rw [Removable, h.kind?_eq hg₀ hspare.live]
  constructor
  · rintro hdata w hw rfl
    exact (hspare.data hdata w.dst).2 hw.joins
  · rintro hop w hw rfl ⟨⟨v, hv, hsrc⟩, -⟩
    exact (hspare.operator hop).2 w.dst v.dst hw.joins (hsrc ▸ hv.joins)

/-- Removing a spare node leaves what it has to leave. -/
theorem eraseNode (hspare : Spare g₀ g id) : Pruned g₀ (g.eraseNode id) where
  wellFormed := h.wellFormed.eraseNode id
  nodes := by
    simp only [hasNode_eraseNode]
    rw [nodes_eraseNode, h.nodes, List.filter_filter]
  edges := by
    simp only [hasNode_eraseNode]
    rw [h.wellFormed.edges_eraseNode, h.edges, List.filter_filter]
    refine List.filter_congr fun e _ => ?_
    ac_rfl
  useful op hop huseful := by
    have hne : op ≠ id := by
      rintro rfl
      exact h.not_useful hg₀ hspare hop huseful
    simp [hasNode_eraseNode, hne, h.useful op hop huseful]
  read data op hjoins hdata hlive := by
    simp only [hasNode_eraseNode, Bool.and_eq_true, bne_iff_ne] at hlive ⊢
    have hkept := h.read data op hjoins hdata hlive.2
    refine ⟨?_, hkept⟩
    -- data that is read is not spare
    rintro rfl
    exact (hspare.data hdata op).2 (h.joins_iff.mpr ⟨hjoins, hkept, hlive.2⟩)
  made op data hjoins hdata hlive := by
    simp only [hasNode_eraseNode, Bool.and_eq_true, bne_iff_ne] at hlive ⊢
    have hkept := h.made op data hjoins hdata hlive.2
    refine ⟨?_, hkept⟩
    rintro rfl
    exact (hspare.data hdata op).1 (h.joins_iff.mpr ⟨hjoins, hlive.2, hkept⟩)

/-- The anchors among the nodes that are left are those of the start: no node loses its last
result. -/
theorem anchor_of_unjoined {n : Node α} {type : Opcode} (hn : g.node? id = some n)
    (htype : n.opcode? = some type) (hunjoined : ∀ data, ¬ g.Joins id data) : g₀.Anchor id := by
  have hlive : g.hasNode id = true := by rw [hasNode, hn, Option.isSome_some]
  have hn₀ := (h.node?_eq hg₀ hlive).symm.trans hn
  refine ⟨n, type, hn₀, htype, .inr (.inr fun data hjoins => ?_)⟩
  have hop := (kind?_eq_op_iff_opcode? hn₀).mpr ⟨type, htype⟩
  have hkept := h.made id data hjoins (hg₀.data_of_joins hjoins hop) hlive
  exact hunjoined data (h.joins_iff.mpr ⟨hjoins, hlive, hkept⟩)

/-- What a round finds is spare. -/
theorem spare_of_mem (hid : id ∈ unusedNodes g) : Spare g₀ g id := by
  obtain ⟨n, hn, rfl⟩ := List.mem_map.mp hid
  obtain ⟨hmem, hunused⟩ := List.mem_filter.mp hn
  have hnode : g.node? n.id = some n := h.wellFormed.node?_eq_some_iff.mpr ⟨hmem, rfl⟩
  have hlive : g.hasNode n.id = true := by rw [hasNode, hnode, Option.isSome_some]
  have hnode₀ : g₀.node? n.id = some n := (h.node?_eq hg₀ hlive).symm.trans hnode
  refine ⟨hlive, fun hop => ?_, fun hdata => ?_⟩
  · obtain ⟨type, htype⟩ := (kind?_eq_op_iff_opcode? hnode₀).mp hop
    obtain ⟨houtput, hparameter, ⟨data, hresult⟩, hunread⟩ := (isUnused_operator h.wellFormed htype).mp hunused
    refine ⟨?_, hunread⟩
    rintro ⟨n', type', hn', htype', hanchor⟩
    rw [hnode₀, Option.some.injEq] at hn'
    rw [← hn', htype, Option.some.injEq] at htype'
    rw [← htype'] at hanchor
    rcases hanchor with hoperation | hoperation | hunjoined
    · exact houtput hoperation
    · exact hparameter hoperation
    · exact hunjoined data (h.joins_iff.mp hresult).1
  · exact (isUnused_data h.wellFormed (opcode?_of_data hnode₀ hdata)).mp hunused

/-! ## Runs -/

/-- A round removes what it found, and does not fail. -/
theorem runs_removeNodes {ids : List NodeId} {notes : List LogEntry} (hnodup : ids.Nodup)
    (hspare : ∀ id ∈ ids, Spare g₀ g id) :
    Runs (removeNodes ids) ⟨g, notes⟩
      (fun _ g' => Pruned g₀ g' ∧ g'.nodes.length + ids.length = g.nodes.length) fun _ => False := by
  induction ids generalizing g notes with
  | nil => exact runs_pure ⟨h, rfl⟩
  | cons id ids ih =>
    obtain ⟨hnew, hnodup⟩ := List.nodup_cons.mp hnodup
    have hfirst := hspare id List.mem_cons_self
    have hremovable := h.removable hg₀ hfirst
    have hlive : g.node? id ≠ none := Option.isSome_iff_ne_none.mp hfirst.live
    refine runs_bind (runs_removeNode h.wellFormed (fun n hn _ notes => ?_) fun hrefused =>
      hrefused ⟨hlive, hremovable⟩)
    refine runs_bind (runs_log fun notes => ?_)
    -- the others were found in the graph before the removal, and are still spare after it
    have hrest : ∀ x ∈ ids, Spare g₀ (g.eraseNode id) x := by
      intro x hx
      refine (hspare x (List.mem_cons_of_mem _ hx)).eraseNode h.wellFormed ?_
      rintro rfl
      exact hnew hx
    refine (ih (h.eraseNode hg₀ hfirst) hnodup hrest).imp (fun _ g' hg' => ?_) fun _ hE => hE
    obtain ⟨hpruned, hlength⟩ := hg'
    have herased := h.wellFormed.length_eraseNode hn
    rw [List.length_cons]
    exact ⟨hpruned, by omega⟩

/-- Rounds remove nodes until none is dead; there are fewer nodes than rounds. -/
theorem runs_removeRounds {rounds : Nat} {notes : List LogEntry}
    (hrounds : g.nodes.length < rounds) :
    Runs (removeRounds rounds) ⟨g, notes⟩
      (fun k g' => Pruned g₀ g' ∧ unusedNodes g' = [] ∧ g'.nodes.length + k = g.nodes.length)
      fun _ => False := by
  induction rounds generalizing g notes with
  | zero => omega
  | succ rounds ih =>
    refine runs_bind (runs_graph fun notes => ?_)
    dsimp only
    split
    · rename_i hempty
      exact runs_pure ⟨h, List.isEmpty_iff.mp hempty, rfl⟩
    · rename_i hfound
      have hpos : 0 < (unusedNodes g).length := List.length_pos_iff.mpr (by simpa using hfound)
      have hnodup : (unusedNodes g).Nodup :=
        h.wellFormed.ids_nodup.sublist (List.filter_sublist.map _)
      refine runs_bind ((h.runs_removeNodes hg₀ hnodup fun id => h.spare_of_mem hg₀).imp
        (fun _ g' hg' notes => ?_) fun _ hE => hE)
      obtain ⟨hpruned, hlength⟩ := hg'
      refine runs_bind ((ih hpruned (by omega)).imp (fun k g'' hg'' notes => ?_) fun _ hE => hE)
      obtain ⟨hlast, hnone, hcount⟩ := hg''
      exact runs_pure ⟨hlast, hnone, by omega⟩

/-! ## The end of a run -/

/-- Where nothing is dead, an operator is an anchor or one of its results is read. -/
theorem anchor_or_read (hend : unusedNodes g = []) (hop : g.kind? id = some .op) :
    g₀.Anchor id ∨ ∃ data op, g.Joins id data ∧ g.Joins data op := by
  obtain ⟨n, hn⟩ := Option.isSome_iff_exists.mp (hasNode_of_kind? hop)
  obtain ⟨type, htype⟩ := (kind?_eq_op_iff_opcode? hn).mp hop
  have hn₀ := (h.node?_eq hg₀ (hasNode_of_kind? hop)).symm.trans hn
  have hused := not_isUnused hend hn
  rw [isUnused_operator h.wellFormed htype, node?_id hn] at hused
  by_contra hneither
  obtain ⟨hanchor, hunread⟩ := not_or.mp hneither
  refine hused ⟨fun houtput => ?_, fun hparameter => ?_, ?_, fun data op hresult hread => ?_⟩
  · exact hanchor ⟨n, _, hn₀, htype, .inl houtput⟩
  · exact hanchor ⟨n, _, hn₀, htype, .inr (.inl hparameter)⟩
  · by_contra hunjoined
    exact hanchor (h.anchor_of_unjoined hg₀ hn htype (not_exists.mp hunjoined))
  · exact hunread ⟨data, op, hresult, hread⟩

/-- Where nothing is dead, every operator is useful.  The induction goes down the topological order
of the graph at the start: a reader of a result comes later. -/
theorem useful_of_live (hend : unusedNodes g = []) (hop : g.kind? id = some .op) : g₀.Useful id := by
  have hrank := hg₀.ranked_topologicalOrder
  induction hleft : g₀.topologicalOrder.length - g₀.topologicalOrder.idxOf id
    using Nat.strong_induction_on generalizing id with
  | _ left ih =>
    subst hleft
    rcases h.anchor_or_read hg₀ hend hop with hanchor | ⟨data, op, hresult, hread⟩
    · exact ⟨id, .refl, hanchor⟩
    · -- two wires further on there is an operator that is left as well
      have hreader := h.wellFormed.op_of_joins hread (h.wellFormed.data_of_joins hresult hop)
      have hresult₀ := (h.joins_iff.mp hresult).1
      have hread₀ := (h.joins_iff.mp hread).1
      have hlt := Nat.lt_of_lt_of_le (hrank.lt_of_joins hresult₀) (hrank.le_of_path (.single hread₀))
      have hle : g₀.topologicalOrder.idxOf op ≤ g₀.topologicalOrder.length := List.idxOf_le_length
      have hlater : g₀.topologicalOrder.length - g₀.topologicalOrder.idxOf op <
          g₀.topologicalOrder.length - g₀.topologicalOrder.idxOf id := by omega
      obtain ⟨anchor, hpath, hanchor⟩ := ih _ hlater hreader rfl
      exact ⟨anchor, (hpath.head hread₀).head hresult₀, hanchor⟩

theorem operator_live_iff (hend : unusedNodes g = []) (hop : g₀.kind? id = some .op) :
    g.hasNode id = true ↔ g₀.Useful id := by
  refine ⟨fun hlive => h.useful_of_live hg₀ hend ?_, h.useful id hop⟩
  rw [h.kind?_eq hg₀ hlive, hop]

theorem data_live_iff (hend : unusedNodes g = []) (hdata : g₀.kind? id = some .data) :
    g.hasNode id = true ↔ (∃ op, g₀.Joins op id ∧ g.hasNode op = true) ∨
      ∃ op, g₀.Joins id op ∧ g.hasNode op = true := by
  constructor
  · intro hlive
    obtain ⟨n, hn⟩ := Option.isSome_iff_exists.mp hlive
    have hopcode := opcode?_of_data ((h.node?_eq hg₀ hlive).symm.trans hn) hdata
    by_contra hneither
    obtain ⟨hunmade, hunread⟩ := not_or.mp hneither
    refine not_isUnused hend hn ((isUnused_data h.wellFormed hopcode).mpr fun op => ?_)
    rw [node?_id hn, h.joins_iff, h.joins_iff]
    exact ⟨fun hjoins => hunmade ⟨op, hjoins.1, hjoins.2.1⟩,
      fun hjoins => hunread ⟨op, hjoins.1, hjoins.2.2⟩⟩
  · rintro (⟨op, hjoins, hlive⟩ | ⟨op, hjoins, hlive⟩)
    · exact h.made op id hjoins hdata hlive
    · exact h.read id op hjoins hdata hlive

/-- What is in front of a node that is left is left. -/
theorem live_of_joins (hend : unusedNodes g = []) {a b : NodeId} (hjoins : g₀.Joins a b)
    (hlive : g.hasNode b = true) : g.hasNode a = true := by
  obtain ⟨i, j, hw⟩ := Graph.joins_iff.mp hjoins
  rcases hg₀.wired_alternates hw with ⟨hop, -⟩ | ⟨hdata, -⟩
  · have hdata := hg₀.data_of_joins hjoins hop
    rcases (h.data_live_iff hg₀ hend hdata).mp hlive with
      ⟨op, hmade, hproducer⟩ | ⟨op, hread, hreader⟩
    · -- data has one producer
      obtain ⟨i', j', hw'⟩ := Graph.joins_iff.mp hmade
      obtain ⟨rfl, -⟩ := Wire.mk.inj (hg₀.eq_of_producer hw hw' hdata rfl)
      exact hproducer
    · -- the reader is useful, and so is what it reads from
      obtain ⟨anchor, hpath, hanchor⟩ :=
        (h.operator_live_iff hg₀ hend (hg₀.op_of_joins hread hdata)).mp hreader
      exact h.useful a hop ⟨anchor, (hpath.head hread).head hjoins, hanchor⟩
  · exact h.read a b hjoins hdata hlive

end Pruned

/-- Removing the dead nodes of a graph never fails, and leaves the operators from which a graph
input or output or an operator without results can be reached, and the data that they read or make.
-/
theorem run_removes_dead [Scalar α] (hg : Reachable g) (maxIterations : Nat)
    (notes : List LogEntry) :
    ∃ k s, DeadRule.rule.run maxIterations ⟨g, notes⟩ = .ok ⟨k, []⟩ s ∧ g.DeadRemoved k s.graph := by
  have hwf := hg.wellFormed
  have hrun : Runs (DeadRule.rule.run maxIterations) ⟨g, notes⟩
      (fun outcome g' => ∃ k, outcome = ⟨k, []⟩ ∧ g.DeadRemoved k g') fun _ => False := by
    refine runs_bind (runs_bind (runs_graph fun notes => ?_))
    refine ((pruned_self hwf).runs_removeRounds hwf (Nat.lt_succ_self _)).imp
      (fun k g' hg' notes => ?_) fun _ hE => hE
    obtain ⟨hpruned, hend, hcount⟩ := hg'
    exact runs_pure ⟨k, rfl,
      { operators := fun _ => hpruned.operator_live_iff hwf hend
        data := fun _ => hpruned.data_live_iff hwf hend
        nodes := hpruned.nodes
        edges := hpruned.edges
        closed := fun _ _ => hpruned.live_of_joins hwf hend
        count := hcount }⟩
  cases hs : DeadRule.rule.run maxIterations ⟨g, notes⟩ with
  | ok outcome s =>
    obtain ⟨k, rfl, hremoved⟩ := hrun.of_ok hs
    exact ⟨k, s, rfl, hremoved⟩
  | error error s => exact (hrun.of_error hs).elim

/-- A graph input that is read three times: towards an output, by an operator without results, and
by the first of two operators that lead nowhere.  One data node has no neighbours. -/
def branchCommands : List (Command Float) :=
  [.addOperator "x" .parameter, .addOperator "relu" (.custom "Relu"), .addOperator "out" .output,
    .addOperator "first" (.custom "Relu"), .addOperator "second" (.custom "Relu"),
    .addData "idle" ⟨none, none, none⟩, .addOperator "print" (.custom "Print"),
    .link ⟨0, 0⟩ ⟨1, 0⟩, .link ⟨1, 0⟩ ⟨2, 0⟩, .link ⟨0, 0⟩ ⟨3, 0⟩, .link ⟨0, 0⟩ ⟨6, 0⟩,
    .link ⟨3, 0⟩ ⟨4, 0⟩, .addData "last" ⟨none, none, none⟩, .produce ⟨4, 0⟩ 10]

theorem branchCommands_run :
    ∃ s, DeadRule.rule.run 1 ⟨runCommands .nchw branchCommands, []⟩ = .ok ⟨5, []⟩ s ∧
      s.graph.ids = [0, 1, 2, 6, 7, 8] ∧ s.graph.hasNode 6 = true ∧ s.graph.hasNode 3 = false := by
  obtain ⟨outcome, s, hok, rfl, hleft⟩ :=
    exists_ok (DeadRule.rule.run 1) ⟨runCommands .nchw branchCommands, []⟩
      (fun outcome g => outcome = ⟨5, []⟩ ∧ g.ids = [0, 1, 2, 6, 7, 8] ∧
        g.hasNode 6 = true ∧ g.hasNode 3 = false) (by decide +kernel)
  exact ⟨s, hok, hleft⟩

/-- It takes three rounds: the second operator and the idle node go first, then the result of the
one and the first operator, and last the tensor between the two. -/
theorem branchCommands_removed :
    Reachable (runCommands .nchw branchCommands) ∧
    (runCommands .nchw branchCommands).Useful 6 ∧ ¬ (runCommands .nchw branchCommands).Useful 3 ∧
    ∃ s, DeadRule.rule.run 1 ⟨runCommands .nchw branchCommands, []⟩ = .ok ⟨5, []⟩ s ∧
      s.graph.ids = [0, 1, 2, 6, 7, 8] ∧
      (runCommands .nchw branchCommands).DeadRemoved 5 s.graph := by
  obtain ⟨s, hok, hids, hprint, hfirst⟩ := branchCommands_run
  obtain ⟨k, s', hok', hremoved⟩ := run_removes_dead
    (g := runCommands .nchw branchCommands) ⟨_, _, rfl⟩ 1 []
  rw [hok] at hok'
  cases hok'
  have huseful := (hremoved.operators 6 (by decide +kernel)).mp hprint
  have hdead : ¬ (runCommands .nchw branchCommands).Useful 3 := by
    rw [← hremoved.operators 3 (by decide +kernel), hfirst]
    decide
  exact ⟨⟨_, _, rfl⟩, huseful, hdead, s, hok, hids, hremoved⟩

end DeadRule

end TensorGraph
