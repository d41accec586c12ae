/-
  The wiring of a graph is two partial maps.

  `g.view.input` gives the data node that feeds an input port of an operator, `g.view.output` the
  one that is made at an output port.  A graph keeps neither.  What feeds a port and what makes a
  tensor is looked up in the table of incoming edges, and what a port makes and who reads a tensor
  in the table of outgoing ones, each time by the first edge that fits.  `TwoMaps` says that nothing
  of the difference can be seen: the two tables do not disagree (`Sound.inEdges_exact`,
  `Sound.outEdges_exact`), so the readers and the producer of a data node are the ports that the
  maps send to it.  And a successful edit of the wiring, which writes both tables edge by edge,
  updates the maps at the ports that it names, adds or removes the nodes that it names, and does
  nothing else.
-/
import TensorGraph.Proofs.Graph.View
import TensorGraph.Proofs.Reachable

namespace TensorGraph

open Relation Edit TensorGraph.Graph
open Function (update)

variable {α : Type} {g : Graph α} {notes : List LogEntry}

/-! ## The order of input ports -/

namespace InputPort

/-- One port comes before another, by node and then by index. -/
def Before (p q : InputPort) : Prop :=
  p.node < q.node ∨ p.node = q.node ∧ p.index < q.index

/-- The order of ports is that of nodes, and at one node that of indices. -/
theorem atMost_iff {p q : InputPort} : p.atMost q = true ↔ p.Before q ∨ p = q := by
  obtain ⟨a, i⟩ := p
  obtain ⟨b, j⟩ := q
  simp only [atMost, Before, Bool.or_eq_true, Bool.and_eq_true, decide_eq_true_eq, beq_iff_eq,
    mk.injEq]
  unfold NodeId
  omega

theorem atMost_total (p q : InputPort) : p.atMost q = true ∨ q.atMost p = true := by
  simp only [atMost, Bool.or_eq_true, Bool.and_eq_true, decide_eq_true_eq, beq_iff_eq]
  unfold NodeId
  omega

theorem atMost_trans (p q r : InputPort) (hpq : p.atMost q = true) (hqr : q.atMost r = true) :
    p.atMost r = true := by
  simp only [atMost, Bool.or_eq_true, Bool.and_eq_true, decide_eq_true_eq, beq_iff_eq] at *
  unfold NodeId at *
  omega

end InputPort

/-! ## Reading the maps backwards -/

namespace Graph.WellFormed

variable (hg : g.WellFormed)
include hg

/-- No reader is listed twice. -/
theorem readers_nodup (data : NodeId) : (g.readers data).Nodup := by
  rw [readers, (sorted_perm _ _).nodup_iff]
  have hnodup : (g.outEdges data).Nodup := by
    rw [hg.outEdges_eq]
    exact (List.Nodup.of_map _ hg.edge_ids_nodup).filter _
  refine hnodup.map_on fun e he f hf hsame => ?_
  obtain ⟨hdst, hport⟩ := InputPort.mk.inj hsame
  exact hg.inputs_distinct e (hg.mem_outEdges.mp he).1 f (hg.mem_outEdges.mp hf).1 hdst hport

/-- Readers are listed in increasing order. -/
theorem readers_increasing (data : NodeId) : (g.readers data).Pairwise InputPort.Before := by
  have hsorted : (g.readers data).Pairwise fun p q => p.atMost q = true :=
    sorted_pairwise InputPort.atMost_total InputPort.atMost_trans _
  refine (hsorted.and (hg.readers_nodup data)).imp fun h => ?_
  exact (InputPort.atMost_iff.mp h.1).resolve_right h.2

/-- Of an operator the readers are its results; elsewhere they are the ports that the node feeds. -/
theorem mem_readers_iff_input {d : NodeId} (hd : g.kind? d ≠ some .op) {p : InputPort} :
    p ∈ g.readers d ↔ g.view.input p = some d := by
  constructor
  · intro hp
    obtain ⟨i, hw⟩ := hg.mem_readers.mp hp
    rcases hg.wired_alternates hw with ⟨hop, -⟩ | ⟨hdata, -⟩
    · exact absurd hop hd
    · exact (hg.mem_readers_iff hdata).mp hp
  · intro hp
    exact (hg.mem_readers_iff (hg.view_input_kinds hp).2).mpr hp

/-- The producer of data is the port whose result it is. -/
theorem producer?_iff_output {d : NodeId} (hd : g.kind? d ≠ some .op) {o : OutputPort} :
    g.producer? d = some o ↔ g.view.output o = some d := by
  constructor
  · intro ho
    have hmade : ¬ ∀ w, g.Wired w → w.dst ≠ d := by
      rw [← hg.producer?_eq_none_iff, ho]
      exact Option.some_ne_none o
    push Not at hmade
    obtain ⟨w, hw, rfl⟩ := hmade
    rcases hg.wired_alternates hw with ⟨-, hdata, -⟩ | ⟨-, hop, -⟩
    · exact (hg.producer?_eq_some_iff hdata).mp ho
    · exact absurd hop hd
  · intro ho
    exact (hg.producer?_eq_some_iff (hg.view_output_kinds ho).2).mpr ho

end Graph.WellFormed

/-! ## Updates that change nothing -/

namespace View

variable {v : View α}

/-- A free port stays as it is. -/
theorem unplug_of_free {p : InputPort} (h : v.input p = none) : v.unplug p = v := by
  rw [unplug, ← h, Function.update_eq_self]

theorem release_of_free {o : OutputPort} (h : v.output o = none) : v.release o = v := by
  rw [release, ← h, Function.update_eq_self]

/-- Moving readers to where they are changes nothing. -/
theorem moveReaders_self (a : NodeId) : v.moveReaders a a = v := by
  refine ext_of_iff rfl (fun p d => ?_) fun _ _ => Iff.rfl
  rw [moveReaders_input]
  split
  · rename_i hp
    rw [hp]
  · rfl

end View

/-! ## Edits -/

/-- The graph is a way to store the maps `g.view.input` and `g.view.output`: it can be read as one,
and edits of the wiring change it as one. -/
structure TwoMaps (g : Graph α) (notes : List LogEntry) : Prop where
  readers : ∀ d p, g.kind? d ≠ some .op → (p ∈ g.readers d ↔ g.view.input p = some d)
  readers_increasing : ∀ d, (g.readers d).Pairwise InputPort.Before
  producer : ∀ d o, g.kind? d ≠ some .op → (g.producer? d = some o ↔ g.view.output o = some d)
  feed : ∀ d p s, feed d p ⟨g, notes⟩ = .ok () s →
    g.view.input p = none ∧ s.graph.view = g.view.feed d p
  produce : ∀ o d s, produce o d ⟨g, notes⟩ = .ok () s →
    g.view.output o = none ∧ (∀ q, g.view.output q ≠ some d) ∧ s.graph.view = g.view.produce o d
  link : ∀ o p d s, link o p ⟨g, notes⟩ = .ok d s → g.view.input p = none ∧
    (g.view.output o = some d ∧ s.graph.view = g.view.feed d p ∨
      g.view.output o = none ∧ g.view.node d = none ∧ d = g.nextNode ∧
        ∃ name, s.graph.view =
          ((g.view.setNode d (some ⟨d, name, .data {}, {}⟩)).produce o d).feed d p)
  unplug : ∀ p old s, unplug p ⟨g, notes⟩ = .ok old s →
    old = g.view.input p ∧ s.graph.view = g.view.unplug p
  release : ∀ o old s, release o ⟨g, notes⟩ = .ok old s →
    old = g.view.output o ∧ s.graph.view = g.view.release o
  moveInput : ∀ p q s, g.kind? p.node = some .op → moveInput p q ⟨g, notes⟩ = .ok () s →
    ∃ d, g.view.input p = some d ∧
      (p = q ∧ s.graph.view = g.view ∨
        g.view.input q = none ∧ s.graph.view = (g.view.unplug p).feed d q)
  moveReaders : ∀ a b s, moveReaders a b ⟨g, notes⟩ = .ok () s →
    s.graph.view = g.view.moveReaders a b
  removeNode : ∀ id n s, removeNode id ⟨g, notes⟩ = .ok n s →
    g.view.node id = some n ∧ s.graph.view = g.view.erase id

section Edits

variable (hg : g.WellFormed)
include hg

/-- A wire is admitted into a free port only. -/
theorem input_eq_none_of_admits {d : NodeId} {p : InputPort}
    (h : g.Admits ⟨d, 0, p.node, p.index⟩) : g.view.input p = none := by
  refine Option.eq_none_iff_forall_ne_some.mpr fun x hx => ?_
  exact h.input_free _ (hg.view_input_iff.mp hx).2 ⟨rfl, rfl⟩

/-- To feed a port adds one entry to the input map. -/
theorem runs_feed_view {d : NodeId} {p : InputPort} :
    Runs (feed d p) ⟨g, notes⟩
      (fun _ g' => g.view.input p = none ∧ g'.view = g.view.feed d p) fun _ => True := by
  refine runs_feed hg (fun hdata hadmits => ?_) fun _ => trivial
  have hop := hadmits.alternates.op_of_data hdata
  exact ⟨input_eq_none_of_admits hg hadmits, hg.view_insertEdge_feed hadmits hop⟩

/-- To produce adds one entry to the output map. -/
theorem runs_produce_view {o : OutputPort} {d : NodeId} :
    Runs (produce o d) ⟨g, notes⟩
      (fun _ g' => g.view.output o = none ∧ (∀ q, g.view.output q ≠ some d) ∧
        g'.view = g.view.produce o d) fun _ => True := by
  refine runs_produce hg (fun hop hadmits => ⟨?_, fun q hq => ?_, ?_⟩) fun _ => trivial
  · refine Option.eq_none_iff_forall_ne_some.mpr fun x hx => ?_
    exact hadmits.output_free hop _ (hg.view_output_iff.mp hx).2 ⟨rfl, rfl⟩
  · exact hadmits.input_free _ (hg.view_output_iff.mp hq).2 ⟨rfl, rfl⟩
  · exact hg.view_insertEdge_produce hadmits hop

/-- The new node comes first, then the wire that makes it, then the wire that reads it. -/
theorem view_insertLink {name : String} {o : OutputPort} {p : InputPort}
    (hsource : g.kind? o.node = some .op) (hport : g.kind? p.node = some .op)
    (hresult : g.result? o = none) (hfree : g.edgeInto? p = none)
    (hback : ¬ ReflTransGen g.Joins p.node o.node) :
    (g.insertLink name o p).view =
      ((g.view.setNode g.nextNode (some ⟨g.nextNode, name, .data {}, {}⟩)).produce o g.nextNode).feed
        g.nextNode p := by
  have hout := hg.edgeOutOf?_eq_none_iff.mp (Option.map_eq_none_iff.mp hresult)
  have hg₁ := hg.insertNode name (.data {})
  obtain ⟨hfirst, hsecond⟩ :
      (g.insertNode name (.data {})).Admits ⟨o.node, o.index, g.nextNode, 0⟩ ∧ _ :=
    hg.admits_insertLink hsource hport hout (hg.edgeInto?_eq_none_iff.mp hfree) hback
  -- the operators at both ends are not the new node
  have hkept : ∀ id, g.kind? id = some .op →
      (g.insertNode name (.data {})).kind? id = some .op := by
    intro id hop
    rw [kind?_insertNode hg.node?_nextNode, Function.update_of_ne, hop]
    exact hg.ne_nextNode (View.node_ne_none_of_kind (v := g.view) hop)
  rw [Graph.insertLink, (hg₁.insertEdge hfirst).view_insertEdge_feed hsecond (hkept _ hport),
    hg₁.view_insertEdge_produce hfirst (hkept _ hsource), hg.view_insertNode]

/-- A link feeds the port with the result of the other, which may be a new node. -/
theorem runs_link_view {o : OutputPort} {p : InputPort} :
    Runs (link o p) ⟨g, notes⟩
      (fun d g' => g.view.input p = none ∧
        (g.view.output o = some d ∧ g'.view = g.view.feed d p ∨
          g.view.output o = none ∧ g.view.node d = none ∧ d = g.nextNode ∧
            ∃ name, g'.view =
              ((g.view.setNode d (some ⟨d, name, .data {}, {}⟩)).produce o d).feed d p))
      fun _ => True := by
  refine runs_link hg ?_ ?_ fun _ => trivial
  · intro d hsource hresult hdata hadmits
    have hop := hadmits.alternates.op_of_data hdata
    refine ⟨input_eq_none_of_admits hg hadmits, .inl ⟨?_, hg.view_insertEdge_feed hadmits hop⟩⟩
    rw [view_output_of_op hsource, hresult]
  · intro name hsource hport hresult hfree hback
    refine ⟨?_, .inr ⟨?_, hg.node?_nextNode, rfl, name, ?_⟩⟩
    · rw [view_input_of_op hport, feeding?, hfree, Option.map_none]
    · rw [view_output_of_op hsource, hresult]
    · exact view_insertLink hg hsource hport hresult hfree hback

/-- To disconnect a port removes its entry from the input map. -/
theorem runs_unplug_view {p : InputPort} :
    Runs (unplug p) ⟨g, notes⟩
      (fun old g' => old = g.view.input p ∧ g'.view = g.view.unplug p) fun _ => True := by
  refine runs_unplug hg (fun e hop he => ?_) (fun hop he => ?_) fun _ => trivial
  · have hinput : g.view.input p = some e.src := by
      rw [view_input_of_op hop, feeding?, he, Option.map_some]
    exact ⟨hinput.symm, hg.view_eraseEdge he hop⟩
  · have hinput : g.view.input p = none := by
      rw [view_input_of_op hop, feeding?, he, Option.map_none]
    exact ⟨hinput.symm, (View.unplug_of_free hinput).symm⟩

/-- To release a result removes its entry from the output map. -/
theorem runs_release_view {o : OutputPort} :
    Runs (release o) ⟨g, notes⟩
      (fun old g' => old = g.view.output o ∧ g'.view = g.view.release o) fun _ => True := by
  refine runs_release hg (fun e hop he _ => ?_) (fun hop he => ?_) fun _ => trivial
  · have houtput : g.view.output o = some e.dst := by
      rw [view_output_of_op hop, result?, he, Option.map_some]
    exact ⟨houtput.symm, hg.view_eraseEdge_output he hop⟩
  · have houtput : g.view.output o = none := by
      rw [view_output_of_op hop, result?, he, Option.map_none]
    exact ⟨houtput.symm, (View.release_of_free houtput).symm⟩

/-- The edge at the old port goes first; the new one was checked beside it. -/
theorem runs_moveInput_view {p q : InputPort} (hop : g.kind? p.node = some .op) :
    Runs (moveInput p q) ⟨g, notes⟩
      (fun _ g' => ∃ d, g.view.input p = some d ∧
        (p = q ∧ g'.view = g.view ∨
          g.view.input q = none ∧ g'.view = (g.view.unplug p).feed d q)) fun _ => True := by
  have hfed : ∀ e, g.edgeInto? p = some e → g.view.input p = some e.src := by
    intro e he
    rw [view_input_of_op hop, feeding?, he, Option.map_some]
  refine runs_moveInput hg (fun e k he _ hk hadmits => ?_) (fun hused hsame => ?_) fun _ => trivial
  · have hdata := (hg.view_input_kinds (hfed e he)).2
    obtain rfl : k = .data := Option.some.inj (hk.symm.trans hdata)
    have hnew := hadmits.alternates.op_of_data hdata
    -- with one wire less the port is as free as before
    have hadmits' : (g.eraseEdge e.id).Admits ⟨e.src, 0, q.node, q.index⟩ :=
      hadmits.mono (kind?_eraseEdge g e.id) fun v hv =>
        ((hg.wired_eraseEdge (hg.edgeInto?_spec he).1).mp hv).1
    refine ⟨e.src, hfed e he, .inr ⟨input_eq_none_of_admits hg hadmits, ?_⟩⟩
    rw [← hg.view_eraseEdge he hop]
    exact (hg.eraseEdge e.id).view_insertEdge_feed hadmits' (kind?_eraseEdge g e.id ▸ hnew)
  · obtain ⟨e, he⟩ := Option.ne_none_iff_exists'.mp hused
    exact ⟨e.src, hfed e he, .inl ⟨hsame, rfl⟩⟩

/-- To move readers replaces one data node by the other in the input map. -/
theorem runs_moveReaders_view {a b : NodeId} :
    Runs (moveReaders a b) ⟨g, notes⟩ (fun _ g' => g'.view = g.view.moveReaders a b)
      fun _ => True := by
  refine runs_moveReaders hg (fun hold hnew _ hclear => ?_) (fun _ hsame => ?_) fun _ => trivial
  · exact (hg.view_refeedAll hold hnew hclear).2
  · -- moving the readers of a node to the node itself is allowed, and does nothing
    rw [hsame, View.moveReaders_self]

/-- To remove a node removes all entries that mention it. -/
theorem runs_removeNode_view {id : NodeId} :
    Runs (removeNode id) ⟨g, notes⟩
      (fun n g' => g.view.node id = some n ∧ g'.view = g.view.erase id) fun _ => True :=
  runs_removeNode hg (fun _ hn _ => ⟨hn, hg.view_eraseNode id⟩) fun _ => trivial

end Edits

/-- Every reachable graph stores two maps. -/
theorem reachable_twoMaps [Scalar α] (hg : Reachable g) (notes : List LogEntry) :
    TwoMaps g notes where
  readers _ _ hd := hg.wellFormed.mem_readers_iff_input hd
  readers_increasing := hg.wellFormed.readers_increasing
  producer _ _ hd := hg.wellFormed.producer?_iff_output hd
  feed _ _ _ hok := (runs_feed_view hg.wellFormed).of_ok hok
  produce _ _ _ hok := (runs_produce_view hg.wellFormed).of_ok hok
  link _ _ _ _ hok := (runs_link_view hg.wellFormed).of_ok hok
  unplug _ _ _ hok := (runs_unplug_view hg.wellFormed).of_ok hok
  release _ _ _ hok := (runs_release_view hg.wellFormed).of_ok hok
  moveInput _ _ _ hop hok := (runs_moveInput_view hg.wellFormed hop).of_ok hok
  moveReaders _ _ _ hok := (runs_moveReaders_view hg.wellFormed).of_ok hok
  removeNode _ _ _ hok := (runs_removeNode_view hg.wellFormed).of_ok hok

/-- Two permutes read a graph input, at different ports; a data node stands apart. -/
def forkCommands : List (Command Float) :=
  [.addOperator "x" .parameter, .addOperator "first" (.permute [1, 0]),
    .addOperator "second" (.permute [1, 0]), .addData "spare" ⟨none, none, none⟩,
    .link ⟨0, 0⟩ ⟨2, 1⟩, .link ⟨0, 0⟩ ⟨1, 0⟩]

/-- The second operator has no result yet, so the link adds a node. -/
theorem forkCommands_link :
    ∃ s, link ⟨1, 0⟩ ⟨2, 0⟩ ⟨runCommands .nchw forkCommands, []⟩ = .ok 5 s := by
  obtain ⟨d, s, hok, rfl⟩ := exists_ok (link ⟨1, 0⟩ ⟨2, 0⟩) ⟨runCommands .nchw forkCommands, []⟩
    (fun d _ => d = 5) (by decide +kernel)
  exact ⟨s, hok⟩

/-- The readers of one result can be moved to the other. -/
theorem forkCommands_move :
    ∃ s, moveReaders 4 3 ⟨runCommands .nchw forkCommands, []⟩ = .ok () s := by
  obtain ⟨_, s, hok, -⟩ := exists_ok (moveReaders 4 3) ⟨runCommands .nchw forkCommands, []⟩
    (fun _ _ => True) (by decide +kernel)
  exact ⟨s, hok⟩

/-- Both permutes can be moved to the other data node at once, and the first one can feed the second
through a new one. -/
theorem forkCommands_twoMaps :
    Reachable (runCommands .nchw forkCommands) ∧
    (runCommands .nchw forkCommands).readers 4 = [⟨1, 0⟩, ⟨2, 1⟩] ∧
    (∀ p, (runCommands .nchw forkCommands).view.input p = some 4 ↔ p = ⟨1, 0⟩ ∨ p = ⟨2, 1⟩) ∧
    (∃ s, moveReaders 4 3 ⟨runCommands .nchw forkCommands, []⟩ = .ok () s ∧
      s.graph.view = (runCommands .nchw forkCommands).view.moveReaders 4 3) ∧
    ∃ s name, link ⟨1, 0⟩ ⟨2, 0⟩ ⟨runCommands .nchw forkCommands, []⟩ = .ok 5 s ∧
      s.graph.view = (((runCommands .nchw forkCommands).view.setNode 5
        (some ⟨5, name, .data {}, {}⟩)).produce ⟨1, 0⟩ 5).feed 5 ⟨2, 0⟩ := by
  have hmaps : TwoMaps (runCommands .nchw forkCommands) [] := reachable_twoMaps ⟨_, _, rfl⟩ []
  have hreaders : (runCommands .nchw forkCommands).readers 4 = [⟨1, 0⟩, ⟨2, 1⟩] := by
    decide +kernel
  have hdata : (runCommands .nchw forkCommands).kind? 4 ≠ some .op := by decide +kernel
  obtain ⟨s, hmoved⟩ := forkCommands_move
  obtain ⟨s', hlinked⟩ := forkCommands_link
  refine ⟨⟨_, _, rfl⟩, hreaders, fun p => ?_, ⟨s, hmoved, hmaps.moveReaders _ _ _ hmoved⟩, s', ?_⟩
  · rw [← hmaps.readers 4 p hdata, hreaders]
    simp
  · rcases (hmaps.link _ _ _ _ hlinked).2 with ⟨hused, -⟩ | ⟨-, -, -, name, hview⟩
    · have hfree : (runCommands .nchw forkCommands).view.output ⟨1, 0⟩ = none := by decide +kernel
      rw [hfree] at hused
      cases hused
    · exact ⟨name, hlinked, hview⟩

end TensorGraph
