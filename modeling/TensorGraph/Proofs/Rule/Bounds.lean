/-
  What re-indexing a slice does to the graph, and what it leaves alone.

  The bounds of a slice may be shared with each other, with its data input and with other operators.
  Each bound is stored in place if its port is the only one left to read it, and as a private copy
  otherwise, so a node that feeds two bounds is copied for the first of them and edited for the
  second.  The invariant of that loop is `Storing`: the bounds still to come are read where they
  were and have not changed, those that are done hold the new value for themselves, and everything
  else is as it was.  The edges are followed separately (`EdgesKept`), since a view does not have
  their ids.

  `Reindexed` gathers all of it, and `runs_commit_reindexed` proves it of every accepted plan.
-/
import TensorGraph.Proofs.Masks
import TensorGraph.Proofs.Reachable
import TensorGraph.Proofs.Rule.Shapes

namespace TensorGraph.SliceRule

open Edit TensorGraph.Graph
open Function (update)

variable {α : Type} {g : Graph α} {slice : NodeId} {b : Bound α} {constant copy : Node α}

/-! ## One bound is stored -/

section Copied

variable {v : View α}

/-- After a bound is copied, its port reads the copy. -/
theorem copied_input (q : InputPort) :
    (copied v slice b constant copy).input q =
      if q = ⟨slice, b.port⟩ then some copy.id else v.input q := by
  simp only [copied, View.feed_input, View.unplug_input, View.produce_input, View.setNode_input,
    Function.update_apply]
  split <;> rfl

/-- After a bound is copied, the new constant makes the copy. -/
theorem copied_output (q : OutputPort) :
    (copied v slice b constant copy).output q =
      if q = ⟨constant.id, 0⟩ then some copy.id else v.output q := by
  simp only [copied, View.feed_output, View.unplug_output, View.produce_output,
    View.setNode_output, Function.update_apply]

theorem copied_input_self :
    (copied v slice b constant copy).input ⟨slice, b.port⟩ = some copy.id := by
  rw [copied_input, if_pos rfl]

theorem copied_input_of_ne {port : Nat} (h : port ≠ b.port) :
    (copied v slice b constant copy).input ⟨slice, port⟩ = v.input ⟨slice, port⟩ := by
  rw [copied_input, if_neg (by simpa using h)]

theorem copied_node_copy : (copied v slice b constant copy).node copy.id = some copy := by
  simp [copied]

end Copied

/-- The port of the bound reads a node of its own that has the new value. -/
def Holds (v : View α) (slice : NodeId) (b : Bound α) : Prop :=
  ∃ d c, v.input ⟨slice, b.port⟩ = some d ∧ v.content d = some c ∧ c.value = some b.value ∧
    c.shape = some b.value.shape ∧ ∀ q, v.input q = some d → q = ⟨slice, b.port⟩

/-- The node is a private copy of the bound, or its source. -/
def IsCopy (base v : View α) (slice : NodeId) (b : Bound α) (id : NodeId) (n : Node α) : Prop :=
  (n.payload = .data (.constant b.value) ∧ v.input ⟨slice, b.port⟩ = some id) ∨
    (n.payload = .op (.ofOperation .const) ∧ ∃ copy, base.node copy = none ∧
      v.output ⟨id, 0⟩ = some copy ∧ v.input ⟨slice, b.port⟩ = some copy)

section Copies

variable {b' : Bound α} (hg : g.WellFormed) (hcopies : Copies g.view b constant copy)
include hg hcopies

/-- The slice holds the bound that was copied. -/
theorem holds_copied : Holds (copied g.view slice b constant copy) slice b := by
  refine ⟨copy.id, _, copied_input_self,
    View.content_eq_some_iff.mpr ⟨copy, copied_node_copy, hcopies.copy⟩, rfl, rfl,
    fun q hq => ?_⟩
  rw [copied_input] at hq
  split at hq
  · assumption
  · exact absurd hcopies.copy_unused (hg.live_of_input hq).2

/-- The slice goes on holding its other bounds. -/
theorem Holds.copied_other (h : Holds g.view slice b') (hne : b'.port ≠ b.port) :
    Holds (copied g.view slice b constant copy) slice b' := by
  obtain ⟨d, c, hinput, hc, hvalue, hshape, hprivate⟩ := h
  have hd := (hg.live_of_input hinput).2
  refine ⟨d, c, ?_, ?_, hvalue, hshape, fun q hq => ?_⟩
  · rw [copied_input_of_ne hne, hinput]
  · rw [View.content, copied_node_old hcopies hd]
    exact hc
  · rw [copied_input] at hq
    split at hq
    · obtain rfl := Option.some.inj hq
      exact absurd hcopies.copy_unused hd
    · exact hprivate q hq

/-- An earlier copy is not what the bound in hand reads, since that is an old node. -/
theorem IsCopy.copied_other {base : View α} (hreads : g.view.input ⟨slice, b.port⟩ = some b.data)
    (hlive : base.node b.data ≠ none) {id : NodeId} {n : Node α} (hnone : base.node id = none)
    (h : IsCopy base g.view slice b' id n) :
    IsCopy base (copied g.view slice b constant copy) slice b' id n := by
  have hport : ∀ {d}, base.node d = none → g.view.input ⟨slice, b'.port⟩ = some d →
      (copied g.view slice b constant copy).input ⟨slice, b'.port⟩ = some d := by
    intro d hd hinput
    rw [copied_input_of_ne, hinput]
    intro heq
    rw [heq, hreads] at hinput
    exact hlive (Option.some.inj hinput ▸ hd)
  rcases h with ⟨hpayload, hinput⟩ | ⟨hpayload, d, hd, houtput, hinput⟩
  · exact .inl ⟨hpayload, hport hnone hinput⟩
  · refine .inr ⟨hpayload, d, hd, ?_, hport hd hinput⟩
    rw [copied_output, if_neg, houtput]
    intro heq
    exact (hg.live_of_output houtput).1 (by rw [heq]; exact hcopies.constant_unused)

end Copies

/-- Where `v` has come to from `base` when the bounds `rest` are still to be stored. -/
structure Storing (base : View α) (slice : NodeId) (bounds rest : List (Bound α)) (v : View α) :
    Prop where
  suffix : rest <:+ bounds
  /-- The bounds still to come are read where they were and are what they were. -/
  waiting : ∀ b ∈ rest, v.input ⟨slice, b.port⟩ = some b.data ∧ v.node b.data = base.node b.data
  stored : ∀ b ∈ bounds, b ∈ rest ∨ Holds v slice b
  /-- All other ports read the nodes that they read, as they were. -/
  reading : ∀ q, (∀ b ∈ bounds, q ≠ ⟨slice, b.port⟩) →
    v.input q = base.input q ∧ ∀ d, v.input q = some d → v.node d = base.node d
  making : ∀ q, base.node q.node ≠ none → v.output q = base.output q
  /-- A node is as it was, or it holds a bound that was stored in place. -/
  node : ∀ id n, base.node id = some n → v.node id = some n ∨
    ∃ b ∈ bounds, b.data = id ∧ v.input ⟨slice, b.port⟩ = some id ∧ ∃ c, n.payload = .data c ∧
      v.node id =
        some { n with payload := .data { c with value := some b.value, shape := some b.value.shape } }
  added : ∀ id n, base.node id = none → v.node id = some n →
    ∃ b ∈ bounds, IsCopy base v slice b id n

/-- At the start all bounds are still to be stored. -/
theorem Storing.start {base : View α} {bounds : List (Bound α)}
    (hreads : ∀ b ∈ bounds, Reads base slice b) : Storing base slice bounds bounds base where
  suffix := List.suffix_rfl
  waiting := fun b hb => ⟨(hreads b hb).1, rfl⟩
  stored := fun _ hb => .inl hb
  reading := fun _ _ => ⟨rfl, fun _ _ => rfl⟩
  making := fun _ _ => rfl
  node := fun _ _ hn => .inl hn
  added := fun _ _ hnone hn => absurd (hnone.symm.trans hn) (by simp)

namespace Storing

variable {base : View α} {bounds rest : List (Bound α)} (hg : g.WellFormed)
  (h : Storing base slice bounds (b :: rest) g.view) (hports : (bounds.map (·.port)).Nodup)
include hg h

omit hg in
theorem mem : b ∈ bounds := h.suffix.subset List.mem_cons_self

omit hg in
/-- A waiting bound is read where it was. -/
theorem reads : g.view.input ⟨slice, b.port⟩ = some b.data :=
  (h.waiting b List.mem_cons_self).1

theorem base_live : base.node b.data ≠ none := by
  obtain ⟨hinput, hnode⟩ := h.waiting b List.mem_cons_self
  rw [← hnode]
  exact (hg.live_of_input hinput).2

omit hg in
/-- What was live at the start is live. -/
theorem live {id : NodeId} (hid : base.node id ≠ none) : g.view.node id ≠ none := by
  obtain ⟨n, hn⟩ := Option.ne_none_iff_exists'.mp hid
  rcases h.node id n hn with hsame | ⟨b', -, -, -, c, -, hstored⟩
  · rw [hsame]
    exact Option.some_ne_none n
  · rw [hstored]
    exact Option.some_ne_none _

include hports

omit hg in
/-- Different bounds are at different ports. -/
theorem port_ne {b' : Bound α} (hmem : b' ∈ bounds) (hne : b' ≠ b) : b'.port ≠ b.port :=
  fun heq => hne (List.inj_on_of_nodup_map hports hmem h.mem heq)

omit hg in
theorem port_ne_of_rest {b' : Bound α} (hrest : b' ∈ rest) : b'.port ≠ b.port := by
  have hnodup := hports.sublist (h.suffix.sublist.map _)
  intro heq
  exact (List.nodup_cons.mp hnodup).1 (List.mem_map.mpr ⟨b', hrest, heq⟩)

/-- A bound that nothing else reads is stored in place. -/
theorem store (hone : ∀ q, g.view.input q = some b.data → q = ⟨slice, b.port⟩) :
    Storing base slice bounds rest (g.view.store b.data b.value) := by
  have hreads := h.reads
  have hinputs : (g.view.store b.data b.value).input = g.view.input := View.store_input
  obtain ⟨n, hn⟩ := Option.ne_none_iff_exists'.mp (h.base_live hg)
  have hnode : g.view.node b.data = some n := by
    rw [(h.waiting b List.mem_cons_self).2, hn]
  obtain ⟨c, hc⟩ := kind?_eq_data.mp (hg.view_input_kinds hreads).2
  change g.view.content b.data = some c at hc
  have hpayload : n.payload = .data c := by
    obtain ⟨n', hn', hpayload⟩ := View.content_eq_some_iff.mp hc
    rwa [Option.some.inj (hnode.symm.trans hn')]
  refine ⟨(List.suffix_cons b rest).trans h.suffix, fun b' hb' => ?_, fun b' hb' => ?_,
    fun q hq => ?_, fun q hq => ?_, fun id n' hn' => ?_, fun id n' hnone hn' => ?_⟩
  · obtain ⟨hinput, hsame⟩ := h.waiting b' (List.mem_cons_of_mem _ hb')
    rw [hinputs, View.store_node_of_ne]
    · exact ⟨hinput, hsame⟩
    · intro heq
      rw [heq] at hinput
      exact h.port_ne_of_rest hports hb' (congrArg InputPort.index (hone _ hinput))
  · by_cases heq : b' = b
    · subst heq
      refine .inr ⟨b'.data, _, ?_, View.store_content_self hc, rfl, rfl, ?_⟩ <;> rw [hinputs]
      · exact hreads
      · exact hone
    rcases h.stored b' hb' with hwait | ⟨d, c', hinput, hc', hvalue, hshape, hprivate⟩
    · exact .inl ((List.mem_cons.mp hwait).resolve_left heq)
    · refine .inr ⟨d, c', hinputs ▸ hinput, ?_, hvalue, hshape, hinputs ▸ hprivate⟩
      rw [View.store_content_of_ne, hc']
      rintro rfl
      exact h.port_ne hports hb' heq (congrArg InputPort.index (hone _ hinput))
  · obtain ⟨hinput, hsame⟩ := h.reading q hq
    rw [hinputs]
    refine ⟨hinput, fun d hd => ?_⟩
    rw [View.store_node_of_ne, hsame d hd]
    rintro rfl
    exact hq b h.mem (hone q hd)
  · rw [View.store_output]
    exact h.making q hq
  · by_cases hid : id = b.data
    · subst hid
      obtain rfl := Option.some.inj (hn.symm.trans hn')
      refine .inr ⟨b, h.mem, rfl, hinputs ▸ hreads, c, hpayload, ?_⟩
      simp [View.store, hc, View.setPayload, hnode]
    · rw [View.store_node_of_ne hid, hinputs]
      exact h.node id n' hn'
  · have hid : id ≠ b.data := fun heq => h.base_live hg (heq ▸ hnone)
    rw [View.store_node_of_ne hid] at hn'
    obtain ⟨b', hb', hcopy⟩ := h.added id n' hnone hn'
    refine ⟨b', hb', ?_⟩
    simpa only [IsCopy, View.store_input, View.store_output] using hcopy

/-- A bound that something else reads gets a private copy. -/
theorem replace (hcopies : Copies g.view b constant copy) :
    Storing base slice bounds rest (copied g.view slice b constant copy) := by
  have hreads := h.reads
  refine ⟨(List.suffix_cons b rest).trans h.suffix, fun b' hb' => ?_, fun b' hb' => ?_,
    fun q hq => ?_, fun q hq => ?_, fun id n hn => ?_, fun id n hnone hn => ?_⟩
  · obtain ⟨hinput, hsame⟩ := h.waiting b' (List.mem_cons_of_mem _ hb')
    rw [copied_input_of_ne (h.port_ne_of_rest hports hb'),
      copied_node_old hcopies (hg.live_of_input hinput).2]
    exact ⟨hinput, hsame⟩
  · by_cases heq : b' = b
    · subst heq
      exact .inr (holds_copied hg hcopies)
    rcases h.stored b' hb' with hwait | hholds
    · exact .inl ((List.mem_cons.mp hwait).resolve_left heq)
    · exact .inr (hholds.copied_other hg hcopies (h.port_ne hports hb' heq))
  · obtain ⟨hinput, hsame⟩ := h.reading q hq
    rw [copied_input, if_neg (hq b h.mem)]
    refine ⟨hinput, fun d hd => ?_⟩
    rw [copied_node_old hcopies (hg.live_of_input hd).2, hsame d hd]
  · have hne : q ≠ ⟨constant.id, 0⟩ := by
      rintro rfl
      exact h.live hq hcopies.constant_unused
    rw [copied_output, if_neg hne, h.making q hq]
  · have hbase : base.node id ≠ none := by
      rw [hn]
      exact Option.some_ne_none n
    rw [copied_node_old hcopies (h.live hbase)]
    by_cases hid : id = b.data
    · subst hid
      exact .inl ((h.waiting b List.mem_cons_self).2.trans hn)
    · refine (h.node id n hn).imp_right ?_
      rintro ⟨b', hb', hdata, hinput, hstored⟩
      refine ⟨b', hb', hdata, ?_, hstored⟩
      rw [copied_input_of_ne, hinput]
      intro heq
      rw [heq, hreads] at hinput
      exact hid (Option.some.inj hinput).symm
  · rcases copied_node_eq_some hn with ⟨rfl, rfl⟩ | ⟨rfl, rfl⟩ | hold
    · refine ⟨b, h.mem, .inr ⟨hcopies.constant, copy.id, ?_, ?_, copied_input_self⟩⟩
      · exact not_not.mp fun hbase => h.live hbase hcopies.copy_unused
      · rw [copied_output, if_pos rfl]
    · exact ⟨b, h.mem, .inl ⟨hcopies.copy, copied_input_self⟩⟩
    · obtain ⟨b', hb', hcopy⟩ := h.added id n hnone hold
      exact ⟨b', hb', hcopy.copied_other hg hcopies hreads (h.base_live hg) hnone⟩

end Storing

/-! ## Edges -/

/-- The edges of `base` are still there, those of some ports of the slice apart, which may start at
a new node instead.  All other new edges join new nodes. -/
structure EdgesKept (base : Graph α) (slice : NodeId) (ports : List Nat) (g : Graph α) : Prop where
  layout : g.layout = base.layout
  counter : base.nextNode ≤ g.nextNode
  kept : ∀ e ∈ base.edges, e ∈ g.edges ∨ (e.dst = slice ∧ e.dstPort ∈ ports ∧
    ∃ f ∈ g.edges, f.target = e.target ∧ base.nextNode ≤ f.src)
  added : ∀ e ∈ g.edges, e ∈ base.edges ∨ (base.nextNode ≤ e.src ∧
    (base.nextNode ≤ e.dst ∨ (e.dst = slice ∧ e.dstPort ∈ ports)))

namespace EdgesKept

variable {base : Graph α} {ports : List Nat} (h : EdgesKept base slice ports g)
include h

/-- A new node keeps all edges. -/
theorem insertNode (name : String) (payload : Payload α) :
    EdgesKept base slice ports (g.insertNode name payload) :=
  ⟨h.layout, Nat.le_succ_of_le h.counter, h.kept, h.added⟩

/-- A new edge starts at a new node. -/
theorem insertEdge {w : Wire} (hsrc : base.nextNode ≤ w.src)
    (hdst : base.nextNode ≤ w.dst ∨ (w.dst = slice ∧ w.dstPort ∈ ports)) :
    EdgesKept base slice ports (g.insertEdge w) := by
  refine ⟨h.layout, h.counter, fun e he => ?_, fun e he => ?_⟩
  · rcases h.kept e he with hkept | ⟨hslice, hport, f, hf, htarget⟩
    · exact .inl (List.mem_append_left _ hkept)
    · exact .inr ⟨hslice, hport, f, List.mem_append_left _ hf, htarget⟩
  · rcases List.mem_append.mp he with hold | hnew
    · exact h.added e hold
    · obtain rfl := List.mem_singleton.mp hnew
      exact .inr ⟨hsrc, hdst⟩

/-- A port of the slice reads a new node instead. -/
theorem refeed (hg : g.WellFormed) {port : Nat} {copy : NodeId} {e : Edge}
    (he : g.edgeInto? ⟨slice, port⟩ = some e) (hport : port ∈ ports)
    (hcopy : base.nextNode ≤ copy) :
    EdgesKept base slice ports ((g.eraseEdge e.id).insertEdge ⟨copy, 0, slice, port⟩) := by
  obtain ⟨hmem, hdst, hindex⟩ := hg.edgeInto?_spec he
  -- an edge that is erased ends where the new one does
  have hstays : ∀ f ∈ g.edges, f.target ≠ ⟨slice, port⟩ →
      f ∈ ((g.eraseEdge e.id).insertEdge ⟨copy, 0, slice, port⟩).edges := by
    intro f hf htarget
    refine List.mem_append_left _ (mem_edges_eraseEdge.mpr ⟨hf, fun hid => ?_⟩)
    obtain rfl := List.inj_on_of_nodup_map hg.edge_ids_nodup hf hmem hid
    exact htarget (by rw [Wire.target, hdst, hindex])
  have hnew : ∃ f ∈ ((g.eraseEdge e.id).insertEdge ⟨copy, 0, slice, port⟩).edges,
      f.target = ⟨slice, port⟩ ∧ base.nextNode ≤ f.src :=
    ⟨_, List.mem_append_right _ (List.mem_singleton_self _), rfl, hcopy⟩
  refine ⟨(layout_eraseEdge g e.id).trans h.layout,
    h.counter.trans_eq (nextNode_eraseEdge g e.id).symm, fun f hf => ?_, fun f hf => ?_⟩
  · by_cases htarget : f.target = ⟨slice, port⟩
    · obtain ⟨hslice, hindex⟩ := InputPort.mk.inj htarget
      exact .inr ⟨hslice, hindex ▸ hport, htarget ▸ hnew⟩
    rcases h.kept f hf with hkept | ⟨hslice, hport', f', hf', htarget', hsrc⟩
    · exact .inl (hstays f hkept htarget)
    · exact .inr ⟨hslice, hport', f', hstays f' hf' (htarget' ▸ htarget), htarget', hsrc⟩
  · rcases List.mem_append.mp hf with hold | hnew
    · exact h.added f (mem_edges_eraseEdge.mp hold).1
    · obtain rfl := List.mem_singleton.mp hnew
      exact .inr ⟨hcopy, .inr ⟨rfl, hport⟩⟩

end EdgesKept

variable {notes : List LogEntry} {E : Graph α → Prop}

/-- The edits behind the insertion of a copy and its source. -/
theorem runs_attach_edges {base : Graph α} {ports : List Nat} (hg : g.WellFormed)
    (h : EdgesKept base slice ports g) {constant copy : NodeId} {port : Nat} (hport : port ∈ ports)
    (hconstant : base.nextNode ≤ constant) (hcopy : base.nextNode ≤ copy) {level : LogLevel}
    {text : String} :
    Runs (do
      Edit.produce ⟨constant, 0⟩ copy
      let _ ← Edit.unplug ⟨slice, port⟩
      Edit.feed copy ⟨slice, port⟩
      Edit.log level text) ⟨g, notes⟩
      (fun _ g' => g'.WellFormed ∧ EdgesKept base slice ports g') fun _ => True := by
  refine runs_bind (runs_produce hg (fun _ hadmits _ => ?_) fun _ => trivial)
  have hg₁ := hg.insertEdge hadmits
  have h₁ := h.insertEdge (w := ⟨constant, 0, copy, 0⟩) hconstant (.inl hcopy)
  refine runs_bind (runs_unplug hg₁ (fun e _ he _ => ?_) (fun _ _ _ => ?_) fun _ => trivial)
  · refine runs_bind (runs_feed (hg₁.eraseEdge e.id) (fun _ hadmits' _ => ?_) fun _ => trivial)
    exact runs_log ⟨(hg₁.eraseEdge e.id).insertEdge hadmits', h₁.refeed hg₁ he hport hcopy⟩
  · refine runs_bind (runs_feed hg₁ (fun _ hadmits' _ => ?_) fun _ => trivial)
    exact runs_log ⟨hg₁.insertEdge hadmits', h₁.insertEdge hcopy (.inr ⟨rfl, hport⟩)⟩

/-- Storing a bound keeps all edges but the one at its port. -/
theorem runs_storeBound_edges {base : Graph α} {ports : List Nat} (hg : g.WellFormed)
    (h : EdgesKept base slice ports g) (hport : b.port ∈ ports) :
    Runs (storeBound slice b) ⟨g, notes⟩
      (fun _ g' => g'.WellFormed ∧ EdgesKept base slice ports g') fun _ => True := by
  refine runs_bind (runs_graph fun notes => ?_)
  split
  · refine runs_modifyContent (fun c hc => ⟨?_, h.layout, h.counter, h.kept, h.added⟩) fun _ => trivial
    exact hg.setPayload (kind?_setPayload_data (kind?_eq_data.mpr ⟨c, hc⟩))
  · refine runs_bind (runs_query (fun n _ notes => ?_) fun _ _ => trivial)
    refine runs_bind (runs_graph fun _ => runs_bind (runs_addNode fun _ => ?_))
    refine runs_bind (runs_graph fun _ => runs_bind (runs_addNode fun _ => ?_))
    exact runs_attach_edges ((hg.insertNode _ _).insertNode _ _)
      ((h.insertNode _ _).insertNode _ _) hport h.counter (Nat.le_succ_of_le h.counter)

/-- A commit touches no edges but those of the bounds. -/
theorem runs_commit_edges {p : Plan α} (hg : g.WellFormed) :
    Runs (commit p) ⟨g, notes⟩ (fun _ => EdgesKept g p.slice (p.bounds.map (·.port)))
      fun _ => True := by
  have hstart : EdgesKept g p.slice (p.bounds.map (·.port)) g :=
    ⟨rfl, le_rfl, fun _ he => .inl he, fun _ he => .inl he⟩
  refine runs_bind (runs_setOperation (fun o ho notes => ?_) fun _ => trivial)
  refine (runs_forM (fun rest g' => rest ⊆ p.bounds ∧ g'.WellFormed ∧
    EdgesKept g p.slice (p.bounds.map (·.port)) g') ?_ p.bounds ⟨_, notes⟩
    ⟨List.Subset.refl _, hg.setPayload (kind?_setPayload_op (kind?_eq_op.mpr ⟨o, ho⟩)),
      hstart.layout, hstart.counter, hstart.kept, hstart.added⟩).imp (fun _ _ h => h.2.2) fun _ h => h
  rintro b rest ⟨g', notes⟩ ⟨hsub, hg', h⟩
  refine (runs_storeBound_edges hg' h ?_).imp (fun _ _ h => ⟨fun _ hb => ?_, h⟩) fun _ h => h
  · exact List.mem_map.mpr ⟨b, hsub List.mem_cons_self, rfl⟩
  · exact hsub (List.mem_cons_of_mem _ hb)

/-! ## The plan -/

/-- The port reads these integers, of this type. -/
def ReadsIntegers (v : View α) (q : InputPort) (type : ElementType) (entries : List Int64) : Prop :=
  ∃ d c value, v.input q = some d ∧ v.content d = some c ∧ c.value = some value ∧
    value.type = type ∧ value.integers = .ok entries

/-- A re-indexed bound: its port reads integers, and the new value has them where the permutation
puts them. -/
def Moved (v : View α) (slice : NodeId) (p : Permutation) (ellipsis : Option Nat) (fill : Int64)
    (b : Bound α) : Prop :=
  ∃ type entries, ReadsIntegers v ⟨slice, b.port⟩ type entries ∧
    b.value = Tensor.ofIntegers (p.scatter ellipsis fill entries) type

/-- Every connected port has its bound. -/
theorem planBounds_moved {p : Permutation} {ellipsis : Option Nat}
    (hop : g.kind? slice = some .op) {ports : List (Nat × Int64)} {bounds : List (Bound α)}
    (h : planBounds g slice p ellipsis ports = .ok bounds) :
    (∀ b ∈ bounds, ∃ x ∈ ports, b.port = x.1 ∧ Moved g.view slice p ellipsis x.2 b) ∧
      ∀ x ∈ ports, g.view.input ⟨slice, x.1⟩ ≠ none →
        ∃ b ∈ bounds, b.port = x.1 ∧ Moved g.view slice p ellipsis x.2 b := by
  induction ports generalizing bounds with
  | nil =>
    cases h
    simp
  | cons entry ports ih =>
    obtain ⟨port, fill⟩ := entry
    rw [planBounds] at h
    split at h
    · rename_i hnone
      rw [← view_input_of_op (p := ⟨slice, port⟩) hop] at hnone
      obtain ⟨hmoved, hports⟩ := ih h
      refine ⟨fun b hb => ?_, List.forall_mem_cons.mpr ⟨fun hread => absurd hnone hread, hports⟩⟩
      obtain ⟨x, hx, hb⟩ := hmoved b hb
      exact ⟨x, List.mem_cons_of_mem _ hx, hb⟩
    · rename_i data hdata
      rw [← view_input_of_op (p := ⟨slice, port⟩) hop] at hdata
      obtain ⟨c, hc, h⟩ := planning_bind_eq_ok.mp h
      split at h
      case h_2 => cases h
      rename_i value hvalue
      obtain ⟨_, h⟩ := planning_halt_unless_eq_ok.mp h
      obtain ⟨entries, hentries, h⟩ := planning_bind_eq_ok.mp h
      obtain ⟨rest, hrest, h⟩ := except_bind_eq_ok.mp h
      cases h
      have hhead : Moved g.view slice p ellipsis fill
          ⟨port, data, Tensor.ofIntegers (p.scatter ellipsis fill entries) value.type⟩ :=
        ⟨value.type, entries, ⟨data, c, value, hdata, content_eq_ok.mp hc, hvalue, rfl, hentries⟩,
          rfl⟩
      obtain ⟨hmoved, hports⟩ := ih hrest
      refine ⟨List.forall_mem_cons.mpr ⟨⟨(port, fill), List.mem_cons_self, rfl, hhead⟩, ?_⟩,
        List.forall_mem_cons.mpr ⟨fun _ => ⟨_, List.mem_cons_self, rfl, hhead⟩, ?_⟩⟩
      · intro b hb
        obtain ⟨x, hx, hb⟩ := hmoved b hb
        exact ⟨x, List.mem_cons_of_mem _ hx, hb⟩
      · intro x hx hread
        obtain ⟨b, hb, hmoved⟩ := hports x hx hread
        exact ⟨b, List.mem_cons_of_mem _ hb, hmoved⟩

/-- What an accepted plan was made for. -/
structure Planned (g : Graph α) (p : Plan α) (masks : SliceMasks) (inference : Option Inference)
    (outShape : Shape) : Prop where
  operator : g.operator? p.slice = some ⟨.stridedSlice masks, inference⟩
  makes : ∃ out, g.view.output ⟨p.slice, 0⟩ = some out ∧ g.view.shape out = some outShape
  permuted : p.masks = masks.permute (Permutation.channelsFirst (outShape.length + masks.shrunkAxes))
  moved : ∀ b ∈ p.bounds, ∃ x ∈ boundPorts, b.port = x.1 ∧ Moved g.view p.slice
    (Permutation.channelsFirst (outShape.length + masks.shrunkAxes)) masks.ellipsisAt? x.2 b
  complete : ∀ x ∈ boundPorts, g.view.input ⟨p.slice, x.1⟩ ≠ none →
    ∃ b ∈ p.bounds, b.port = x.1 ∧ Moved g.view p.slice
      (Permutation.channelsFirst (outShape.length + masks.shrunkAxes)) masks.ellipsisAt? x.2 b

/-- A rank that is known is that of a stored shape. -/
theorem rank_eq_some {data : Option NodeId} {n : Nat} (h : rank g data = .ok (some n)) :
    ∃ d s, data = some d ∧ g.view.shape d = some s ∧ s.length = n := by
  cases data with
  | none => cases h
  | some d =>
    obtain ⟨c, hc, h⟩ := except_bind_eq_ok.mp h
    obtain ⟨s, hs, hlength⟩ := Option.map_eq_some_iff.mp (Except.ok.inj h)
    exact ⟨d, s, rfl, Option.bind_eq_some_iff.mpr ⟨c, content_eq_ok.mp hc, hs⟩, hlength⟩

/-- What a plan of a slice says about the graph. -/
theorem plan_planned {m : Match} {p : Plan α} (h : plan m g = .ok p) :
    m.get "slice" = .ok p.slice ∧ ∃ masks inference outShape, Planned g p masks inference outShape := by
  rw [plan] at h
  obtain ⟨_, h⟩ := planning_halt_if_eq_ok.mp h
  obtain ⟨slice, hslice, h⟩ := planning_bind_eq_ok.mp h
  obtain ⟨⟨operation, inference⟩, ho, h⟩ := planning_bind_eq_ok.mp h
  rw [operator_eq_ok] at ho
  have hop : g.kind? slice = some .op := kind?_eq_op.mpr ⟨_, ho⟩
  split at h
  case h_2 => cases h
  rename_i masks hoperation
  obtain rfl : operation = .stridedSlice masks := hoperation
  obtain ⟨_, h⟩ := planning_halt_if_eq_ok.mp h
  obtain ⟨inRank, _, h⟩ := planning_bind_eq_ok.mp h
  obtain ⟨outRank, houtRank, h⟩ := planning_bind_eq_ok.mp h
  split at h
  case h_2 => cases h
  rename_i outRank
  obtain ⟨_, h⟩ := planning_halt_if_eq_ok.mp h
  obtain ⟨n, hn, h⟩ := planning_bind_eq_ok.mp h
  obtain ⟨bounds, hbounds, h⟩ := except_bind_eq_ok.mp h
  cases h
  obtain ⟨out, outShape, hout, hshape, rfl⟩ := rank_eq_some houtRank
  obtain ⟨-, rfl⟩ := checkedAdd_eq_ok.mp hn
  obtain ⟨hmoved, hcomplete⟩ := planBounds_moved hop hbounds
  refine ⟨hslice, masks, inference, outShape, ho, ⟨out, ?_, hshape⟩, rfl, hmoved, hcomplete⟩
  rw [view_output_of_op (p := ⟨slice, 0⟩) hop, hout]

/-- Integers that were read with a type can be written with it: nothing is cut off, since besides
them there is only a fill of zero or one. -/
theorem ofIntegers_scatter {value : Tensor α} {entries : List Int64}
    (h : value.integers = .ok entries) {p : Permutation} {ellipsis : Option Nat} {fill : Int64}
    (hfill : fill = 0 ∨ fill = 1) {moved : Tensor α}
    (hmoved : moved = Tensor.ofIntegers (p.scatter ellipsis fill entries) value.type) :
    (value.type = .i64 ∨ value.type = .i32) ∧ moved.type = value.type ∧
      moved.shape = [(p.scatter ellipsis fill entries).length] ∧
      moved.integers = .ok (p.scatter ellipsis fill entries) := by
  obtain ⟨shape, buffer⟩ := value
  cases buffer with
  | int64 values =>
    subst hmoved
    exact ⟨.inl rfl, rfl, rfl, rfl⟩
  | int32 values =>
    subst hmoved
    obtain rfl := Except.ok.inj h
    refine ⟨.inr rfl, rfl, rfl, congrArg Except.ok ?_⟩
    rw [List.map_map]
    refine (List.map_congr_left fun n hn => ?_).trans (List.map_id _)
    rcases Permutation.mem_scatter hn with hvalue | rfl
    · obtain ⟨k, -, rfl⟩ := List.mem_map.mp hvalue
      exact congrArg Int32.toInt64 (Int32.toInt32_toInt64 k)
    · rcases hfill with rfl | rfl <;> rfl
  | float64 values => cases h
  | float32 values => cases h
  | bytes type content =>
    simp only [Tensor.integers] at h
    split at h <;> cases h

/-! ## The whole commit -/

/-- The port belongs to a bound of the slice. -/
def AtBound (slice : NodeId) (q : InputPort) : Prop :=
  q.node = slice ∧ q.index ∈ boundPorts.map (·.1)

/-- The port alone reads a one-dimensional constant with these integers, of this type. -/
def HasIntegers (v : View α) (q : InputPort) (type : ElementType) (entries : List Int64) : Prop :=
  ∃ d c value, v.input q = some d ∧ (∀ q', v.input q' = some d → q' = q) ∧ v.content d = some c ∧
    c.value = some value ∧ c.shape = some value.shape ∧ value.type = type ∧
    value.shape = [entries.length] ∧ value.integers = .ok entries

/-- What `g'` has of `g` once the slice is re-indexed by `p`. -/
structure Reindexed (g g' : Graph α) (slice : NodeId) (masks : SliceMasks) (p : Permutation) :
    Prop where
  layout : g'.layout = g.layout
  /-- The slice has other masks, which are marked, and is the same otherwise. -/
  masked : ∃ n inference, g.node? slice = some n ∧
    n.payload = .op ⟨.stridedSlice masks, inference⟩ ∧
    g'.node? slice = some { n with payload := .op ⟨.stridedSlice (masks.permute p), inference⟩ }
  /-- Every connected bound has moved once, with its fill, and keeps its type. -/
  bounds : ∀ x ∈ boundPorts, g.view.input ⟨slice, x.1⟩ ≠ none → ∃ type entries,
    (type = .i64 ∨ type = .i32) ∧ ReadsIntegers g.view ⟨slice, x.1⟩ type entries ∧
      HasIntegers g'.view ⟨slice, x.1⟩ type (p.scatter masks.ellipsisAt? x.2 entries)
  /-- All other ports read what they read, and it is as it was. -/
  reading : ∀ q, ¬ (AtBound slice q ∧ g.view.input q ≠ none) →
    g'.view.input q = g.view.input q ∧ ∀ d, g.view.input q = some d → g'.node? d = g.node? d
  making : ∀ q, g.node? q.node ≠ none → g'.view.output q = g.view.output q
  /-- The other nodes are as they were, or feed a bound and have another value and its shape. -/
  node : ∀ id n, g.node? id = some n → id ≠ slice → g'.node? id = some n ∨
    ∃ q, AtBound slice q ∧ g.view.input q = some id ∧ g'.view.input q = some id ∧
      ∃ c value, n.payload = .data c ∧ g'.node? id =
        some { n with payload := .data { c with value := some value, shape := some value.shape } }
  /-- New nodes are private copies that feed a bound, and their sources. -/
  added : ∀ id n, g.node? id = none → g'.node? id = some n → ∃ q, AtBound slice q ∧
    ((∃ value, n.payload = .data (.constant value) ∧ g'.view.input q = some id) ∨
      (n.payload = .op (.ofOperation .const) ∧ ∃ copy, g.node? copy = none ∧
        g'.view.output ⟨id, 0⟩ = some copy ∧ g'.view.input q = some copy))
  /-- The edges are still there, but that a bound may be read from a new node. -/
  kept : ∀ e ∈ g.edges, e ∈ g'.edges ∨
    (AtBound slice e.target ∧ ∃ f ∈ g'.edges, f.target = e.target ∧ g.node? f.src = none)
  /-- New edges start at a new node and lead to a new node or a bound. -/
  wired : ∀ e ∈ g'.edges, e ∈ g.edges ∨
    (g.node? e.src = none ∧ (g.node? e.dst = none ∨ AtBound slice e.target))

/-- Ids that were not given away are not live. -/
theorem node?_of_nextNode_le (hg : g.WellFormed) {id : NodeId} (h : g.nextNode ≤ id) :
    g.node? id = none := by
  refine Option.eq_none_iff_forall_ne_some.mpr fun n hn => ?_
  have hlt := hg.nodes_below n (node?_mem hn)
  rw [node?_id hn] at hlt
  exact absurd hlt (Nat.not_lt.mpr h)

section Commit

variable {p : Plan α} {masks : SliceMasks} {inference : Option Inference} {outShape : Shape}

/-- The ports that are planned are those of bounds. -/
theorem Planned.atBound (hp : Planned g p masks inference outShape) {port : Nat}
    (h : port ∈ p.bounds.map (·.port)) : AtBound p.slice ⟨p.slice, port⟩ := by
  obtain ⟨b, hb, rfl⟩ := List.mem_map.mp h
  obtain ⟨x, hx, hport, -⟩ := hp.moved b hb
  exact ⟨rfl, List.mem_map.mpr ⟨x, hx, hport.symm⟩⟩

/-- A bound that is stored has the integers that were read, moved. -/
theorem Holds.hasIntegers {v : View α} {q : Permutation} {ellipsis : Option Nat} {x : Nat × Int64}
    (hx : x ∈ boundPorts) (hport : b.port = x.1) (h : Holds v slice b)
    (hmoved : Moved g.view slice q ellipsis x.2 b) :
    ∃ type entries, (type = .i64 ∨ type = .i32) ∧ ReadsIntegers g.view ⟨slice, x.1⟩ type entries ∧
      HasIntegers v ⟨slice, x.1⟩ type (q.scatter ellipsis x.2 entries) := by
  obtain ⟨d, c, hinput, hc, hstored, hshape, hprivate⟩ := h
  obtain ⟨type, entries, hreads, hvalue⟩ := hmoved
  have hread := hreads
  obtain ⟨-, -, value, -, -, -, rfl, hentries⟩ := hread
  have hfill : ∀ x ∈ boundPorts, x.2 = 0 ∨ x.2 = 1 := by decide
  obtain ⟨hinteger, htype, hone, hintegers⟩ := ofIntegers_scatter hentries (hfill x hx) hvalue
  rw [hport] at hreads hinput hprivate
  exact ⟨_, entries, hinteger, hreads, d, c, b.value, hinput, hprivate, hc, hstored, hshape, htype,
    hone, hintegers⟩

/-- What the loop and the edges say, put together. -/
theorem Planned.reindexed (hg : g.WellFormed) (ha : Accepted g p)
    (hp : Planned g p masks inference outShape) {g' : Graph α}
    (hstoring : Storing (g.view.setPayload p.slice (.op ⟨.stridedSlice p.masks, inference⟩))
      p.slice p.bounds [] g'.view)
    (hedges : EdgesKept g p.slice (p.bounds.map (·.port)) g') :
    Reindexed g g' p.slice masks
      (Permutation.channelsFirst (outShape.length + masks.shrunkAxes)) := by
  obtain ⟨n, hn, hpayload⟩ := View.operator_eq_some_iff.mp
    (show g.view.operator p.slice = _ from hp.operator)
  have hbase : ∀ {id}, id ≠ p.slice →
      (g.view.setPayload p.slice (.op ⟨.stridedSlice p.masks, inference⟩)).node id = g.node? id :=
    fun hid => Function.update_of_ne hid _ _
  have hself : (g.view.setPayload p.slice (.op ⟨.stridedSlice p.masks, inference⟩)).node p.slice =
      some { n with payload := .op ⟨.stridedSlice p.masks, inference⟩ } := by
    simp [View.setPayload, hn]
  have hslice : ∀ {id}, g.node? id = none → id ≠ p.slice := by
    rintro id hnone rfl
    exact absurd (hnone.symm.trans hn) (by simp)
  refine ⟨hedges.layout, ⟨n, inference, hn, hpayload, ?_⟩, fun x hx hread => ?_, fun q hq => ?_,
    fun q hq => ?_, fun id n' hn' hid => ?_, fun id n' hnone hn' => ?_, fun e he => ?_,
    fun e he => ?_⟩
  · rcases hstoring.node p.slice _ hself with hsame | ⟨_, _, _, _, c, hdata, _⟩
    · rw [← hp.permuted]
      exact hsame
    · cases hdata
  · obtain ⟨b, hb, hport, hmoved⟩ := hp.complete x hx hread
    exact ((hstoring.stored b hb).resolve_left List.not_mem_nil).hasIntegers hx hport hmoved
  · have hother : ∀ b ∈ p.bounds, q ≠ ⟨p.slice, b.port⟩ := by
      rintro b hb rfl
      refine hq ⟨hp.atBound (List.mem_map.mpr ⟨b, hb, rfl⟩), ?_⟩
      rw [(ha.bounds b hb).1]
      exact Option.some_ne_none _
    obtain ⟨hinput, hsame⟩ := hstoring.reading q hother
    refine ⟨hinput, fun d hd => (hsame d (hinput.trans hd)).trans (hbase ?_)⟩
    rintro rfl
    exact absurd ((kind?_eq_op.mpr ⟨_, hp.operator⟩).symm.trans (hg.view_input_kinds hd).2) (by decide)
  · refine hstoring.making q ?_
    by_cases hid : q.node = p.slice
    · rw [hid, hself]
      exact Option.some_ne_none _
    · rwa [hbase hid]
  · refine (hstoring.node id n' ((hbase hid).trans hn')).imp_right ?_
    rintro ⟨b, hb, rfl, hinput, c, hdata, hstored⟩
    exact ⟨⟨p.slice, b.port⟩, hp.atBound (List.mem_map.mpr ⟨b, hb, rfl⟩), (ha.bounds b hb).1, hinput,
      c, b.value, hdata, hstored⟩
  · obtain ⟨b, hb, hcopy⟩ := hstoring.added id n' ((hbase (hslice hnone)).trans hnone) hn'
    refine ⟨⟨p.slice, b.port⟩, hp.atBound (List.mem_map.mpr ⟨b, hb, rfl⟩), ?_⟩
    rcases hcopy with ⟨hdata, hinput⟩ | ⟨hconst, copy, hunused, houtput, hinput⟩
    · exact .inl ⟨b.value, hdata, hinput⟩
    · refine .inr ⟨hconst, copy, ?_, houtput, hinput⟩
      rwa [hbase] at hunused
      rintro rfl
      exact absurd (hunused.symm.trans hself) (by simp)
  · refine (hedges.kept e he).imp_right ?_
    rintro ⟨hdst, hport, f, hf, htarget, hsrc⟩
    refine ⟨?_, f, hf, htarget, node?_of_nextNode_le hg hsrc⟩
    rw [Wire.target, hdst]
    exact hp.atBound hport
  · refine (hedges.added e he).imp_right ?_
    rintro ⟨hsrc, hdst⟩
    refine ⟨node?_of_nextNode_le hg hsrc, hdst.imp (node?_of_nextNode_le hg) ?_⟩
    rintro ⟨hslice, hport⟩
    rw [Wire.target, hslice]
    exact hp.atBound hport

/-- An accepted slice is re-indexed, and nothing else changes. -/
theorem runs_commit_reindexed {m : Match} (hg : g.WellFormed) (hplan : plan m g = .ok p) :
    Runs (commit p) ⟨g, notes⟩ (fun _ g' => g'.WellFormed ∧
      ∃ masks inference outShape, Planned g p masks inference outShape ∧
        Reindexed g g' p.slice masks
          (Permutation.channelsFirst (outShape.length + masks.shrunkAxes))) E := by
  have ha := plan_accepted hplan
  obtain ⟨-, masks, inference, outShape, hp⟩ := plan_planned hplan
  refine ((runs_commit_bounds hg ha (I := Storing
    (g.view.setPayload p.slice (.op ⟨.stridedSlice p.masks, inference⟩)) p.slice p.bounds)
    (fun o ho => ?_) (fun g₁ b rest hg₁ h _ hone => h.store hg₁ ha.ports hone)
    fun g₁ b rest constant copy hg₁ h _ hcopies => h.replace hg₁ ha.ports hcopies).and_of_ok
    (runs_commit_edges hg)).imp (fun _ g' h => ⟨h.1.1, masks, inference, outShape, hp,
      hp.reindexed hg ha h.1.2 h.2⟩) fun _ hE => hE
  obtain rfl := Option.some.inj (hp.operator.symm.trans ho)
  exact Storing.start fun b hb => (ha.bounds b hb).setPayload (kind?_eq_op.mpr ⟨_, ho⟩)

end Commit

/-- **Re-indexing a slice moves its bounds and nothing else.**  Where an offer is accepted, the
slice has been re-indexed for as many axes as its output has and it drops. -/
theorem replaced_reindexed [Scalar α] (hg : Reachable g) {m : Match} {s' : Session α}
    (h : replace m ⟨g, notes⟩ = .ok true s') :
    ∃ slice masks inference out outShape, m.get "slice" = .ok slice ∧
      g.operator? slice = some ⟨.stridedSlice masks, inference⟩ ∧
      g.view.output ⟨slice, 0⟩ = some out ∧ g.view.shape out = some outShape ∧
      Reindexed g s'.graph slice masks
        (Permutation.channelsFirst (outShape.length + masks.shrunkAxes)) := by
  have hruns : Runs (replace m) ⟨g, notes⟩ (fun replaced g' => replaced = true →
      ∃ slice masks inference out outShape, m.get "slice" = .ok slice ∧
        g.operator? slice = some ⟨.stridedSlice masks, inference⟩ ∧
        g.view.output ⟨slice, 0⟩ = some out ∧ g.view.shape out = some outShape ∧
        Reindexed g g' slice masks
          (Permutation.channelsFirst (outShape.length + masks.shrunkAxes))) fun _ => True := by
    refine runs_planThenCommit (fun p hplan notes => ?_) (fun _ _ hfalse => ?_) fun _ _ => trivial
    · refine (runs_commit_reindexed hg.wellFormed hplan).imp (fun _ g' h _ => ?_) fun _ hE => hE
      obtain ⟨-, masks, inference, outShape, hp, hreindexed⟩ := h
      obtain ⟨out, hout, hshape⟩ := hp.makes
      exact ⟨p.slice, masks, inference, out, outShape, (plan_planned hplan).1, hp.operator, hout,
        hshape, hreindexed⟩
    · cases hfalse
  exact hruns.of_ok h rfl

/-- Two slices.  The first reads one constant as its begin and as its end, and shares its strides
with the second. -/
def sharedBoundCommands : List (Command Float) :=
  [.addOperator "x" .parameter,
    .addOperator "slice" (.stridedSlice ⟨[], [], [], [], [true, false], false⟩),
    .addOperator "other" (.stridedSlice ⟨[], [], [], [], [], false⟩), .addOperator "out" .output,
    .addData "bound" (.constant ⟨[2], .int32 [1, 2]⟩), .addData "step" (.constant ⟨[1], .int64 [2]⟩),
    .link ⟨0, 0⟩ ⟨1, 0⟩, .link ⟨1, 0⟩ ⟨3, 0⟩, .feed 4 ⟨1, 1⟩, .feed 4 ⟨1, 2⟩, .feed 5 ⟨1, 3⟩,
    .feed 5 ⟨2, 3⟩, .modifyContent 6 fun _ => ⟨some [1, 4, 4, 3], none, none⟩,
    .modifyContent 7 fun _ => ⟨some [1, 4, 4, 1], none, none⟩]

/-- The begin is copied and then the end stored in place; the strides are copied, and the second
slice reads what it read. -/
theorem sharedBoundCommands_reindexed :
    Reachable (runCommands .nhwc sharedBoundCommands) ∧
    ∃ s', replace ⟨[("slice", 1)]⟩ ⟨runCommands .nhwc sharedBoundCommands, []⟩ = .ok true s' ∧
      [1, 2, 3].map (fun port => s'.graph.view.input ⟨1, port⟩) = [some 9, some 4, some 11] ∧
      s'.graph.view.input ⟨2, 3⟩ = some 5 ∧
      Reindexed (runCommands .nhwc sharedBoundCommands) s'.graph 1
        ⟨[], [], [], [], [true, false], false⟩ (Permutation.channelsFirst 4) := by
  obtain ⟨_, s', hs', rfl, hbounds, hother⟩ := exists_ok (replace ⟨[("slice", 1)]⟩)
    ⟨runCommands .nhwc sharedBoundCommands, []⟩ (fun replaced g' => replaced = true ∧
      [1, 2, 3].map (fun port => g'.view.input ⟨1, port⟩) = [some 9, some 4, some 11] ∧
      g'.view.input ⟨2, 3⟩ = some 5) (by decide +kernel)
  obtain ⟨slice, masks, inference, out, outShape, hslice, ho, hout, hshape, hreindexed⟩ :=
    replaced_reindexed ⟨_, _, rfl⟩ hs'
  have hoperator : (runCommands .nhwc sharedBoundCommands).operator? 1 =
      some ⟨.stridedSlice ⟨[], [], [], [], [true, false], false⟩, none⟩ := by decide +kernel
  have hmakes : (runCommands .nhwc sharedBoundCommands).view.output ⟨1, 0⟩ = some 7 ∧
      (runCommands .nhwc sharedBoundCommands).view.shape 7 = some [1, 4, 4, 1] := by
    decide +kernel
  obtain rfl : 1 = slice := Except.ok.inj hslice
  cases hoperator.symm.trans ho
  cases hmakes.1.symm.trans hout
  cases hmakes.2.symm.trans hshape
  exact ⟨⟨_, _, rfl⟩, s', hs', hbounds, hother, hreindexed⟩

end TensorGraph.SliceRule
