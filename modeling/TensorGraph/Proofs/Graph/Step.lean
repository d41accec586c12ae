/-
  Stepping through edits.

  Each lemma runs one edit on a graph that presents a view and hands on a graph that presents the
  changed view.  An edit that cannot be refused needs no more than that; removing a node has two
  outcomes, and a refusal leaves the graph as it was.  New connections have to go upwards in the
  ranking, which takes the place of a search for cycles; a new node gets any rank.

  A commit is then walked through edit by edit, with the view as the state:

    * nodes come and go and get new payloads (`runs_addNode`, `runs_setOperation`,
      `runs_modifyContent`, `runs_store`, `runs_removeNode`);
    * ports are fed, made and disconnected (`runs_feed`, `runs_produce`, `runs_unplug`);
    * connections move (`runs_moveInput`, `runs_moveReaders`).

  What is left at the end is a claim about partial maps, without edges, lists or tables.
-/
import TensorGraph.Proofs.Graph.View

namespace TensorGraph.Graph.Presents

open Edit
open Function (update)

variable {α : Type} {g : Graph α} {v : View α} {rank : NodeId → Nat} {notes : List LogEntry}
  {E : Graph α → Prop} (hg : g.Presents v rank)
include hg

/-- A node that is not there is connected to nothing. -/
theorem loose {id : NodeId} (hid : v.node id = none) : v.Loose id := by
  have hdead : ∀ {k}, v.kind id ≠ some k := fun {k} hk => by
    rw [View.kind, hid] at hk
    cases hk
  constructor
  · intro i
    exact Option.eq_none_iff_forall_ne_some.mpr fun d hd => hdead (hg.input_kinds hd).1
  · intro i
    exact Option.eq_none_iff_forall_ne_some.mpr fun d hd => hdead (hg.output_kinds hd).1
  · intro q hq
    exact hdead (hg.input_kinds hq).2
  · intro q hq
    exact hdead (hg.output_kinds hq).2

/-! ## Nodes -/

/-- A new node gets a fresh id, and any rank. -/
theorem runs_addNode {Q : NodeId → Graph α → Prop} {name : String} {payload : Payload α} (k : Nat)
    (h : ∀ id name g', v.node id = none →
      g'.Presents (v.setNode id (some ⟨id, name, payload, {}⟩)) (update rank id k) → Q id g') :
    Runs (addNode name payload) ⟨g, notes⟩ Q E := by
  have hfresh : v.node g.nextNode = none := by
    rw [← hg.node_eq]
    exact hg.wellFormed.node?_nextNode
  have hloose := hg.loose hfresh
  refine Edit.runs_addNode (h _ (g.freeName name) _ hfresh ⟨hg.wellFormed.insertNode _ _, ?_, ?_, ?_⟩)
  · rw [hg.wellFormed.view_insertNode, hg.view_eq]
  · rintro ⟨node, i⟩ d (hp : v.input ⟨node, i⟩ = some d)
    have hnode : node ≠ g.nextNode := by
      rintro rfl
      exact absurd (hp.symm.trans (hloose.input_free i)) (by simp)
    have hd : d ≠ g.nextNode := by
      rintro rfl
      exact hloose.unread _ hp
    rw [Function.update_of_ne hnode, Function.update_of_ne hd]
    exact hg.ranked.1 _ d hp
  · rintro ⟨node, i⟩ d (hp : v.output ⟨node, i⟩ = some d)
    have hnode : node ≠ g.nextNode := by
      rintro rfl
      exact absurd (hp.symm.trans (hloose.output_free i)) (by simp)
    have hd : d ≠ g.nextNode := by
      rintro rfl
      exact hloose.unmade _ hp
    rw [Function.update_of_ne hnode, Function.update_of_ne hd]
    exact hg.ranked.2 _ d hp

theorem setPayload {id : NodeId} {payload : Payload α}
    (hkind : (g.setPayload id payload).kind? = g.kind?) :
    (g.setPayload id payload).Presents (v.setPayload id payload) rank := by
  refine ⟨hg.wellFormed.setPayload hkind, ?_, hg.ranked⟩
  rw [hg.wellFormed.view_setPayload hkind, hg.view_eq]

theorem runs_setOperation {Q : Unit → Graph α → Prop} {id : NodeId} {o : Operator}
    {operation : Operation} (ho : v.operator id = some o)
    (h : ∀ g', g'.Presents (v.setPayload id (.op { o with operation })) rank → Q () g') :
    Runs (setOperation id operation) ⟨g, notes⟩ Q E := by
  rw [← hg.operator_eq] at ho
  refine Edit.runs_setOperation (fun o' ho' => ?_) fun hnone => ?_
  · obtain rfl : o = o' := Option.some.inj (ho.symm.trans ho')
    exact h _ (hg.setPayload (kind?_setPayload_op (kind?_eq_op.mpr ⟨o, ho⟩)))
  · exact absurd (ho.symm.trans hnone) (by simp)

theorem runs_modifyContent {Q : Unit → Graph α → Prop} {id : NodeId} {c : Content α}
    {f : Content α → Content α} (hc : v.content id = some c)
    (h : ∀ g', g'.Presents (v.setPayload id (.data (f c))) rank → Q () g') :
    Runs (modifyContent id f) ⟨g, notes⟩ Q E := by
  rw [← hg.content_eq] at hc
  refine Edit.runs_modifyContent (fun c' hc' => ?_) fun hnone => ?_
  · obtain rfl : c = c' := Option.some.inj (hc.symm.trans hc')
    exact h _ (hg.setPayload (kind?_setPayload_data (kind?_eq_data.mpr ⟨c, hc⟩)))
  · exact absurd (hc.symm.trans hnone) (by simp)

/-- A tensor is stored with its shape. -/
theorem runs_store {Q : Unit → Graph α → Prop} {id : NodeId} {value : Tensor α}
    (hdata : v.kind id = some .data) (h : ∀ g', g'.Presents (v.store id value) rank → Q () g') :
    Runs (modifyContent id fun d => { d with value := some value, shape := some value.shape })
      ⟨g, notes⟩ Q E := by
  obtain ⟨c, hc⟩ := kind?_eq_data.mp (hg.kind_eq ▸ hdata)
  rw [hg.content_eq] at hc
  refine hg.runs_modifyContent hc fun g' hg' => h g' ?_
  rwa [View.store, hc]

/-- A removal has two outcomes. -/
theorem runs_removeNode {Q : Node α → Graph α → Prop} {id : NodeId} (hlive : v.node id ≠ none)
    (hok : v.Removable id → ∀ n g', g'.Presents (v.erase id) rank → Q n g')
    (herror : ¬ v.Removable id → E g) : Runs (removeNode id) ⟨g, notes⟩ Q E := by
  have hremovable : v.Removable id ↔ g.Removable id := by
    rw [← hg.view_eq]
    exact hg.wellFormed.removable_view
  refine Edit.runs_removeNode hg.wellFormed (fun n _ hr => ?_) fun hrefused => ?_
  · refine hok (hremovable.mpr hr) n _ ⟨hg.wellFormed.eraseNode id, ?_, ?_, ?_⟩
    · rw [hg.wellFormed.view_eraseNode, hg.view_eq]
    · intro p d hp
      simp only [View.erase] at hp
      split at hp
      · cases hp
      · exact hg.ranked.1 p d hp
    · intro p d hp
      simp only [View.erase] at hp
      split at hp
      · cases hp
      · exact hg.ranked.2 p d hp
  · refine herror fun hr => hrefused ⟨?_, hremovable.mp hr⟩
    rwa [hg.node_eq]

/-! ## Ports -/

theorem feed {data : NodeId} {port : InputPort} (hdata : v.kind data = some .data)
    (hport : v.kind port.node = some .op) (hfree : v.input port = none)
    (hrank : rank data < rank port.node) :
    (g.insertEdge ⟨data, 0, port.node, port.index⟩).Presents (v.feed data port) rank := by
  have hadmits := hg.admits_feed hdata hport hfree hrank
  refine ⟨hg.wellFormed.insertEdge hadmits, ?_, ?_, hg.ranked.2⟩
  · rw [hg.wellFormed.view_insertEdge_feed hadmits (hg.kind_eq ▸ hport), hg.view_eq]
  · intro p d hp
    by_cases hsame : p = port
    · subst hsame
      obtain rfl : data = d := by simpa [View.feed] using hp
      exact hrank
    · rw [View.feed_input, Function.update_of_ne hsame] at hp
      exact hg.ranked.1 p d hp

/-- A free port is fed from below. -/
theorem runs_feed {Q : Unit → Graph α → Prop} {data : NodeId} {port : InputPort}
    (hdata : v.kind data = some .data) (hport : v.kind port.node = some .op)
    (hfree : v.input port = none) (hrank : rank data < rank port.node)
    (h : ∀ g', g'.Presents (v.feed data port) rank → Q () g') :
    Runs (Edit.feed data port) ⟨g, notes⟩ Q E := by
  refine Edit.runs_feed hg.wellFormed (fun _ _ => h _ (hg.feed hdata hport hfree hrank)) ?_
  intro hrefused
  exact absurd ⟨hg.kind_eq ▸ hdata, hg.admits_feed hdata hport hfree hrank⟩ hrefused

theorem runs_produce {Q : Unit → Graph α → Prop} {data : NodeId} {port : OutputPort}
    (hdata : v.kind data = some .data) (hport : v.kind port.node = some .op)
    (hfree : v.output port = none) (hnew : ∀ p, v.output p ≠ some data)
    (hrank : rank port.node < rank data)
    (h : ∀ g', g'.Presents (v.produce port data) rank → Q () g') :
    Runs (Edit.produce port data) ⟨g, notes⟩ Q E := by
  have hadmits := hg.admits_produce hdata hport hfree hnew hrank
  refine Edit.runs_produce hg.wellFormed (fun hop _ => h _ ?_) fun hrefused => ?_
  · refine ⟨hg.wellFormed.insertEdge hadmits, ?_, hg.ranked.1, ?_⟩
    · rw [hg.wellFormed.view_insertEdge_produce hadmits hop, hg.view_eq]
    · intro p d hp
      by_cases hsame : p = port
      · subst hsame
        obtain rfl : data = d := by simpa [View.produce] using hp
        exact hrank
      · rw [View.produce_output, Function.update_of_ne hsame] at hp
        exact hg.ranked.2 p d hp
  · exact absurd ⟨hg.kind_eq ▸ hport, hadmits⟩ hrefused

theorem unplug {port : InputPort} {e : Edge} (he : g.edgeInto? port = some e)
    (hport : v.kind port.node = some .op) :
    (g.eraseEdge e.id).Presents (v.unplug port) rank := by
  refine ⟨hg.wellFormed.eraseEdge e.id, ?_, ?_, hg.ranked.2⟩
  · rw [hg.wellFormed.view_eraseEdge he (hg.kind_eq ▸ hport), hg.view_eq]
  · intro p d hp
    by_cases hsame : p = port
    · subst hsame
      rw [View.unplug_input, Function.update_self] at hp
      cases hp
    · rw [View.unplug_input, Function.update_of_ne hsame] at hp
      exact hg.ranked.1 p d hp

/-- The data node that an input port reads, and the edge that says so. -/
theorem edgeInto?_of_input {port : InputPort} {d : NodeId} (h : v.input port = some d) :
    ∃ e, g.edgeInto? port = some e ∧ e.src = d := by
  rw [← hg.view_eq] at h
  obtain ⟨_, e, hmem, hw⟩ := hg.wellFormed.view_input_iff.mp h
  exact ⟨e, hg.wellFormed.edgeInto?_eq_some_iff.mpr
    ⟨hmem, congrArg Wire.dst hw, congrArg Wire.dstPort hw⟩, congrArg Wire.src hw⟩

theorem runs_unplug {Q : Option NodeId → Graph α → Prop} {port : InputPort} {d : NodeId}
    (hport : v.input port = some d)
    (h : ∀ g', g'.Presents (v.unplug port) rank → Q (some d) g') :
    Runs (Edit.unplug port) ⟨g, notes⟩ Q E := by
  obtain ⟨e, he, hsrc⟩ := hg.edgeInto?_of_input hport
  have hop := (hg.input_kinds hport).1
  refine Edit.runs_unplug hg.wellFormed (fun f _ hf => ?_) (fun _ hnone => ?_) fun hkind => ?_
  · obtain rfl : e = f := Option.some.inj (he.symm.trans hf)
    rw [hsrc]
    exact h _ (hg.unplug he hop)
  · exact absurd (he.symm.trans hnone) (by simp)
  · exact absurd (hg.kind_eq ▸ hop) hkind

theorem runs_moveInput {Q : Unit → Graph α → Prop} {old new : InputPort} {d : NodeId}
    (hold : v.input old = some d) (hop : v.kind new.node = some .op)
    (hfree : v.input new = none) (hrank : rank d < rank new.node)
    (h : ∀ g', g'.Presents ((v.unplug old).feed d new) rank → Q () g') :
    Runs (moveInput old new) ⟨g, notes⟩ Q E := by
  obtain ⟨e, he, hsrc⟩ := hg.edgeInto?_of_input hold
  have hports := hg.input_kinds hold
  have hne : old ≠ new := by
    rintro rfl
    exact absurd (hold.symm.trans hfree) (by simp)
  refine Edit.runs_moveInput hg.wellFormed (fun f k hf _ hk _ => ?_) (fun _ hsame => ?_) ?_
  · obtain rfl : e = f := Option.some.inj (he.symm.trans hf)
    obtain rfl : k = .data := by
      rw [hsrc, hg.kind_eq, hports.2] at hk
      exact (Option.some.inj hk).symm
    rw [hsrc]
    refine h _ ((hg.unplug he hports.1).feed hports.2 hop ?_ hrank)
    rw [View.unplug_input, Function.update_of_ne hne.symm]
    exact hfree
  · exact absurd hsame hne
  · intro hrefused
    refine absurd ?_ (hrefused e .data he ?_)
    · rw [hsrc]
      exact hg.admits_feed hports.2 hop hfree hrank
    · rw [hsrc, hg.kind_eq]
      exact hports.2

/-- Readers are moved to data that all of them are above. -/
theorem runs_moveReaders {Q : Unit → Graph α → Prop} {old new : NodeId}
    (hold : v.kind old = some .data) (hnew : v.kind new = some .data) (hne : old ≠ new)
    (hrank : ∀ p, v.input p = some old → rank new < rank p.node)
    (h : ∀ g', g'.Presents (v.moveReaders old new) rank →
      ((∀ p, v.input p ≠ some old) → g' = g) → Q () g') :
    Runs (moveReaders old new) ⟨g, notes⟩ Q E := by
  rw [← hg.kind_eq] at hold hnew
  have hreaders : ∀ p, p ∈ g.readers old ↔ v.input p = some old := fun p => by
    rw [hg.wellFormed.mem_readers_iff hold, hg.view_eq]
  have hclear : ∀ p ∈ g.readers old, ¬ Relation.ReflTransGen g.Joins p.node new := fun p hp =>
    hg.no_path (hrank p ((hreaders p).mp hp))
  refine Edit.runs_moveReaders hg.wellFormed (fun _ _ _ _ => ?_)
    (fun _ hsame => absurd hsame hne) ?_
  · obtain ⟨hwf, hview⟩ := hg.wellFormed.view_refeedAll hold hnew hclear
    refine h _ ⟨hwf, hview.trans (by rw [hg.view_eq]), ?_, hg.ranked.2⟩ fun hnone => ?_
    · intro p d hp
      simp only [View.moveReaders] at hp
      split at hp
      · rename_i hread
        cases hp
        exact hrank p hread
      · exact hg.ranked.1 p d hp
    · have hempty : g.readers old = [] := List.eq_nil_iff_forall_not_mem.mpr fun p hp =>
        hnone p ((hreaders p).mp hp)
      rw [hempty]
      rfl
  · intro hrefused
    exact absurd ⟨hold, hnew, hclear⟩ hrefused

end TensorGraph.Graph.Presents
