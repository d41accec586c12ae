/-
  A pipeline leaves no dangling read, and no graph input or output behind.

  Whatever is read has a producer or a value, and graph inputs and outputs stay as they are:
  `Intact` says both, the second by comparison with the graph `v₀` at the start.  The edits of the
  built-in rules keep it one by one.  So it holds where a commit breaks off as well, and nothing has
  to be said about which of its edits are refused.

    1. On views: data `Supplies` its readers if it has a producer or a value, and a change that only
       adds nodes and connections keeps this (`View.Grows`).  For each of the other changes there is
       one lemma about `Intact`, with the condition under which nothing loses its supply.
    2. On graphs: the edits keep it, removal of a node since it is refused otherwise
       (`keeps_removeNode_intact`).
    3. For each rule, its commit keeps it, wherever it ends (`builtinRules_preserve_intact`).
    4. So a run of a pipeline keeps graph inputs, graph outputs and supplied reads
       (`run_keeps_terminals`).

  `twofoldCommands` makes a graph on which a commit does break off.
-/
import TensorGraph.Proofs.Reachable
import TensorGraph.Proofs.Rule.Multiplier
import TensorGraph.Proofs.Rule.Permute
import TensorGraph.Proofs.Rule.Slice
import TensorGraph.Proofs.Rule.Tile

namespace TensorGraph

open Edit TensorGraph.Graph

variable {α : Type} {v₀ v : View α} {g : Graph α} {id d : NodeId}

/-- Whether a node is a graph input or output. -/
def Node.isTerminal (n : Node α) : Bool :=
  match n.opcode? with
  | some .output | some .parameter => true
  | _ => false

/-! ## Data that can be read -/

/-- The node is data and has a value or a producer. -/
def View.Supplies (v : View α) (d : NodeId) : Prop :=
  ∃ c, v.content d = some c ∧ (c.value ≠ none ∨ ∃ q, v.output q = some d)

/-- `v'` is `v` with more nodes, and with results at ports that were free. -/
structure View.Grows (v v' : View α) : Prop where
  node : ∀ d, v.node d ≠ none → v'.node d = v.node d
  input : v'.input = v.input
  output : ∀ q d, v.output q = some d → v'.output q = some d

namespace View.Supplies

/-- Data that is supplied stays so when nodes and connections are added. -/
theorem grows {v' : View α} (h : v.Supplies d) (hgrows : v.Grows v') : v'.Supplies d := by
  obtain ⟨c, hc, hsource⟩ := h
  have hlive : v.node d ≠ none := View.node_ne_none_of_kind (View.kind_of_content hc)
  refine ⟨c, ?_, hsource.imp_right fun ⟨q, hq⟩ => ⟨q, hgrows.output q d hq⟩⟩
  rwa [View.content, hgrows.node d hlive]

/-- Connecting inputs leaves it as it is. -/
theorem of_eq {v' : View α} (h : v.Supplies d) (hnode : v'.node = v.node)
    (houtput : v'.output = v.output) : v'.Supplies d := by
  rwa [View.Supplies, View.content, hnode, houtput]

/-- Replacing an operator by another takes no supply away. -/
theorem setPayload_op {o o' : Operator} (h : v.Supplies d) (ho : v.operator id = some o) :
    (v.setPayload id (.op o')).Supplies d := by
  obtain ⟨c, hc, hsource⟩ := h
  exact ⟨c, by rwa [View.setPayload_content ho], hsource⟩

/-- Replacing content takes no supply away if a value stays one. -/
theorem setPayload_data {c c' : Content α} (h : v.Supplies d) (hc : v.content id = some c)
    (hvalue : c.value ≠ none → c'.value ≠ none) : (v.setPayload id (.data c')).Supplies d := by
  obtain ⟨c₀, hc₀, hsource⟩ := h
  by_cases hd : d = id
  · subst hd
    obtain rfl : c = c₀ := Option.some.inj (hc.symm.trans hc₀)
    obtain ⟨n, hn, -⟩ := View.content_eq_some_iff.mp hc
    refine ⟨c', ?_, hsource.imp_left hvalue⟩
    simp [View.content, View.setPayload, hn, Node.content?]
  · refine ⟨c₀, ?_, hsource⟩
    simpa [View.content, View.setPayload, hd] using hc₀

end View.Supplies

/-! ## Intact views -/

/-- Whatever is read is there, and the graph inputs and outputs of `v₀` are as they are in `v₀` and
have the same ports connected. -/
structure Intact (v₀ v : View α) : Prop where
  supplied : ∀ q d, v.input q = some d → v.Supplies d
  terminal : ∀ id n, v₀.node id = some n → n.isTerminal = true →
    v.node id = some n ∧ ∀ i, (v.input ⟨id, i⟩).isSome = (v₀.input ⟨id, i⟩).isSome

/-- The node is no graph input or output of `v₀`. -/
def Inner (v₀ : View α) (id : NodeId) : Prop :=
  ∀ n, v₀.node id = some n → n.isTerminal = false

/-- An inner node is none of the terminals. -/
theorem Inner.ne (h : Inner v₀ id) {x : NodeId} {n : Node α} (hn : v₀.node x = some n)
    (hterminal : n.isTerminal = true) : x ≠ id := by
  rintro rfl
  rw [h n hn] at hterminal
  cases hterminal

namespace Intact

variable (h : Intact v₀ v)
include h

/-- A node that is no terminal now was none before. -/
theorem inner (hid : ∀ n, v.node id = some n → n.isTerminal = false) : Inner v₀ id := by
  intro n hn
  by_contra hterminal
  rw [Bool.not_eq_false] at hterminal
  rw [hid n (h.terminal id n hn hterminal).1] at hterminal
  cases hterminal

/-- A node that is not there now was no terminal. -/
theorem inner_of_none (hid : v.node id = none) : Inner v₀ id :=
  h.inner fun n hn => by
    rw [hid] at hn
    cases hn

/-- An operator of another type is no terminal. -/
theorem inner_of_operator {o : Operator} (ho : v.operator id = some o)
    (htype : o.operation.type ∉ [.output, .parameter]) : Inner v₀ id := by
  obtain ⟨n, hn, hpayload⟩ := View.operator_eq_some_iff.mp ho
  refine h.inner fun n' hn' => ?_
  obtain rfl : n = n' := Option.some.inj (hn.symm.trans hn')
  have hopcode : n.opcode? = some o.operation.type := by
    rw [Node.opcode?, Node.operator?, hpayload, Option.map_some]
  rw [Node.isTerminal, hopcode]
  revert htype
  generalize o.operation.type = type
  cases type <;> decide

/-- Data is no terminal. -/
theorem inner_of_data (hdata : v.kind id = some .data) : Inner v₀ id := by
  refine h.inner fun n hn => ?_
  rw [View.kind, hn, Option.map_some, Node.kind] at hdata
  split at hdata
  · cases hdata
  · rename_i c hpayload
    rw [Node.isTerminal, Node.opcode?, Node.operator?, hpayload]
    rfl

/-! ### Edits -/

/-- Adding nodes and connections breaks nothing. -/
theorem grows {v' : View α} (hgrows : v.Grows v') : Intact v₀ v' where
  supplied := fun q d hq => (h.supplied q d (hgrows.input ▸ hq)).grows hgrows
  terminal := by
    intro x m hm hterminal
    obtain ⟨hnode, hinputs⟩ := h.terminal x m hm hterminal
    refine ⟨(hgrows.node x ?_).trans hnode, hgrows.input ▸ hinputs⟩
    rw [hnode]
    exact Option.some_ne_none m

/-- Readers may move to data that is supplied. -/
theorem moveReaders {old new : NodeId} (hnew : v.Supplies new) :
    Intact v₀ (v.moveReaders old new) where
  supplied := by
    intro q d hq
    rcases View.moveReaders_input_iff.mp hq with ⟨-, rfl⟩ | ⟨-, hq⟩
    · exact hnew
    · exact h.supplied q d hq
  terminal := by
    intro x m hm hterminal
    obtain ⟨hnode, hinputs⟩ := h.terminal x m hm hterminal
    refine ⟨hnode, fun i => ?_⟩
    rw [← hinputs i, View.moveReaders_input]
    split
    · rename_i hread
      rw [hread]
      rfl
    · rfl

/-- Only the ports of inner nodes may be disconnected. -/
theorem unplug {port : InputPort} (hport : Inner v₀ port.node) : Intact v₀ (v.unplug port) where
  supplied := by
    intro q d hq
    rw [View.unplug_input, Function.update_apply] at hq
    split at hq
    · cases hq
    · exact h.supplied q d hq
  terminal := by
    intro x m hm hterminal
    obtain ⟨hnode, hinputs⟩ := h.terminal x m hm hterminal
    refine ⟨hnode, fun i => ?_⟩
    rw [← hinputs i, View.unplug_input, Function.update_of_ne]
    exact fun hsame => hport.ne hm hterminal (congrArg InputPort.node hsame)

/-- The ports of inner nodes may be fed with data that is supplied. -/
theorem feed {data : NodeId} {port : InputPort} (hdata : v.Supplies data)
    (hport : Inner v₀ port.node) : Intact v₀ (v.feed data port) where
  supplied := by
    intro q d hq
    rw [View.feed_input, Function.update_apply] at hq
    split at hq
    · cases hq
      exact hdata
    · exact h.supplied q d hq
  terminal := by
    intro x m hm hterminal
    obtain ⟨hnode, hinputs⟩ := h.terminal x m hm hterminal
    refine ⟨hnode, fun i => ?_⟩
    rw [← hinputs i, View.feed_input, Function.update_of_ne]
    exact fun hsame => hport.ne hm hterminal (congrArg InputPort.node hsame)

/-- What an inner node holds may be replaced if no supply is lost. -/
theorem setPayload {payload : Payload α} (hinner : Inner v₀ id)
    (hsupplies : ∀ d, v.Supplies d → (v.setPayload id payload).Supplies d) :
    Intact v₀ (v.setPayload id payload) where
  supplied := fun q d hq => hsupplies d (h.supplied q d hq)
  terminal := by
    intro x m hm hterminal
    obtain ⟨hnode, hinputs⟩ := h.terminal x m hm hterminal
    refine ⟨?_, hinputs⟩
    rw [View.setPayload, View.setNode_node, Function.update_of_ne (hinner.ne hm hterminal), hnode]

theorem setPayload_data {c c' : Content α} (hc : v.content id = some c)
    (hvalue : c.value ≠ none → c'.value ≠ none) : Intact v₀ (v.setPayload id (.data c')) :=
  h.setPayload (h.inner_of_data (View.kind_of_content hc)) fun _ hd => hd.setPayload_data hc hvalue

/-- A tensor may be stored anywhere. -/
theorem store {value : Tensor α} : Intact v₀ (v.store id value) := by
  rw [View.store]
  split
  · rename_i c hc
    exact h.setPayload_data hc fun _ => Option.some_ne_none _
  · exact h

omit h in
/-- Whatever loses its producer with an operator has a value or is not read. -/
theorem erase (hg : g.WellFormed) (h : Intact v₀ g.view) (hinner : Inner v₀ id)
    (hremovable : g.view.Removable id) : Intact v₀ (g.view.erase id) where
  supplied := by
    intro q d hq
    obtain ⟨-, hd, hread⟩ := View.erase_input_iff.mp hq
    obtain ⟨c, hc, hvalue | ⟨p, hp⟩⟩ := h.supplied q d hread
    · exact ⟨c, (View.erase_content_of_ne hd).trans hc, .inl hvalue⟩
    · refine ⟨c, (View.erase_content_of_ne hd).trans hc, ?_⟩
      by_cases hnode : p.node = id
      · refine .inl fun hvalue => ?_
        subst hnode
        exact hremovable.2 (hg.view_output_kinds hp).1 p.index d hp ⟨⟨q, hread⟩, c, hc, hvalue⟩
      · exact .inr ⟨p, View.erase_output_iff.mpr ⟨hnode, hd, hp⟩⟩
  terminal := by
    intro x m hm hterminal
    obtain ⟨hnode, hinputs⟩ := h.terminal x m hm hterminal
    have hne := hinner.ne hm hterminal
    refine ⟨?_, fun i => ?_⟩
    · rw [View.erase_node, Function.update_of_ne hne, hnode]
    · rw [← hinputs i, View.erase_input, if_neg]
      rintro (hsame | hread)
      · exact hne hsame
      · exact hremovable.1 (hg.view_input_kinds hread).2 _ hread

end Intact

/-! ## Edits of graphs -/

/-- The graph is well-formed and its view intact. -/
def IntactFrom (v₀ : View α) (g : Graph α) : Prop :=
  g.WellFormed ∧ Intact v₀ g.view

/-- An inner node may be removed. -/
theorem keeps_removeNode_intact (hinner : Inner v₀ id) :
    Keeps (IntactFrom v₀) (IntactFrom v₀) (removeNode id : Edit α (Node α)) := by
  rintro s ⟨hwf, h⟩
  refine runs_removeNode hwf (fun _ _ hremovable => ⟨hwf.eraseNode id, ?_⟩) fun _ => ⟨hwf, h⟩
  rw [hwf.view_eraseNode]
  exact Intact.erase hwf h hinner (hwf.removable_view.mpr hremovable)

/-- The operation of an inner node may be replaced. -/
theorem keeps_setOperation_intact (hinner : Inner v₀ id) (operation : Operation) :
    Keeps (IntactFrom v₀) (IntactFrom v₀) (setOperation id operation : Edit α Unit) := by
  rintro s ⟨hwf, h⟩
  refine runs_setOperation (fun o ho => ?_) fun _ => ⟨hwf, h⟩
  have hkind := kind?_setPayload_op (o := { o with operation }) (kind?_eq_op.mpr ⟨o, ho⟩)
  refine ⟨hwf.setPayload hkind, ?_⟩
  rw [hwf.view_setPayload hkind]
  exact h.setPayload hinner fun _ hd => hd.setPayload_op ho

/-- Content may be replaced if a value stays one. -/
theorem keeps_modifyContent_intact {f : Content α → Content α}
    (hf : ∀ c, c.value ≠ none → (f c).value ≠ none) :
    Keeps (IntactFrom v₀) (IntactFrom v₀) (modifyContent id f) := by
  rintro s ⟨hwf, h⟩
  refine runs_modifyContent (fun c hc => ?_) fun _ => ⟨hwf, h⟩
  have hkind := kind?_setPayload_data (c := f c) (kind?_eq_data.mpr ⟨c, hc⟩)
  refine ⟨hwf.setPayload hkind, ?_⟩
  rw [hwf.view_setPayload hkind]
  exact h.setPayload_data hc (hf c)

/-- Readers may be moved to data that is supplied. -/
theorem runs_moveReaders_intact {notes : List LogEntry} (h : IntactFrom v₀ g) {old new : NodeId}
    (hnew : g.view.Supplies new) :
    Runs (moveReaders old new) ⟨g, notes⟩ (fun _ => IntactFrom v₀) (IntactFrom v₀) := by
  refine runs_moveReaders h.1 (fun hold hdata _ hclear => ?_) (fun _ _ => h) fun _ => h
  obtain ⟨hwf, hview⟩ := h.1.view_refeedAll hold hdata hclear
  refine ⟨hwf, ?_⟩
  rw [hview]
  exact h.2.moveReaders hnew

/-! ## Rules -/

namespace TileRule

variable {p : Plan} {input : NodeId} {c : Content α} {w : Wrapping α}

/-- The graph with the new nodes and their results. -/
def inserted (v : View α) (w : Wrapping α) : View α :=
  (((((v.setNode w.before.id (some w.before)).setNode w.beforeData.id (some w.beforeData)).setNode
    w.after.id (some w.after)).setNode w.afterData.id (some w.afterData)).produce
    ⟨w.before.id, 0⟩ w.beforeData.id).produce ⟨w.after.id, 0⟩ w.afterData.id

/-- The nodes that wrap a tile are all new. -/
theorem grows_inserted (hg : g.WellFormed) (hw : w.Fresh p g.view) :
    g.view.Grows (inserted g.view w) where
  node := by
    intro d hd
    obtain ⟨u₁, u₂, u₃, u₄⟩ := hw.unused
    have hne : d ≠ w.before.id ∧ d ≠ w.beforeData.id ∧ d ≠ w.after.id ∧ d ≠ w.afterData.id :=
      ⟨fun h => hd (h ▸ u₁), fun h => hd (h ▸ u₂), fun h => hd (h ▸ u₃), fun h => hd (h ▸ u₄)⟩
    simp [inserted, hne]
  input := rfl
  output := by
    rintro ⟨op, i⟩ d hq
    have hlive := (hg.live_of_output hq).1
    have hbefore : op ≠ w.before.id := fun h => hlive (h ▸ hw.unused.1)
    have hafter : op ≠ w.after.id := fun h => hlive (h ▸ hw.unused.2.2.1)
    simpa [inserted, hbefore, hafter] using hq

/-- The new data is made by the new operators. -/
theorem supplies_inserted (hw : w.Fresh p v) :
    (inserted v w).Supplies w.beforeData.id ∧ (inserted v w).Supplies w.afterData.id := by
  obtain ⟨-, n₂, n₃, -, n₅, -⟩ := hw.distinct
  constructor
  · refine ⟨⟨some (p.inShape ++ [1]), none, p.inType⟩, ?_, .inr ⟨⟨w.before.id, 0⟩, ?_⟩⟩
    · simp [inserted, View.content, n₃.symm, n₅.symm, Node.content?, hw.beforeData]
    · simp [inserted, n₂.symm]
  · refine ⟨⟨some p.outShape, none, p.outType⟩, ?_, .inr ⟨⟨w.after.id, 0⟩, ?_⟩⟩
    · simp [inserted, View.content, Node.content?, hw.afterData]
    · simp [inserted]

/-- Wrapping a tile breaks nothing. -/
theorem intact_wrapped (hg : g.WellFormed) (h : Intact v₀ g.view) (ha : Accepted g p input)
    (hc : g.content? p.result = some c) (hw : w.Fresh p g.view) :
    Intact v₀ (wrapped g.view p input c w) := by
  obtain ⟨u₁, u₂, u₃, u₄⟩ := hw.unused
  have hgrows := grows_inserted hg hw
  obtain ⟨hbeforeData, hafterData⟩ := supplies_inserted hw
  obtain ⟨axis, tiles, inference, ho, -⟩ := ha.operator
  have htile : Inner v₀ p.tile := h.inner_of_operator ho (by simp [Operation.type])
  have hlive := hg.live_of_output ha.makes
  have hinput := (h.supplied _ _ ha.reads).grows hgrows
  have hresult : (inserted g.view w).Supplies p.result :=
    View.Supplies.grows (v := g.view) ⟨c, hc, .inr ⟨_, ha.makes⟩⟩ hgrows
  rw [← wrapped_eq (fun h => hlive.1 (h ▸ u₃)) hw.distinct.2.1
    ⟨fun h => hlive.2 (h ▸ u₁), fun h => hlive.2 (h ▸ u₂), fun h => hlive.2 (h ▸ u₃),
      fun h => hlive.2 (h ▸ u₄)⟩]
  -- the other edits neither take away nor change what can be read
  refine ((((((h.grows hgrows).moveReaders hafterData).unplug htile).feed (hinput.of_eq rfl rfl)
    (h.inner_of_none u₁)).feed (hbeforeData.of_eq rfl rfl) htile).feed (hresult.of_eq rfl rfl)
    (h.inner_of_none u₃)).setPayload_data (c := c) ?_ fun hvalue => hvalue
  show (inserted g.view w).content p.result = some c
  rw [View.content, hgrows.node _ hlive.2]
  exact hc

end TileRule

/-- Joining permutes breaks nothing, also if it fails half-way. -/
theorem PermuteRule.runs_commit_intact {p : Plan} {notes : List LogEntry} (hg : IntactFrom v₀ g)
    (ha : Accepted g p) :
    Runs (commit p) ⟨g, notes⟩ (fun _ => IntactFrom v₀) (IntactFrom v₀) := by
  obtain ⟨hwf, h⟩ := hg
  obtain ⟨order₁, order₂, inference₁, inference₂, -, -, ho₁, ho₂, -⟩ := ha.orders
  have hfirst : Inner v₀ p.first := h.inner_of_operator ho₁ (by simp [Operation.type])
  have hsecond : Inner v₀ p.second := h.inner_of_operator ho₂ (by simp [Operation.type])
  have hmid : Inner v₀ p.mid := h.inner_of_data (hwf.view_output_kinds ha.makes_mid).2
  have hlast : Inner v₀ p.last := h.inner_of_data (hwf.view_output_kinds ha.makes_last).2
  rw [commit]
  split
  · refine runs_bind ((runs_moveReaders_intact ⟨hwf, h⟩ (h.supplied _ _ ha.reads_input)).imp
      (fun _ g' h' notes => ?_) fun _ h' => h')
    suffices hrest : Keeps (IntactFrom v₀) (IntactFrom v₀) _ from hrest ⟨g', notes⟩ h'
    exact (keeps_removeNode_intact hsecond).bind fun _ => (keeps_removeNode_intact hlast).bind
      fun _ => (keeps_removeNode_intact hmid).bind fun _ => (keeps_removeNode_intact hfirst).bind
      fun _ => keeps_pure _
  · refine runs_bind ((runs_moveReaders_intact ⟨hwf, h⟩ (h.supplied _ _ ha.reads_mid)).imp
      (fun _ g' h' notes => ?_) fun _ h' => h')
    suffices hrest : Keeps (IntactFrom v₀) (IntactFrom v₀) _ from hrest ⟨g', notes⟩ h'
    exact (keeps_removeNode_intact hsecond).bind fun _ => (keeps_removeNode_intact hlast).bind
      fun _ => (keeps_setOperation_intact hfirst _).bind
      fun _ => keeps_modifyContent_intact fun _ hvalue => hvalue

namespace MultiplierRule

variable {p : Plan α} {tensor multiplier : NodeId} {shape : Shape}

/-- Storing the folded thresholds breaks nothing. -/
theorem intact_stored {values : List (NodeId × Tensor α)} (h : Intact v₀ v) :
    Intact v₀ (stored v values) := by
  induction values generalizing v with
  | nil => exact h
  | cons t values ih => exact ih h.store

/-- Folding a multiplier breaks nothing, also if it fails half-way. -/
theorem runs_commit_intact {notes : List LogEntry} (hg : IntactFrom v₀ g)
    (ha : Accepted g p tensor multiplier shape) :
    Runs (commit p) ⟨g, notes⟩ (fun _ => IntactFrom v₀) (IntactFrom v₀) := by
  obtain ⟨hwf, h⟩ := hg
  obtain ⟨inference, hmul⟩ := ha.mul
  obtain ⟨levels, inference', hquantize⟩ := ha.quantize
  have hmul : Inner v₀ p.mul := h.inner_of_operator hmul (by simp [Operation.type])
  have hquantize : Inner v₀ p.quantize := h.inner_of_operator hquantize (by simp [Operation.type])
  have hproduct : Inner v₀ p.product := h.inner_of_data (hwf.view_output_kinds ha.makes).2
  refine runs_switch (hwf.presents hwf.ranked_topologicalOrder) ha fun g' notes h' => ?_
  have hstored : Intact v₀ (stored g.view p.thresholds) := intact_stored h
  have htensor : (stored g.view p.thresholds).Supplies tensor :=
    hstored.supplied ⟨p.mul, p.tensorPort⟩ tensor (by rw [stored_input, ha.takes_tensor])
  have hswitched : Intact v₀ (switched g.view p tensor) :=
    ((hstored.unplug hquantize).unplug hmul).feed (htensor.of_eq rfl rfl) hquantize
  suffices hrest : Keeps (IntactFrom v₀) (IntactFrom v₀) _ from
    hrest ⟨g', notes⟩ ⟨h'.wellFormed, h'.view_eq ▸ hswitched⟩
  exact (keeps_removeNode_intact hmul).bind fun _ => (keeps_removeNode_intact hproduct).bind
    fun _ => keeps_pure _

end MultiplierRule

namespace SliceRule

/-- Copying a bound breaks nothing. -/
theorem intact_copied {slice : NodeId} {b : Bound α} {constant copy : Node α} (hg : g.WellFormed)
    (h : Intact v₀ g.view) (hslice : Inner v₀ slice) (hcopies : Copies g.view b constant copy) :
    Intact v₀ (copied g.view slice b constant copy) := by
  have hgrows : g.view.Grows (((g.view.setNode constant.id (some constant)).setNode copy.id
      (some copy)).produce ⟨constant.id, 0⟩ copy.id) := by
    refine ⟨fun d hd => ?_, rfl, fun ⟨op, i⟩ d hq => ?_⟩
    · have hconstant : d ≠ constant.id := fun heq => hd (heq ▸ hcopies.constant_unused)
      have hcopy : d ≠ copy.id := fun heq => hd (heq ▸ hcopies.copy_unused)
      simp [hconstant, hcopy]
    · have hop : op ≠ constant.id := fun heq =>
        (hg.live_of_output hq).1 (heq ▸ hcopies.constant_unused)
      simpa [hop] using hq
  have hcopy : (((g.view.setNode constant.id (some constant)).setNode copy.id
      (some copy)).produce ⟨constant.id, 0⟩ copy.id).Supplies copy.id := by
    refine ⟨.constant b.value, ?_, .inl (Option.some_ne_none _)⟩
    simp [View.content, Node.content?, hcopies.copy]
  exact ((h.grows hgrows).unplug hslice).feed (hcopy.of_eq rfl rfl) hslice

/-- Rewriting a slice breaks nothing, also if it fails half-way. -/
theorem runs_commit_intact {p : Plan α} {notes : List LogEntry} (hg : IntactFrom v₀ g)
    (ha : Accepted g p) :
    Runs (commit p) ⟨g, notes⟩ (fun _ => IntactFrom v₀) (IntactFrom v₀) := by
  obtain ⟨hwf, h⟩ := hg
  obtain ⟨masks, inference, ho⟩ := ha.operator
  have hslice : Inner v₀ p.slice := h.inner_of_operator ho (by simp [Operation.type])
  refine runs_commit hwf ha (fun o ho => ?_) (fun g₁ b _ h₁ _ _ => h₁.store) ?_
  · exact h.setPayload hslice fun _ hd => hd.setPayload_op ho
  · exact fun g₁ b constant copy hwf₁ h₁ _ hcopies => intact_copied hwf₁ h₁ hslice hcopies

end SliceRule

namespace DeadRule

/-- What is unused is no terminal. -/
theorem unusedNodes_inner (h : Intact v₀ g.view) (hg : g.WellFormed) :
    ∀ id ∈ unusedNodes g, Inner v₀ id := by
  intro id hid
  obtain ⟨n, hn, rfl⟩ := List.mem_map.mp hid
  obtain ⟨hmem, hunused⟩ := List.mem_filter.mp hn
  refine h.inner fun n' hn' => ?_
  obtain rfl : n = n' := Option.some.inj ((hg.node?_eq_some_iff.mpr ⟨hmem, rfl⟩).symm.trans hn')
  rw [isUnused] at hunused
  rw [Node.isTerminal]
  split
  · rename_i htype
    rw [htype] at hunused
    cases hunused
  · rename_i htype
    rw [htype] at hunused
    cases hunused
  · rfl

/-- Inner nodes may be removed one after the other. -/
theorem keeps_removeNodes_intact {ids : List NodeId} (hids : ∀ id ∈ ids, Inner v₀ id) :
    Keeps (IntactFrom v₀) (IntactFrom v₀) (removeNodes ids : Edit α Unit) := by
  induction ids with
  | nil => exact keeps_pure _
  | cons id ids ih =>
    exact (keeps_removeNode_intact (hids id List.mem_cons_self)).bind fun _ =>
      (keeps_log _ _).bind fun _ => ih fun x hx => hids x (List.mem_cons_of_mem _ hx)

theorem keeps_removeRounds_intact (rounds : Nat) :
    Keeps (IntactFrom v₀) (IntactFrom v₀) (removeRounds rounds : Edit α Nat) := by
  induction rounds with
  | zero => exact keeps_throw (fun _ h => h) _
  | succ rounds ih =>
    intro s hs
    refine runs_bind (runs_graph fun notes => ?_)
    dsimp only
    split
    · exact runs_pure hs
    · exact ((keeps_removeNodes_intact (unusedNodes_inner hs.2 hs.1)).bind fun _ =>
        ih.bind fun _ => keeps_pure _) ⟨s.graph, notes⟩ hs

end DeadRule

/-- No built-in rule breaks a graph. -/
theorem builtinRules_preserve_intact [Scalar α] {rule : Rule α} (h : rule ∈ builtinRules) :
    rule.Preserves (IntactFrom v₀) (IntactFrom v₀) := by
  simp only [builtinRules, List.mem_cons, List.not_mem_nil, or_false] at h
  rcases h with rfl | rfl | rfl | rfl | rfl
  · intro _ _ s m hs _
    refine runs_planThenCommit (fun planned hplan notes => ?_) (fun _ _ => hs) fun _ _ => hs
    obtain ⟨input, ha⟩ := TileRule.plan_accepted hplan
    refine TileRule.runs_commit hs.1 ha fun g' c w hc hw hg' hview => ⟨hg', ?_⟩
    rw [hview]
    exact TileRule.intact_wrapped hs.1 hs.2 ha hc hw
  · intro _ hp s m hs hm
    refine runs_planThenCommit (fun planned hplan notes => ?_) (fun _ _ => hs) fun _ _ => hs
    exact PermuteRule.runs_commit_intact hs (PermuteRule.plan_accepted hs.1 hp hm hplan)
  · intro _ hp s m hs hm
    refine runs_planThenCommit (fun planned hplan notes => ?_) (fun _ _ => hs) fun _ _ => hs
    obtain ⟨tensor, multiplier, shape, ha⟩ := MultiplierRule.plan_accepted hs.1 hp hm hplan
    exact MultiplierRule.runs_commit_intact hs ha
  · intro _ _ s m hs _
    refine runs_planThenCommit (fun planned hplan notes => ?_) (fun _ _ => hs) fun _ _ => hs
    exact SliceRule.runs_commit_intact hs (SliceRule.plan_accepted hplan)
  · intro s hs
    exact runs_bind (runs_graph fun notes =>
      DeadRule.keeps_removeRounds_intact _ ⟨s.graph, notes⟩ hs)

/-! ## Pipelines -/

/-- Every data node that is read has a producer or a value. -/
def Graph.Supplied (g : Graph α) : Prop :=
  ∀ d c, g.content? d = some c → g.readers d ≠ [] → g.producer? d ≠ none ∨ c.value ≠ none

instance (g : Graph α) : Decidable g.Supplied :=
  decidable_of_iff (∀ d ∈ g.ids, ∀ c ∈ g.content? d, g.readers d ≠ [] →
      g.producer? d ≠ none ∨ c.value ≠ none) <| by
    refine ⟨fun h d c hc => h d ?_ c hc, fun h d _ c hc => h d c hc⟩
    obtain ⟨n, hn, -⟩ := Option.bind_eq_some_iff.mp hc
    exact mem_ids_of_node? hn

/-- A graph is supplied if each port is fed with data that is. -/
theorem supplied_iff (hg : g.WellFormed) :
    g.Supplied ↔ ∀ q d, g.view.input q = some d → g.view.Supplies d := by
  constructor
  · intro h q d hq
    have hdata := (hg.view_input_kinds hq).2
    obtain ⟨c, hc⟩ := kind?_eq_data.mp hdata
    refine ⟨c, hc, (h d c hc ?_).symm.imp_right fun hmade => ?_⟩
    · exact List.ne_nil_of_mem ((hg.mem_readers_iff hdata).mpr hq)
    · obtain ⟨p, hp⟩ := Option.ne_none_iff_exists'.mp hmade
      exact ⟨p, (hg.producer?_eq_some_iff hdata).mp hp⟩
  · intro h d c hc hread
    have hdata := kind?_eq_data.mpr ⟨c, hc⟩
    obtain ⟨q, hq⟩ := List.exists_mem_of_ne_nil _ hread
    obtain ⟨c', hc', hsource⟩ := h q d ((hg.mem_readers_iff hdata).mp hq)
    obtain rfl : c = c' := Option.some.inj (hc.symm.trans hc')
    refine hsource.symm.imp_left fun ⟨p, hp⟩ => ?_
    rw [(hg.producer?_eq_some_iff hdata).mpr hp]
    exact Option.some_ne_none p

/-- The used inputs of an operator are its ports that are fed. -/
theorem mem_usedInputs_iff (hg : g.WellFormed) (hop : g.kind? id = some .op) {p : InputPort} :
    p ∈ g.usedInputs id ↔ p.node = id ∧ (g.view.input p).isSome = true := by
  simp only [usedInputs, mem_sorted, List.mem_map, hg.mem_inEdges, Option.isSome_iff_exists]
  constructor
  · rintro ⟨e, ⟨he, rfl⟩, rfl⟩
    refine ⟨rfl, e.src, hg.view_input_iff.mpr ⟨hop, e, he, ?_⟩⟩
    rw [← (hg.wired_to_op ⟨e, he, rfl⟩ hop).2]
  · rintro ⟨rfl, d, hd⟩
    obtain ⟨e, he, hw⟩ := (hg.view_input_iff.mp hd).2
    refine ⟨e, ⟨he, congrArg Wire.dst hw⟩, ?_⟩
    rw [show e.dstPort = p.index from congrArg Wire.dstPort hw]

theorem Node.kind_of_isTerminal {n : Node α} (h : n.isTerminal = true) : n.kind = .op := by
  obtain ⟨_, _, payload, _⟩ := n
  cases payload with
  | op _ => rfl
  | data _ => cases h

/-- However a run of built-in rules ends: if every data node that is read had a producer or a value,
this is still so, and the graph inputs and outputs are the same nodes with the same ports
connected. -/
theorem run_keeps_terminals [Scalar α] (hg : Reachable g) (h : g.Supplied) {p : Pipeline α}
    (hp : ∀ rule ∈ p.rules, rule ∈ builtinRules) (notes : List LogEntry) :
    (graphAfter p.run ⟨g, notes⟩).Supplied ∧
      ∀ id n, g.node? id = some n → n.isTerminal = true →
        (graphAfter p.run ⟨g, notes⟩).node? id = some n ∧
          ∀ port, port ∈ (graphAfter p.run ⟨g, notes⟩).usedInputs id ↔ port ∈ g.usedInputs id := by
  have hwf := hg.wellFormed
  have hstart : IntactFrom g.view g :=
    ⟨hwf, (supplied_iff hwf).mp h, fun id n hn _ => ⟨hn, fun _ => rfl⟩⟩
  obtain ⟨hwf', hintact⟩ := (Pipeline.keeps_run (fun _ h => h) (fun rule hrule =>
    builtinRules_preserve_intact (hp rule hrule)) ⟨g, notes⟩ hstart).graphAfter
  refine ⟨(supplied_iff hwf').mpr hintact.supplied, fun id n hn hterminal => ?_⟩
  obtain ⟨hn', hinputs⟩ := hintact.terminal id n hn hterminal
  have hkind : ∀ {g : Graph α}, g.node? id = some n → g.kind? id = some .op := fun hn => by
    rw [kind?, hn, Option.map_some, Node.kind_of_isTerminal hterminal]
  refine ⟨hn', fun port => ?_⟩
  obtain ⟨op, i⟩ := port
  rw [mem_usedInputs_iff hwf' (hkind hn'), mem_usedInputs_iff hwf (hkind hn)]
  refine and_congr_right fun hop => ?_
  rw [show op = id from hop, hinputs i]

/-- Two permutes that cancel; the second one has two results, and an output reads both. -/
def twofoldCommands : List (Command Float) :=
  [.addOperator "x" .parameter, .addOperator "first" (.permute [1, 0]),
    .addOperator "second" (.permute [1, 0]), .addOperator "out" .output,
    .link ⟨0, 0⟩ ⟨1, 0⟩, .link ⟨1, 0⟩ ⟨2, 0⟩, .link ⟨2, 0⟩ ⟨3, 0⟩, .link ⟨2, 1⟩ ⟨3, 1⟩]

/-- The run fails after the first port of the output has been moved. -/
theorem twofoldCommands_breaks :
    ∃ error s, (⟨builtinRules, 10⟩ : Pipeline Float).run ⟨runCommands .nchw twofoldCommands, []⟩ =
      .error error s ∧ s.graph.feeding? ⟨3, 0⟩ = some 4 := by
  have hbreaks : (match (⟨builtinRules, 10⟩ : Pipeline Float).run
        ⟨runCommands .nchw twofoldCommands, []⟩ with
      | .ok _ _ => false
      | .error _ s => s.graph.feeding? ⟨3, 0⟩ == some 4) = true := by
    decide +kernel
  split at hbreaks
  · cases hbreaks
  · rename_i error s hfailed
    exact ⟨error, s, hfailed, beq_iff_eq.mp hbreaks⟩

/-- The run breaks off after the output has been moved to the graph input; it still has its two
ports connected, to tensors that are made. -/
theorem twofoldCommands_intact :
    Reachable (runCommands .nchw twofoldCommands) ∧ (runCommands .nchw twofoldCommands).Supplied ∧
    ∃ error s, (⟨builtinRules, 10⟩ : Pipeline Float).run ⟨runCommands .nchw twofoldCommands, []⟩ =
        .error error s ∧ s.graph.feeding? ⟨3, 0⟩ = some 4 ∧ s.graph.Supplied ∧
      ∀ port, port ∈ s.graph.usedInputs 3 ↔
        port ∈ (runCommands .nchw twofoldCommands).usedInputs 3 := by
  have hsupplied : (runCommands .nchw twofoldCommands).Supplied := by decide +kernel
  have hout : ((runCommands .nchw twofoldCommands).node? 3).map Node.isTerminal = some true := by
    decide +kernel
  obtain ⟨n, hn, hterminal⟩ := Option.map_eq_some_iff.mp hout
  obtain ⟨error, s, hfailed, hfed⟩ := twofoldCommands_breaks
  have hkept := run_keeps_terminals ⟨_, _, rfl⟩ hsupplied (p := ⟨builtinRules, 10⟩) (fun _ h => h) []
  rw [graphAfter, hfailed] at hkept
  exact ⟨⟨_, _, rfl⟩, hsupplied, error, s, hfailed, hfed, hkept.1, (hkept.2 3 n hn hterminal).2⟩

end TensorGraph
