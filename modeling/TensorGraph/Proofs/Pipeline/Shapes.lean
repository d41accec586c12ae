/-
  A pipeline keeps the shapes of a graph consistent.

  Inference that has nothing left to do is a property of the shapes at the ports of each operator
  (`inferAll_eq_ok_zero_iff`), and every built-in rule keeps it, offer by offer and removal by
  removal (`builtinRules_preserve_kept`).  So a run of any pipeline of these rules that succeeds
  ends with a graph on which inference again has nothing to do (`execute_keeps_shapes`), although no
  rule calls it.

  A graph has to be `Prepared` for this: its operators infer by default, its values have their own
  shapes and come from constants, and stored shapes fit.  All of it can be decided on the graph at
  the start (`prepared_iff`).  Three rules compare shapes before they edit.  The removal of dead
  nodes compares nothing, but it takes no data that something makes (`Unmade`), so an operator that
  stays keeps its result.
-/
import TensorGraph.Proofs.Reachable
import TensorGraph.Proofs.Rule.Shapes

namespace TensorGraph

open Edit TensorGraph.Graph

variable {α : Type} {v₀ : View α} {g : Graph α}

/-- The graph is well-formed, and its shapes are consistent and at the boundary those of `v₀`. -/
def KeptFrom (v₀ : View α) (g : Graph α) : Prop :=
  g.WellFormed ∧ Kept v₀ g.view

/-! ## Dead nodes -/

namespace DeadRule

/-- The data among the nodes has no producer. -/
def Unmade (g : Graph α) (ids : List NodeId) : Prop :=
  ∀ id ∈ ids, g.kind? id = some .data → ∀ q, g.view.output q ≠ some id

theorem unmade_unusedNodes (hg : g.WellFormed) : Unmade g (unusedNodes g) := by
  intro id hid hdata q hq
  obtain ⟨n, hn, rfl⟩ := List.mem_map.mp hid
  obtain ⟨hmem, hunused⟩ := List.mem_filter.mp hn
  have hnode : g.node? n.id = some n := hg.node?_eq_some_iff.mpr ⟨hmem, rfl⟩
  rw [isUnused, opcode?_of_data hnode hdata, Bool.and_eq_true, Option.isNone_iff_eq_none, producer?,
    Option.map_eq_none_iff, hg.producingEdge?_eq_none_iff] at hunused
  exact hunused.1 _ (hg.view_output_iff.mp hq).2 rfl

theorem runs_removeNodes {ids : List NodeId} {notes : List LogEntry} (hg : KeptFrom v₀ g)
    (hids : Unmade g ids) :
    Runs (removeNodes ids) ⟨g, notes⟩ (fun _ => KeptFrom v₀) fun _ => True := by
  induction ids generalizing g notes with
  | nil => exact runs_pure hg
  | cons id ids ih =>
    obtain ⟨hwf, hkept⟩ := hg
    refine runs_bind (runs_removeNode hwf (fun n hn hremovable notes => ?_) fun _ => trivial)
    have hview := hwf.view_eraseNode id
    have hkept' : Kept v₀ (g.view.erase id) := by
      rw [← hwf.removable_view] at hremovable
      refine hkept.erase (fun q hq => hremovable.1 (hwf.view_input_kinds hq).2 q hq) fun q o hq _ => ?_
      exact absurd hq (hids id List.mem_cons_self (hwf.view_output_kinds hq).2 q)
    -- a removal takes producers away but gives none
    refine runs_bind (runs_log fun notes => ih ⟨hwf.eraseNode id, hview ▸ hkept'⟩ ?_)
    intro id' hid' hdata q hq
    rw [hview, View.erase_output_iff] at hq
    exact hids id' (List.mem_cons_of_mem _ hid') (hwf.view_output_kinds hq.2.2).2 q hq.2.2

theorem keeps_removeRounds_kept (rounds : Nat) :
    Keeps (KeptFrom v₀) (fun _ => True) (removeRounds rounds : Edit α Nat) := by
  induction rounds with
  | zero => exact keeps_throw (fun _ _ => trivial) _
  | succ rounds ih =>
    intro s hs
    refine runs_bind (runs_graph fun notes => ?_)
    dsimp only
    split
    · exact runs_pure hs
    · refine runs_bind ((runs_removeNodes hs (unmade_unusedNodes hs.1)).imp
        (fun _ g hg notes => ?_) fun _ hE => hE)
      exact ih.bind (fun _ => keeps_pure _) ⟨g, notes⟩ hg

end DeadRule

/-! ## All rules -/

/-- A rule that plans and commits keeps what its commits keep. -/
theorem runs_replace_kept {π : Type} {name : String} {plan : Graph α → Planning π}
    {commit : π → Edit α Unit} {s : Session α} (hs : KeptFrom v₀ s.graph)
    (hcommit : ∀ planned, plan s.graph = .ok planned → ∀ notes,
      Runs (commit planned) ⟨s.graph, notes⟩ (fun _ => KeptFrom v₀) fun _ => True) :
    Runs (planThenCommit name plan commit) s (fun _ => KeptFrom v₀) fun _ => True :=
  runs_planThenCommit hcommit (fun _ _ => hs) fun _ _ => trivial

theorem builtinRules_preserve_kept [Scalar α] {rule : Rule α} (h : rule ∈ builtinRules) :
    rule.Preserves (KeptFrom v₀) fun _ => True := by
  simp only [builtinRules, List.mem_cons, List.not_mem_nil, or_false] at h
  rcases h with rfl | rfl | rfl | rfl | rfl
  · intro _ _ s m hs _
    refine runs_replace_kept hs fun planned hplan notes => ?_
    obtain ⟨input, ha⟩ := TileRule.plan_accepted hplan
    refine TileRule.runs_commit hs.1 ha fun g' c w hc hw hg' hview => ⟨hg', ?_⟩
    rw [hview]
    exact TileRule.kept_wrapped hs.1 ha hs.2 hc hw
  · intro _ hp s m hs hm
    refine runs_replace_kept hs fun planned hplan notes => ?_
    have ha := PermuteRule.plan_accepted hs.1 hp hm hplan
    refine PermuteRule.runs_commit hs.1 ha (fun _ _ g' o c ho hc hg' hview => ⟨hg', ?_⟩)
      (fun _ hidentity _ g' hg' hview => ⟨hg', ?_⟩) (fun _ _ _ => trivial) fun _ _ _ _ _ => trivial
    · rw [hview]
      exact PermuteRule.kept_fused hs.1 ha hs.2 ho hc
    · rw [hview]
      exact PermuteRule.kept_cancelled hs.1 ha hs.2 hidentity
  · intro _ hp s m hs hm
    refine runs_replace_kept hs fun planned hplan notes => ?_
    obtain ⟨tensor, multiplier, shape, ha⟩ := MultiplierRule.plan_accepted hs.1 hp hm hplan
    refine MultiplierRule.runs_commit hs.1 ha (fun _ g' hg' hview => ⟨hg', ?_⟩)
      fun _ _ _ => trivial
    rw [hview]
    exact MultiplierRule.kept_fused hs.1 ha hs.2
  · intro _ _ s m hs _
    refine runs_replace_kept hs fun planned hplan notes => ?_
    exact SliceRule.runs_commit_kept hs.1 (SliceRule.plan_accepted hplan) hs.2
  · intro s hs
    exact runs_bind (runs_graph fun notes => DeadRule.keeps_removeRounds_kept _ ⟨s.graph, notes⟩ hs)

/-! ## Pipelines -/

/-- What a run may rely on: every operator infers by default, a value has its shape as the resolved
one and comes from a constant if it comes from anything, and resolved shapes fit. -/
structure Prepared (g : Graph α) : Prop where
  default : ∀ op o, g.operator? op = some o → o.inference = Inference.ofOperation? o.operation
  valued : Valued g.view
  fits : ∀ d s, g.view.shape d = some s → s.Fits

/-- The conditions over the nodes and edges that there are. -/
theorem prepared_iff : Prepared g ↔
    (∀ id ∈ g.ids, ∀ o ∈ g.operator? id, o.inference = Inference.ofOperation? o.operation) ∧
    ∀ id ∈ g.ids, ∀ c ∈ g.content? id, (∀ s ∈ c.knownShape, s.Fits) ∧
      ∀ value ∈ c.value, c.knownShape = some value.shape ∧
        ∀ op ∈ g.ids, ∀ e ∈ g.outEdges op, g.view.output ⟨op, e.srcPort⟩ = some id →
          ∃ o ∈ g.operator? op, o.operation = .const := by
  constructor
  · rintro ⟨hdefault, hvalued, hfits⟩
    refine ⟨fun id _ => hdefault id, fun id _ c hc => ⟨fun s hs => ?_, fun value hvalue => ?_⟩⟩
    · exact hfits id s (Option.bind_eq_some_iff.mpr ⟨c, hc, hs⟩)
    · obtain ⟨hshape, hfrom⟩ := hvalued id c value hc hvalue
      refine ⟨hshape, fun op _ e _ he => ?_⟩
      obtain ⟨inference, ho⟩ := hfrom _ he
      exact ⟨_, ho, rfl⟩
  · rintro ⟨hdefault, hdata⟩
    refine ⟨fun id o ho => ?_, fun id c value hc hvalue => ?_, fun id s hs => ?_⟩
    · obtain ⟨n, hn, -⟩ := Option.bind_eq_some_iff.mp ho
      exact hdefault id (mem_ids_of_node? hn) o ho
    · obtain ⟨n, hn, -⟩ := Option.bind_eq_some_iff.mp hc
      obtain ⟨hshape, hfrom⟩ := (hdata id (mem_ids_of_node? hn) c hc).2 value hvalue
      refine ⟨hshape, fun q hq => ?_⟩
      obtain ⟨hop, hresult⟩ := Option.ite_none_right_eq_some.mp hq
      obtain ⟨n, hn, -⟩ := Option.map_eq_some_iff.mp hop
      obtain ⟨e, he, -⟩ := Option.map_eq_some_iff.mp hresult
      obtain ⟨hedge, hport⟩ := mem_of_edgeOutOf? he
      obtain ⟨⟨operation, inference⟩, ho, rfl⟩ :=
        hfrom q.node (mem_ids_of_node? hn) e hedge (by rw [hport]; exact hq)
      exact ⟨inference, ho⟩
    · obtain ⟨c, hc, hs⟩ := Option.bind_eq_some_iff.mp hs
      obtain ⟨n, hn, -⟩ := Option.bind_eq_some_iff.mp hc
      exact (hdata id (mem_ids_of_node? hn) c hc).1 s hs

instance (g : Graph α) : Decidable (Prepared g) :=
  decidable_of_iff _ prepared_iff.symm

theorem Prepared.shaped (h : Prepared g) (hg : g.WellFormed) {notes : List LogEntry}
    (hinfer : ∃ s, inferAll ⟨g, notes⟩ = .ok 0 s) : Shaped g.view where
  legal := fun op o ho => by
    refine ⟨h.default op o ho, (inferAll_eq_ok_zero_iff hg h.default).mp hinfer op o ho, fun _ =>
      ⟨fun s hs => ?_, fun s hs => ?_⟩⟩
    · obtain ⟨d, -, hd⟩ := Option.map_eq_some_iff.mp hs
      exact h.fits d s hd
    · obtain ⟨d, -, hd⟩ := Option.map_eq_some_iff.mp hs
      exact h.fits d s (View.shape_of_stored hd)
  valued := h.valued

/-- Where inference has nothing to do, it has nothing to do after a run of the built-in rules
either, and the outputs and custom operators that are left read the shapes that they read before. -/
theorem execute_keeps_shapes [Scalar α] {g g' : Graph α} {notes notes' : List LogEntry}
    {disabled : List String} {limit : Nat} {report : Report} (hg : Reachable g) (h : Prepared g)
    (hinfer : ∃ s, inferAll ⟨g, notes⟩ = .ok 0 s)
    (hrun : (⟨builtinRules, disabled, limit⟩ : PipelineDescription α).execute ⟨g, notes⟩ =
      .ok report ⟨g', notes'⟩) :
    (∃ s, inferAll ⟨g', notes'⟩ = .ok 0 s) ∧
      ∀ op o, g'.operator? op = some o → AtBoundary o.operation →
        g.operator? op = some o ∧ ∀ i, g'.view.reading ⟨op, i⟩ = g.view.reading ⟨op, i⟩ := by
  have hkept : KeptFrom g.view g := ⟨hg.wellFormed, (h.shaped hg.wellFormed hinfer).kept⟩
  obtain ⟨hwf, hshapes⟩ := (PipelineDescription.keeps_execute (fun _ _ => trivial)
    (fun rule hrule => builtinRules_preserve_kept hrule) ⟨g, notes⟩ hkept).of_ok hrun
  refine ⟨(inferAll_eq_ok_zero_iff hwf fun op o ho => (hshapes.legal op o ho).default).mpr ?_,
    hshapes.boundary⟩
  exact fun op o ho => (hshapes.legal op o ho).settled

/-- A tile of rank three before two permutes that cancel, a slice of an image whose bounds are one
constant, and a permute that nothing reads. -/
def reshapedCommands : List (Command Float) :=
  [.addOperator "x" .parameter, .addOperator "tile" (.tile 1 2),
    .addOperator "first" (.permute [2, 0, 1]), .addOperator "second" (.permute [1, 2, 0]),
    .addOperator "out" .output, .addOperator "image" .parameter, .addOperator "bounds" .const,
    .addOperator "slice" (.stridedSlice ⟨[], [], [], [], [], false⟩), .addOperator "part" .output,
    .link ⟨0, 0⟩ ⟨1, 0⟩, .link ⟨1, 0⟩ ⟨2, 0⟩, .link ⟨2, 0⟩ ⟨3, 0⟩, .link ⟨3, 0⟩ ⟨4, 0⟩,
    .link ⟨5, 0⟩ ⟨7, 0⟩, .link ⟨6, 0⟩ ⟨7, 1⟩, .link ⟨6, 0⟩ ⟨7, 2⟩, .link ⟨7, 0⟩ ⟨8, 0⟩,
    .addOperator "idle" (.permute [1, 0, 2]), .addData "turned" ⟨none, none, none⟩,
    .feed 9 ⟨16, 0⟩, .produce ⟨16, 0⟩ 17,
    .modifyContent 9 fun _ => ⟨some [2, 3, 4], none, none⟩,
    .modifyContent 13 fun _ => ⟨some [1, 4, 4, 2], none, none⟩,
    .modifyContent 14 fun _ => .constant ⟨[4], .int64 [1, 2, 3, 4]⟩,
    .modifyContent 15 fun _ => ⟨some [1, 2, 3, 2], none, none⟩, .inferAll]

theorem reshapedCommands_inferred :
    ∃ s, inferAll ⟨runCommands .nhwc reshapedCommands, []⟩ = .ok 0 s := by
  obtain ⟨changed, s, hinfer, rfl⟩ := exists_ok inferAll ⟨runCommands .nhwc reshapedCommands, []⟩
    (fun changed _ => changed = 0) (by decide +kernel)
  exact ⟨s, hinfer⟩

theorem reshapedCommands_run :
    ∃ report g' notes', (⟨builtinRules, [], 10⟩ : PipelineDescription Float).execute
      ⟨runCommands .nhwc reshapedCommands, []⟩ = .ok report ⟨g', notes'⟩ ∧ report.total = 5 := by
  obtain ⟨report, s, hrun, htotal⟩ :=
    exists_ok (⟨builtinRules, [], 10⟩ : PipelineDescription Float).execute
      ⟨runCommands .nhwc reshapedCommands, []⟩ (fun report _ => report.total = 5)
      (by decide +kernel)
  exact ⟨report, s.graph, s.log, hrun, htotal⟩

/-- Three rewrites and two removals, after which inference has nothing to do. -/
theorem reshapedCommands_settled :
    Reachable (runCommands .nhwc reshapedCommands) ∧ Prepared (runCommands .nhwc reshapedCommands) ∧
    ∃ report g' notes', (⟨builtinRules, [], 10⟩ : PipelineDescription Float).execute
        ⟨runCommands .nhwc reshapedCommands, []⟩ = .ok report ⟨g', notes'⟩ ∧ report.total = 5 ∧
      (∃ s, inferAll ⟨g', notes'⟩ = .ok 0 s) ∧
      ∀ op o, g'.operator? op = some o → AtBoundary o.operation →
        (runCommands .nhwc reshapedCommands).operator? op = some o ∧
          ∀ i, g'.view.reading ⟨op, i⟩ =
            (runCommands .nhwc reshapedCommands).view.reading ⟨op, i⟩ := by
  have hprepared : Prepared (runCommands .nhwc reshapedCommands) := by decide +kernel
  obtain ⟨report, g', notes', hrun, htotal⟩ := reshapedCommands_run
  exact ⟨⟨_, _, rfl⟩, hprepared, report, g', notes', hrun, htotal,
    execute_keeps_shapes ⟨_, _, rfl⟩ hprepared reshapedCommands_inferred hrun⟩

end TensorGraph
