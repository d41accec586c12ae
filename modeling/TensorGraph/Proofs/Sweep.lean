/-
  One pass of inference makes stored shapes consistent.

  On a fixed skeleton, inference of one operator is a step on stored shapes: `learn` looks at what
  the operator reads, at its own result if it passes a stored shape on, and writes at its first
  result.  In topological order no later step writes what an earlier one has looked at or written
  (`Independent`).  So what was found stays right, a second pass has nothing to do, and every
  changed shape is counted once.

  By the same order, a shape that inference computes is written before anything looks at it.  Two
  graphs that differ in such shapes only go through the pass in lockstep.

    1. What inference looks at (`run_congr`), and one operator as a step on shapes
       (`inferNode_ending`).
    2. A step that is made again finds the same (`learn_again`), and a later step leaves it so
       (`learn_kept`).
    3. A sweep leaves each node as it was learned (`sweep_learned`), so sweeping again changes
       nothing (`sweep_of_learned`).
    4. Shapes that are computed do not matter at the start (`sweep_lockstep`).
    5. `inferAll_consistent`: all of it about inference of the whole graph.
-/
import TensorGraph.Proofs.Graph.Assign
import TensorGraph.Proofs.Inference
import TensorGraph.Proofs.Reachable

namespace TensorGraph

open Edit
open Function (update)

variable {α : Type}

/-! ## What inference looks at -/

/-- Inference passes on the shape that is stored at the result. -/
def Inference.readsResult : Inference → Bool
  | .parameter | .const => true
  | _ => false

namespace Graph

variable {g : Graph α} {σ τ : Shapes} {op : NodeId}

/-- Shapes say nothing about operators. -/
theorem operator_assign : (g.assign σ).operator op = g.operator op := by
  unfold operator node
  rw [node?_assign]
  rcases g.node? op with _ | ⟨_, _, (o | c), _⟩ <;> rfl

/-- Content depends on the shape of its own node only. -/
theorem content_congr {d : NodeId} (h : σ d = τ d) :
    (g.assign σ).content d = (g.assign τ).content d := by
  unfold content node
  rw [node?_assign, node?_assign, h]

/-- The shape of an operand depends on the data that feeds it. -/
theorem operandShape_congr {i : Nat} (h : ∀ d, g.feeding? ⟨op, i⟩ = some d → σ d = τ d) :
    (g.assign σ).operandShape op i = (g.assign τ).operandShape op i := by
  have hoperand : ∀ ρ, (g.assign ρ).operand ⟨op, i⟩ = g.operand ⟨op, i⟩ := fun _ => rfl
  unfold operandShape
  rw [hoperand, hoperand]
  cases hd : g.operand ⟨op, i⟩ with
  | error e => rfl
  | ok d =>
    rw [except_ok_bind, except_ok_bind, content_congr (h d (operand_eq_ok.mp hd))]

/-- The shape that is stored at a result depends on the result. -/
theorem storedShape_congr {what : String} (h : ∀ d, g.result? ⟨op, 0⟩ = some d → σ d = τ d) :
    (g.assign σ).storedShape op what = (g.assign τ).storedShape op what := by
  have hresult : ∀ ρ, (g.assign ρ).result? ⟨op, 0⟩ = g.result? ⟨op, 0⟩ := fun _ => rfl
  unfold storedShape
  rw [hresult, hresult]
  cases hd : g.result? ⟨op, 0⟩ with
  | none => rfl
  | some d =>
    dsimp only
    rw [content_congr (h d hd)]

/-- Inference looks at the shapes that are read, and at the one at the result only to pass it on. -/
theorem run_congr {way : Inference} (hread : ∀ i d, g.feeding? ⟨op, i⟩ = some d → σ d = τ d)
    (hresult : way.readsResult = true → ∀ d, g.result? ⟨op, 0⟩ = some d → σ d = τ d) :
    way.run (g.assign σ) op = way.run (g.assign τ) op := by
  have hoperand := fun i => operandShape_congr (hread i)
  unfold Inference.run
  cases way with
  | parameter | const =>
    dsimp only
    rw [storedShape_congr (hresult rfl)]
  | output => rfl
  | mul | quantize | permute | tile | reshape =>
    simp only [hoperand, operator_assign]

/-- There is never more than one shape. -/
theorem run_eq_head {way : Inference} {shapes : List Shape} (h : way.run g op = .ok shapes) :
    shapes = shapes.head?.toList := by
  unfold Inference.run at h
  cases way with
  | output =>
    cases h
    rfl
  | parameter | const | quantize =>
    obtain ⟨s, -, h⟩ := except_bind_eq_ok.mp h
    cases h
    rfl
  | mul =>
    obtain ⟨l, -, h⟩ := except_bind_eq_ok.mp h
    obtain ⟨r, -, h⟩ := except_bind_eq_ok.mp h
    split at h <;> cases h
    rfl
  | permute =>
    obtain ⟨o, -, h⟩ := except_bind_eq_ok.mp h
    split at h
    · obtain ⟨input, -, h⟩ := except_bind_eq_ok.mp h
      obtain ⟨p, -, h⟩ := except_bind_eq_ok.mp h
      split at h <;> cases h
      rfl
    · cases h
  | tile =>
    obtain ⟨o, -, h⟩ := except_bind_eq_ok.mp h
    split at h
    · obtain ⟨input, -, h⟩ := except_bind_eq_ok.mp h
      split at h
      · obtain ⟨product, -, h⟩ := except_bind_eq_ok.mp h
        cases h
        rfl
      · cases h
    · cases h
  | reshape =>
    obtain ⟨o, -, h⟩ := except_bind_eq_ok.mp h
    split at h
    · obtain ⟨input, -, h⟩ := except_bind_eq_ok.mp h
      obtain ⟨s, -, h⟩ := except_bind_eq_ok.mp h
      cases h
      rfl
    · cases h

/-! ## One operator as a step on shapes -/

/-- The shape that inference finds for the first result of a node, if it finds any. -/
def finds (g : Graph α) (id : NodeId) : Except Error (Option Shape) :=
  match (g.operator? id).bind (·.inference) with
  | none => .ok none
  | some way => (way.run g id).map List.head?

/-- The stored shapes with the one at the first result of a node replaced by what was found. -/
def write (g : Graph α) (σ : Shapes) (id : NodeId) (found : Option Shape) : Shapes :=
  match found with
  | none => σ
  | some s =>
    match g.view.output ⟨id, 0⟩ with
    | none => σ
    | some d => update σ d (some s)

/-- The stored shapes after inference of a node. -/
def learn (g : Graph α) (σ : Shapes) (id : NodeId) : Except Error Shapes :=
  ((g.assign σ).finds id).map (g.write σ id)

/-- How many data nodes of the graph have different shapes. -/
def changed (g : Graph α) (σ τ : Shapes) : Nat :=
  (g.ids.filter fun d => g.kind? d = some .data).countP fun d => σ d ≠ τ d

/-- Nothing has changed from a list of shapes to itself. -/
theorem changed_self : g.changed σ σ = 0 := by
  simp [changed]

/-- One shape counts as one change, if it is another one. -/
theorem changed_update (hg : g.WellFormed) {d : NodeId} (hd : g.kind? d = some .data)
    (s : Option Shape) : g.changed σ (update σ d s) = if σ d = s then 0 else 1 := by
  have hpoint : ∀ x, (σ x ≠ update σ d s x) ↔ x = d ∧ σ d ≠ s := by
    intro x
    by_cases hx : x = d
    · subst hx
      simp
    · simp [hx]
  split
  · rename_i hsame
    rw [← hsame, Function.update_eq_self, changed_self]
  · rename_i hne
    have hcount : g.changed σ (update σ d s) =
        (g.ids.filter fun d => g.kind? d = some .data).count d := by
      unfold changed List.count
      refine List.countP_congr fun x _ => ?_
      rw [decide_eq_true_eq, hpoint, beq_iff_eq]
      exact and_iff_left hne
    rw [hcount]
    refine List.count_eq_one_of_mem (hg.ids_nodup.filter _) (List.mem_filter.mpr ⟨?_, ?_⟩)
    · exact hg.mem_ids_iff.mpr (hasNode_of_kind? hd)
    · exact decide_eq_true hd

/-- Counts add up if no shape changes twice. -/
theorem changed_add {ρ : Shapes} (h : ∀ d, σ d = τ d ∨ τ d = ρ d) :
    g.changed σ ρ = g.changed σ τ + g.changed τ ρ := by
  unfold changed
  generalize (g.ids.filter fun d => g.kind? d = some .data) = ids
  induction ids with
  | nil => rfl
  | cons d ids ih =>
    simp only [List.countP_cons, ih]
    rcases h d with hd | hd
    · simp only [hd, ne_eq, not_true_eq_false, decide_false, Bool.false_eq_true, if_false]
      omega
    · simp only [hd, ne_eq, not_true_eq_false, decide_false, Bool.false_eq_true, if_false]
      omega

end Graph

namespace Edit

open TensorGraph.Graph

variable {g : Graph α} {σ τ : Shapes} {notes : List LogEntry}

/-- Storing a shape writes it, and counts whether it is new. -/
theorem storeShape_ending (hg : g.WellFormed) {op : NodeId} (hop : g.kind? op = some .op)
    (shape : Shape) :
    (storeShape ⟨op, 0⟩ shape).ending ⟨g.assign σ, notes⟩ =
      (.ok (g.changed σ (g.write σ op (some shape))), g.assign (g.write σ op (some shape))) := by
  have hresult : (g.assign σ).result? ⟨op, 0⟩ = g.view.output ⟨op, 0⟩ :=
    (view_output_of_op (p := ⟨op, 0⟩) hop).symm
  refine ending_bind (b := g.assign σ) rfl fun notes => ?_
  dsimp only
  unfold write
  rw [hresult]
  cases hd : g.view.output ⟨op, 0⟩ with
  | none =>
    dsimp only
    rw [changed_self]
    rfl
  | some d =>
    have hdata := (hg.view_output_kinds hd).2
    obtain ⟨c, hc⟩ : ∃ c, (g.assign σ).content? d = some c :=
      kind?_eq_data.mp (by rwa [kind?_assign])
    have hstored : c.shape = σ d := by
      rw [content?_assign] at hc
      obtain ⟨c', -, rfl⟩ := Option.map_eq_some_iff.mp hc
      rfl
    have hquery : (query fun g => g.content d).ending ⟨g.assign σ, notes⟩ = (.ok c, g.assign σ) := by
      rw [ending_query, content_eq_ok.mpr hc]
    refine ending_bind hquery fun notes => ?_
    dsimp only
    rw [hstored, changed_update hg hdata]
    split
    · rename_i hsame
      rw [← hsame, Function.update_eq_self]
      rfl
    · refine ending_bind (b := ()) rfl fun notes => ending_bind (b := ()) ?_ fun _ => rfl
      refine ending_of_runs (runs_modifyContent (fun c' hc' => ⟨rfl, ?_⟩) fun hmissing => ?_)
      · obtain rfl : c = c' := Option.some.inj (hc.symm.trans hc')
        exact hg.setPayload_assign hc (some shape)
      · rw [hmissing] at hc
        cases hc

/-- Inference at a node learns what the node finds, and counts what is new. -/
theorem inferNode_ending (hg : g.WellFormed) {id : NodeId} (hid : g.node? id ≠ none) :
    (inferNode id).ending ⟨g.assign σ, notes⟩ =
      match g.learn σ id with
      | .ok τ => (.ok (g.changed σ τ), g.assign τ)
      | .error e => (.error e, g.assign σ) := by
  obtain ⟨n, hn⟩ := Option.ne_none_iff_exists'.mp hid
  have hnode : (g.assign σ).node? id = some (n.withShape (σ id)) := by
    rw [node?_assign, hn, Option.map_some]
  have hoperator : (g.assign σ).operator? id = n.operator? := by
    rw [operator?_assign, operator?, hn, Option.bind_some]
  have hquery : (query fun g => g.node id).ending ⟨g.assign σ, notes⟩ =
      (.ok (n.withShape (σ id)), g.assign σ) := by
    rw [ending_query, node_eq_ok.mpr hnode]
  refine ending_bind hquery fun notes => ?_
  unfold learn finds
  rw [Node.operator?_withShape, hoperator]
  cases ho : n.operator?.bind (·.inference) with
  | none =>
    show (Except.ok 0, g.assign σ) = (Except.ok (g.changed σ σ), g.assign σ)
    rw [changed_self]
  | some way =>
    have hop : g.kind? id = some .op := by
      obtain ⟨o, hsome, -⟩ := Option.bind_eq_some_iff.mp ho
      exact kind?_eq_op.mpr ⟨o, by rw [operator?, hn, Option.bind_some, hsome]⟩
    have hrun : (query fun g => way.run g id).ending ⟨g.assign σ, notes⟩ =
        (way.run (g.assign σ) id, g.assign σ) := ending_query _ _
    dsimp only
    cases hfound : way.run (g.assign σ) id with
    | error e => exact ending_bind_error (hfound ▸ hrun)
    | ok shapes =>
      refine ending_bind (hfound ▸ hrun) fun notes => ?_
      have hhead := run_eq_head hfound
      show _ = (Except.ok (g.changed σ (g.write σ id shapes.head?)), _)
      cases hshape : shapes.head? with
      | none =>
        rw [hhead, hshape, write, changed_self]
        rfl
      | some s =>
        rw [hhead, hshape]
        -- one shape is stored and then nothing more
        exact ending_bind (storeShape_ending hg hop s) fun _ => rfl

end Edit

namespace Graph

variable {g : Graph α} {σ τ ρ : Shapes} {id : NodeId}

/-! ## What one step leaves alone -/

/-- To learn is to find and to write. -/
theorem learn_eq_ok_iff :
    g.learn σ id = .ok τ ↔ ∃ found, (g.assign σ).finds id = .ok found ∧ g.write σ id found = τ := by
  unfold learn
  cases (g.assign σ).finds id <;> simp [Except.map]

/-- Writing changes the result of the node only. -/
theorem write_of_ne {found : Option Shape} {d : NodeId} (h : g.view.output ⟨id, 0⟩ ≠ some d) :
    g.write σ id found d = σ d := by
  unfold write
  cases found with
  | none => rfl
  | some s =>
    cases hd : g.view.output ⟨id, 0⟩ with
    | none => rfl
    | some x =>
      refine Function.update_of_ne ?_ _ _
      rintro rfl
      exact h hd

/-- What is written stands at the result. -/
theorem write_of_output {s : Shape} {d : NodeId} (h : g.view.output ⟨id, 0⟩ = some d) :
    g.write σ id (some s) d = some s := by
  unfold write
  rw [h]
  exact Function.update_self _ _ _

/-- Writing what is there changes nothing. -/
theorem write_eq_self {found : Option Shape}
    (h : ∀ s d, found = some s → g.view.output ⟨id, 0⟩ = some d → σ d = some s) :
    g.write σ id found = σ := by
  unfold write
  cases found with
  | none => rfl
  | some s =>
    cases hd : g.view.output ⟨id, 0⟩ with
    | none => rfl
    | some d => exact Function.update_eq_self_iff.mpr (h s d rfl hd).symm

/-- A node with a way of inference finds the first shape that this gives. -/
theorem finds_eq {way : Inference} (h : (g.operator? id).bind (·.inference) = some way) :
    (g.assign σ).finds id = (way.run (g.assign σ) id).map List.head? := by
  unfold finds
  rw [operator?_assign, h]

/-- Only operators have a way of inference. -/
theorem kind?_of_inference {way : Inference}
    (h : (g.operator? id).bind (·.inference) = some way) : g.kind? id = some .op := by
  obtain ⟨o, ho, -⟩ := Option.bind_eq_some_iff.mp h
  exact kind?_eq_op.mpr ⟨o, ho⟩

/-- What a node finds depends on its operands, and on its result where the way says so. -/
theorem finds_congr (hread : ∀ i d, g.view.input ⟨id, i⟩ = some d → σ d = τ d)
    (hresult : ∀ way, (g.operator? id).bind (·.inference) = some way → way.readsResult = true →
      ∀ d, g.view.output ⟨id, 0⟩ = some d → σ d = τ d) :
    (g.assign σ).finds id = (g.assign τ).finds id := by
  cases hway : (g.operator? id).bind (·.inference) with
  | none =>
    unfold finds
    rw [operator?_assign, operator?_assign, hway]
  | some way =>
    have hop := kind?_of_inference hway
    rw [finds_eq hway, finds_eq hway]
    congr 1
    refine run_congr (fun i d hd => hread i d ?_) fun hreads d hd => hresult way hway hreads d ?_
    · rwa [view_input_of_op hop]
    · rwa [view_output_of_op hop]

/-- A shape that is only passed on is found again where it was stored. -/
theorem finds_stored (hg : g.WellFormed) {way : Inference}
    (hway : (g.operator? id).bind (·.inference) = some way) (hreads : way.readsResult = true)
    {s : Shape} {d : NodeId} (hd : g.view.output ⟨id, 0⟩ = some d) (hs : σ d = some s) :
    (g.assign σ).finds id = .ok (some s) := by
  have hop : (g.assign σ).kind? id = some .op := by
    rw [kind?_assign]
    exact kind?_of_inference hway
  have hknown : (g.assign σ).view.shape d = some s := by
    refine View.shape_of_stored ?_
    show (g.assign σ).shapeAt d = some s
    rw [shapeAt_assign (hg.view_output_kinds hd).2, hs]
  have hstored : ∀ what, (g.assign σ).storedShape id what = .ok s := fun what =>
    (storedShape_eq_ok hop).mpr ⟨d, by rwa [output_assign], hknown⟩
  rw [finds_eq hway]
  cases way with
  | parameter | const =>
    unfold Inference.run
    dsimp only
    rw [hstored]
    rfl
  | _ => cases hreads

/-- No operator reads what it makes. -/
theorem WellFormed.output_ne_input (hg : g.WellFormed) {i j : Nat} {d : NodeId}
    (hread : g.view.input ⟨id, i⟩ = some d) : g.view.output ⟨id, j⟩ ≠ some d := by
  intro hmade
  obtain ⟨hinput, houtput⟩ := hg.ranked_view.mpr hg.ranked_topologicalOrder
  have hbefore := hinput _ _ hread
  have hafter := houtput _ _ hmade
  dsimp only at hbefore hafter
  omega

/-- Inferring a node a second time finds the same and changes nothing. -/
theorem learn_again (hg : g.WellFormed) (h : g.learn σ id = .ok τ) : g.learn τ id = .ok τ := by
  obtain ⟨found, hfound, rfl⟩ := learn_eq_ok_iff.mp h
  have hwritten : ∀ s d, found = some s → g.view.output ⟨id, 0⟩ = some d →
      g.write σ id found d = some s := by
    rintro s d rfl hd
    exact write_of_output hd
  refine learn_eq_ok_iff.mpr ⟨found, ?_, write_eq_self hwritten⟩
  rw [← hfound]
  by_cases hpasses : ∃ way, (g.operator? id).bind (·.inference) = some way ∧
      way.readsResult = true ∧ ∃ d s, g.view.output ⟨id, 0⟩ = some d ∧ found = some s
  · obtain ⟨way, hway, hreads, d, s, hd, rfl⟩ := hpasses
    rw [hfound]
    exact finds_stored hg hway hreads hd (write_of_output hd)
  · refine finds_congr (fun i d hd => write_of_ne (hg.output_ne_input hd)) ?_
    intro way hway hreads d hd
    cases found with
    | none => rfl
    | some s => exact absurd ⟨way, hway, hreads, d, s, hd, rfl⟩ hpasses

/-- What was found stays right as long as nothing that the node reads or makes is changed. -/
theorem learn_kept (h : g.learn σ id = .ok σ)
    (hread : ∀ i d, g.view.input ⟨id, i⟩ = some d → ρ d = σ d)
    (hmade : ∀ d, g.view.output ⟨id, 0⟩ = some d → ρ d = σ d) : g.learn ρ id = .ok ρ := by
  obtain ⟨found, hfound, hself⟩ := learn_eq_ok_iff.mp h
  refine learn_eq_ok_iff.mpr ⟨found, ?_, write_eq_self ?_⟩
  · rw [finds_congr hread fun _ _ _ => hmade, hfound]
  · rintro s d rfl hd
    rw [hmade d hd, ← hself]
    exact write_of_output hd

/-! ## Sweeps -/

/-- The stored shapes after inference of nodes in turn. -/
def sweep (g : Graph α) (σ : Shapes) (ids : List NodeId) : Except Error Shapes :=
  ids.foldlM g.learn σ

/-- The later node does not write what the earlier one looks at or writes. -/
def Independent (g : Graph α) (id later : NodeId) : Prop :=
  ∀ d, g.view.output ⟨later, 0⟩ = some d →
    (∀ i, g.view.input ⟨id, i⟩ ≠ some d) ∧ g.view.output ⟨id, 0⟩ ≠ some d

/-- In topological order, what is learned later is not read earlier. -/
theorem WellFormed.independent (hg : g.WellFormed) :
    g.topologicalOrder.Pairwise g.Independent := by
  have hnodup : g.topologicalOrder.Nodup := hg.topologicalOrder_perm.nodup_iff.mpr hg.ids_nodup
  obtain ⟨hinput, houtput⟩ := hg.ranked_view.mpr hg.ranked_topologicalOrder
  refine List.pairwise_iff_getElem.mpr fun i j hi hj hij d hd => ?_
  have hbefore := houtput _ _ hd
  dsimp only at hbefore
  rw [hnodup.idxOf_getElem] at hbefore
  constructor
  · intro k hk
    have hafter := hinput _ _ hk
    dsimp only at hafter
    rw [hnodup.idxOf_getElem] at hafter
    omega
  · intro hsame
    have hport := hg.view_output_inj hd hsame
    have hnode := (hnodup.getElem_inj_iff).mp (congrArg OutputPort.node hport)
    omega

/-- A sweep learns at the first node and goes on. -/
theorem sweep_cons_eq_ok_iff {ids : List NodeId} :
    g.sweep σ (id :: ids) = .ok ρ ↔ ∃ τ, g.learn σ id = .ok τ ∧ g.sweep τ ids = .ok ρ := by
  unfold sweep
  rw [List.foldlM_cons, except_bind_eq_ok]

/-- A sweep writes at the first results of its nodes only. -/
theorem sweep_of_ne {ids : List NodeId} (h : g.sweep σ ids = .ok τ) {d : NodeId}
    (hd : ∀ id ∈ ids, g.view.output ⟨id, 0⟩ ≠ some d) : τ d = σ d := by
  induction ids generalizing σ with
  | nil =>
    cases h
    rfl
  | cons id ids ih =>
    obtain ⟨ρ, hlearn, hrest⟩ := sweep_cons_eq_ok_iff.mp h
    obtain ⟨found, -, rfl⟩ := learn_eq_ok_iff.mp hlearn
    rw [ih hrest fun x hx => hd x (List.mem_cons_of_mem _ hx)]
    exact write_of_ne (hd id List.mem_cons_self)

/-- What a node has found is still right when the sweep is through. -/
theorem sweep_learned (hg : g.WellFormed) {ids : List NodeId} (hids : ids.Pairwise g.Independent)
    (h : g.sweep σ ids = .ok τ) : ∀ id ∈ ids, g.learn τ id = .ok τ := by
  induction ids generalizing σ with
  | nil => exact fun _ hid => absurd hid List.not_mem_nil
  | cons id ids ih =>
    obtain ⟨hfirst, hrest⟩ := List.pairwise_cons.mp hids
    obtain ⟨ρ, hlearn, hsweep⟩ := sweep_cons_eq_ok_iff.mp h
    intro x hx
    rcases List.mem_cons.mp hx with rfl | hx
    · refine learn_kept (learn_again hg hlearn) (fun i d hd => ?_) fun d hd => ?_
      · exact sweep_of_ne hsweep fun later hlater hmade => (hfirst later hlater d hmade).1 i hd
      · exact sweep_of_ne hsweep fun later hlater hmade => (hfirst later hlater d hmade).2 hd
    · exact ih hrest hsweep x hx

/-- Where nothing is left to find a sweep changes nothing. -/
theorem sweep_of_learned {ids : List NodeId} (h : ∀ id ∈ ids, g.learn τ id = .ok τ) :
    g.sweep τ ids = .ok τ := by
  induction ids with
  | nil => rfl
  | cons id ids ih =>
    refine sweep_cons_eq_ok_iff.mpr ⟨τ, h id List.mem_cons_self, ?_⟩
    exact ih fun x hx => h x (List.mem_cons_of_mem _ hx)

end Graph

namespace Edit

open TensorGraph.Graph

variable {g : Graph α} {σ τ : Shapes} {notes : List LogEntry}

/-- Every changed shape is counted once, since no node writes what an earlier one has written. -/
theorem inferNodes_ending (hg : g.WellFormed) {ids : List NodeId}
    (hlive : ∀ id ∈ ids, g.node? id ≠ none) (hids : ids.Pairwise g.Independent)
    (h : g.sweep σ ids = .ok τ) :
    (inferNodes ids).ending ⟨g.assign σ, notes⟩ = (.ok (g.changed σ τ), g.assign τ) := by
  induction ids generalizing σ notes with
  | nil =>
    cases h
    rw [changed_self]
    rfl
  | cons id ids ih =>
    obtain ⟨hfirst, hrest⟩ := List.pairwise_cons.mp hids
    obtain ⟨ρ, hlearn, hsweep⟩ := sweep_cons_eq_ok_iff.mp h
    have hnode : (inferNode id).ending ⟨g.assign σ, notes⟩ = _ :=
      inferNode_ending hg (hlive id List.mem_cons_self)
    rw [hlearn] at hnode
    have honce : ∀ d, σ d = ρ d ∨ ρ d = τ d := by
      intro d
      obtain ⟨found, -, rfl⟩ := learn_eq_ok_iff.mp hlearn
      by_cases hd : g.view.output ⟨id, 0⟩ = some d
      · right
        exact (sweep_of_ne hsweep fun later hlater hmade => (hfirst later hlater d hmade).2 hd).symm
      · left
        exact (write_of_ne hd).symm
    refine ending_bind hnode fun notes => ?_
    refine ending_bind (ih (fun x hx => hlive x (List.mem_cons_of_mem _ hx)) hrest hsweep) ?_
    intro notes
    rw [changed_add honce]
    rfl

/-- How far a sweep gets on shapes is how far inference gets on the graph. -/
theorem inferNodes_outcome (hg : g.WellFormed) {ids : List NodeId}
    (hlive : ∀ id ∈ ids, g.node? id ≠ none) :
    (inferNodes ids).outcome ⟨g.assign σ, notes⟩ = (g.sweep σ ids).map g.assign := by
  induction ids generalizing σ notes with
  | nil => rfl
  | cons id ids ih =>
    have hnode : (inferNode id).ending ⟨g.assign σ, notes⟩ = _ :=
      inferNode_ending hg (hlive id List.mem_cons_self)
    unfold sweep
    rw [List.foldlM_cons]
    cases hlearn : g.learn σ id with
    | error e =>
      rw [hlearn] at hnode
      exact outcome_eq_of_ending (ending_bind_error hnode)
    | ok τ =>
      rw [hlearn] at hnode
      refine outcome_bind hnode fun notes => ?_
      rw [outcome_bind_pure]
      exact ih fun x hx => hlive x (List.mem_cons_of_mem _ hx)

end Edit

/-! ## Shapes that inference computes -/

/-- The types of operators that compute the shape of their result. -/
def computingTypes : List Opcode :=
  [.mul, .quantize, .permute, .tile, .reshape]

namespace Graph

/-- Whether the stored shape of a node is one that inference computes: the node is the first result
of a computing operator. -/
def computes (g : Graph α) (d : NodeId) : Bool :=
  (g.producer? d).any fun p => p.index == 0 &&
    (g.operator? p.node).any fun o => computingTypes.contains o.operation.type

/-- The graph without the stored shapes that inference computes. -/
def withoutComputed (g : Graph α) : Graph α :=
  g.assign fun d => if g.computes d then none else g.shapeAt d

/-- The graph without any stored shapes. -/
def withoutShapes (g : Graph α) : Graph α :=
  g.assign fun _ => none

/-- Every operator infers as it did when it was created. -/
def InfersByDefault (g : Graph α) : Prop :=
  ∀ id ∈ g.ids, ∀ o ∈ g.operator? id, o.inference = Inference.ofOperation? o.operation

instance (g : Graph α) : Decidable g.InfersByDefault :=
  inferInstanceAs (Decidable (∀ id ∈ g.ids, ∀ o ∈ g.operator? id,
    o.inference = Inference.ofOperation? o.operation))

variable {g g' : Graph α} {σ τ : Shapes} {id : NodeId}

/-- The node computes the shape of the data node. -/
def Computed (g : Graph α) (id d : NodeId) : Prop :=
  g.view.output ⟨id, 0⟩ = some d ∧
    ∃ o, g.operator? id = some o ∧ o.operation.type ∈ computingTypes

/-- Data is computed if some operator finds its shape. -/
theorem WellFormed.computes_iff (hg : g.WellFormed) {d : NodeId} (hd : g.kind? d = some .data) :
    g.computes d = true ↔ ∃ id, g.Computed id d := by
  unfold computes Computed
  rw [Option.any_eq_true]
  constructor
  · rintro ⟨⟨id, index⟩, hp, h⟩
    obtain ⟨hindex, hoperator⟩ := Bool.and_eq_true_iff.mp h
    obtain rfl : index = 0 := by simpa using hindex
    obtain ⟨o, ho, htype⟩ := (Option.any_eq_true _ _).mp hoperator
    exact ⟨id, (hg.producer?_eq_some_iff hd).mp hp, o, ho, by simpa using htype⟩
  · rintro ⟨id, hmade, o, ho, htype⟩
    refine ⟨⟨id, 0⟩, (hg.producer?_eq_some_iff hd).mpr hmade, ?_⟩
    simp [ho, htype]

/-- An operator with the default inference has the one of its operation. -/
theorem InfersByDefault.inference_eq (h : g.InfersByDefault) {o : Operator}
    (ho : g.operator? id = some o) : o.inference = Inference.ofOperation? o.operation := by
  obtain ⟨n, hn, -⟩ := Option.bind_eq_some_iff.mp ho
  exact h id (mem_ids_of_node? hn) o ho

/-- An operator that computes a shape does not pass a stored one on. -/
theorem not_computing_of_readsResult {operation : Operation} {way : Inference}
    (h : Inference.ofOperation? operation = some way) (hreads : way.readsResult = true) :
    operation.type ∉ computingTypes := by
  cases operation with
  | parameter | const => decide
  | stridedSlice | custom => cases h
  | output | mul | quantize | permute | tile | reshape =>
    cases h
    cases hreads

/-- And if it goes through, it finds one. -/
theorem finds_ne_none (hdefault : g.InfersByDefault) {o : Operator} (ho : g.operator? id = some o)
    (htype : o.operation.type ∈ computingTypes) {found : Option Shape}
    (h : (g.assign σ).finds id = .ok found) : found ≠ none := by
  have hinference := hdefault.inference_eq ho
  obtain ⟨operation, inference⟩ := o
  dsimp only at hinference htype
  have hcomputing : ∃ way, Inference.ofOperation? operation = some way ∧
      way ∉ [Inference.parameter, .const, .output] := by
    cases operation with
    | mul | quantize | permute | tile | reshape => exact ⟨_, rfl, by decide⟩
    | _ => simp [computingTypes, Operation.type] at htype
  obtain ⟨way, hway, hcomputes⟩ := hcomputing
  have hassigned : (g.assign σ).operator? id = some ⟨operation, inference⟩ := by
    rw [operator?_assign, ho]
  rw [finds_eq (show _ = some way by rw [ho, Option.bind_some, hinference, hway])] at h
  cases hrun : way.run (g.assign σ) id with
  | error e =>
    rw [hrun] at h
    cases h
  | ok shapes =>
    obtain ⟨s, rfl, -⟩ := (run_eq_ok_iff hassigned hway hcomputes shapes).mp hrun
    rw [hrun] at h
    cases h
    exact Option.some_ne_none s

/-! ## Two sweeps in lockstep -/

/-- The shapes agree wherever none of the nodes is still to compute one. -/
def AgreeBefore (g : Graph α) (ids : List NodeId) (σ τ : Shapes) : Prop :=
  ∀ d, (∀ id ∈ ids, ¬ g.Computed id d) → σ d = τ d

section Lockstep

variable (hdefault : g.InfersByDefault)
include hdefault

/-- What a node looks at is not still to be computed, by the node itself or by a later one. -/
theorem finds_lockstep (hg : g.WellFormed) {ids : List NodeId}
    (hids : ∀ later ∈ ids, g.Independent id later)
    (h : g.AgreeBefore (id :: ids) σ τ) :
    (g.assign σ).finds id = (g.assign τ).finds id := by
  refine finds_congr (fun i d hd => h d ?_) fun way hway hreads d hd => h d ?_
  · intro x hx hcomputed
    rcases List.mem_cons.mp hx with rfl | hx
    · exact hg.output_ne_input hd hcomputed.1
    · exact (hids x hx d hcomputed.1).1 i hd
  · intro x hx hcomputed
    rcases List.mem_cons.mp hx with rfl | hx
    · obtain ⟨-, o, ho, htype⟩ := hcomputed
      rw [ho, Option.bind_some, hdefault.inference_eq ho] at hway
      exact not_computing_of_readsResult hway hreads htype
    · exact (hids x hx d hcomputed.1).2 hd

/-- Once a node is inferred the shape at its result agrees. -/
theorem write_lockstep {ids : List NodeId} (h : g.AgreeBefore (id :: ids) σ τ)
    {found : Option Shape} (hfound : (g.assign σ).finds id = .ok found) :
    g.AgreeBefore ids (g.write σ id found) (g.write τ id found) := by
  intro d hd
  by_cases hmade : g.view.output ⟨id, 0⟩ = some d
  · cases found with
    | some s => rw [write_of_output hmade, write_of_output hmade]
    | none =>
      refine h d fun x hx => ?_
      rcases List.mem_cons.mp hx with rfl | hx
      · rintro ⟨-, o, ho, htype⟩
        exact finds_ne_none hdefault ho htype hfound rfl
      · exact hd x hx
  · rw [write_of_ne hmade, write_of_ne hmade]
    refine h d fun x hx => ?_
    rcases List.mem_cons.mp hx with rfl | hx
    · exact fun hcomputed => hmade hcomputed.1
    · exact hd x hx

/-- Sweeps from shapes that agree where they are read before they are written learn the same. -/
theorem sweep_lockstep (hg : g.WellFormed) {ids : List NodeId}
    (hids : ids.Pairwise g.Independent) (h : g.AgreeBefore ids σ τ) : g.sweep σ ids = g.sweep τ ids := by
  induction ids generalizing σ τ with
  | nil =>
    have hsame : σ = τ := funext fun d => h d fun _ hid => absurd hid List.not_mem_nil
    rw [hsame]
  | cons id ids ih =>
    obtain ⟨hfirst, hrest⟩ := List.pairwise_cons.mp hids
    have hfinds := finds_lockstep hdefault hg hfirst h
    unfold sweep
    rw [List.foldlM_cons, List.foldlM_cons, learn, learn, ← hfinds]
    cases hfound : (g.assign σ).finds id with
    | error e => rfl
    | ok found => exact ih hrest (write_lockstep hdefault h hfound)

end Lockstep

/-- Graphs that are equal without computed shapes have one skeleton, and agree on all other shapes.
-/
theorem same_skeleton (hg' : g'.WellFormed)
    (h : g'.withoutComputed = g.withoutComputed) :
    g' = g.assign g'.shapeAt ∧
      ∀ d, g.computes d = false → g.kind? d = some .data → g.shapeAt d = g'.shapeAt d := by
  have hskeleton : g' = g.assign g'.shapeAt :=
    calc g' = g'.withoutComputed.assign g'.shapeAt := by
          rw [withoutComputed, assign_assign, hg'.assign_shapeAt]
      _ = g.withoutComputed.assign g'.shapeAt := by rw [h]
      _ = g.assign g'.shapeAt := by rw [withoutComputed, assign_assign]
  have hkind : g'.kind? = g.kind? := by
    rw [hskeleton, kind?_assign]
  have hcomputes : g'.computes = g.computes := by
    funext d
    rw [hskeleton]
    unfold computes
    rw [operator?_assign]
    rfl
  refine ⟨hskeleton, fun d hd hdata => ?_⟩
  have hshape := congrArg (fun g : Graph α => g.shapeAt d) h
  unfold withoutComputed at hshape
  rw [shapeAt_assign (hkind ▸ hdata), shapeAt_assign hdata, hcomputes, hd] at hshape
  exact hshape.symm

theorem WellFormed.live_of_ordered (hg : g.WellFormed) :
    ∀ id ∈ g.topologicalOrder, g.node? id ≠ none := by
  intro id hid
  exact Option.isSome_iff_ne_none.mp (hg.mem_topologicalOrder.mp hid)

/-- Every operator has its turn. -/
theorem WellFormed.ordered_of_operator (hg : g.WellFormed) {o : Operator}
    (ho : g.operator? id = some o) : id ∈ g.topologicalOrder :=
  hg.mem_topologicalOrder.mpr (hasNode_of_kind? (kind?_eq_op.mpr ⟨o, ho⟩))

/-- Before anything is inferred, graphs that differ in computed shapes only agree elsewhere. -/
theorem agreeBefore_of_withoutComputed (hg : g.WellFormed) (hg' : g'.WellFormed)
    (h : g'.withoutComputed = g.withoutComputed) :
    g.AgreeBefore g.topologicalOrder g.shapeAt g'.shapeAt := by
  obtain ⟨hskeleton, hshapes⟩ := same_skeleton hg' h
  intro d hd
  by_cases hdata : g.kind? d = some .data
  · refine hshapes d (Bool.eq_false_iff.mpr fun hcomputes => ?_) hdata
    obtain ⟨id, hmade, o, ho, htype⟩ := (hg.computes_iff hdata).mp hcomputes
    exact hd id (hg.ordered_of_operator ho) ⟨hmade, o, ho, htype⟩
  · have hnone : g.content? d = none := by
      refine Option.eq_none_iff_forall_ne_some.mpr fun c hc => hdata (kind?_eq_data.mpr ⟨c, hc⟩)
    have hnone' : g'.content? d = none := by
      rw [hskeleton, content?_assign, hnone, Option.map_none]
    rw [shapeAt, shapeAt, hnone, hnone']

/-- A node that has nothing left to find has its shape stored. -/
theorem stored_of_learned (hg : g.WellFormed) {way : Inference} {o : Operator}
    (ho : g.operator? id = some o) (hway : o.inference = some way) (h : g.learn τ id = .ok τ) :
    (g.assign τ).Stored id (way.run (g.assign τ) id) := by
  obtain ⟨found, hfound, hself⟩ := learn_eq_ok_iff.mp h
  rw [finds_eq (show _ = some way by rw [ho, Option.bind_some, hway])] at hfound
  cases hrun : way.run (g.assign τ) id with
  | error e =>
    rw [hrun] at hfound
    cases hfound
  | ok shapes =>
    rw [hrun] at hfound
    obtain rfl : shapes.head? = found := Except.ok.inj hfound
    refine ⟨shapes, rfl, fun i s hs => ?_⟩
    -- there is one shape at most
    rw [run_eq_head hrun] at hs
    cases hhead : shapes.head? with
    | none =>
      rw [hhead] at hs
      cases hs
    | some t =>
      rw [hhead] at hs hself
      cases i with
      | succ i => cases hs
      | zero =>
        obtain rfl : t = s := Option.some.inj hs
        intro stored hstored
        obtain ⟨d, hd, rfl⟩ := Option.map_eq_some_iff.mp hstored
        rw [output_assign] at hd
        show (g.assign τ).shapeAt d = some t
        rw [shapeAt_assign (hg.view_output_kinds hd).2, ← hself]
        exact write_of_output hd

/-- What has changed is counted at data only. -/
theorem changed_congr {τ' : Shapes} (h : ∀ d, g.kind? d = some .data → τ d = τ' d) :
    g.changed σ τ = g.changed σ τ' := by
  unfold changed
  refine List.countP_congr fun d hd => ?_
  rw [h d (of_decide_eq_true (List.mem_filter.mp hd).2)]

end Graph

/-! ## The whole graph -/

namespace Edit

open TensorGraph.Graph

variable {g : Graph α} {σ τ : Shapes} {notes : List LogEntry}

/-- Inference of the whole graph is a sweep in topological order. -/
theorem inferAll_ending (hg : g.WellFormed) (h : g.sweep σ g.topologicalOrder = .ok τ) :
    inferAll.ending ⟨g.assign σ, notes⟩ = (.ok (g.changed σ τ), g.assign τ) := by
  refine ending_bind (b := g.assign σ) rfl fun notes => ?_
  rw [topologicalOrder_assign]
  exact inferNodes_ending hg hg.live_of_ordered hg.independent h

/-- Inference leads where the sweep leads, or fails as it does. -/
theorem inferAll_outcome (hg : g.WellFormed) :
    inferAll.outcome ⟨g.assign σ, notes⟩ = (g.sweep σ g.topologicalOrder).map g.assign := by
  refine outcome_bind (b := g.assign σ) rfl fun notes => ?_
  rw [topologicalOrder_assign]
  exact inferNodes_outcome hg hg.live_of_ordered

/-- If inference succeeds, it is a sweep that does. -/
theorem sweep_of_inferAll (hg : g.WellFormed) {c : Nat} {s : Session α}
    (h : inferAll ⟨g, notes⟩ = .ok c s) :
    ∃ τ, g.sweep g.shapeAt g.topologicalOrder = .ok τ ∧ s.graph = g.assign τ ∧
      c = g.changed g.shapeAt τ := by
  have houtcome : inferAll.outcome ⟨g, notes⟩ = .ok s.graph := by
    rw [outcome, h]
  have hself := hg.assign_shapeAt
  rw [← hself, inferAll_outcome hg] at houtcome
  cases hsweep : g.sweep g.shapeAt g.topologicalOrder with
  | error e =>
    rw [hsweep] at houtcome
    cases houtcome
  | ok τ =>
    have hrun : inferAll.ending ⟨g.assign g.shapeAt, notes⟩ = _ := inferAll_ending hg hsweep
    rw [hself, ending_of_ok h] at hrun
    obtain ⟨hcount, hgraph⟩ := Prod.mk.inj hrun
    exact ⟨τ, rfl, hgraph, Except.ok.inj hcount⟩

end Edit

open TensorGraph.Graph

/-- What inference over a graph has reached when it returns a number: each inference finds what is
stored, a second pass changes nothing, the number counts the data nodes with another stored shape
than before, and nothing else is different. -/
structure InferredFrom (g : Graph α) (count : Nat) (g' : Graph α) : Prop where
  stored : ∀ op o way, g'.operator? op = some o → o.inference = some way →
    g'.Stored op (way.run g' op)
  again : ∀ notes, ∃ notes', inferAll ⟨g', notes⟩ = .ok 0 ⟨g', notes'⟩
  counted : count = g.changed g.shapeAt g'.shapeAt
  unchanged : g'.withoutShapes = g.withoutShapes

/-- What inference of the whole graph does, in terms of shapes. -/
theorem inferredFrom {g : Graph α} (hg : g.WellFormed) {notes : List LogEntry} {count : Nat}
    {s : Session α} (h : inferAll ⟨g, notes⟩ = .ok count s) : InferredFrom g count s.graph := by
  obtain ⟨τ, hsweep, hgraph, hcount⟩ := sweep_of_inferAll hg h
  have hlearned := sweep_learned hg hg.independent hsweep
  rw [hgraph]
  constructor
  case stored =>
    intro op o way ho hway
    rw [operator?_assign] at ho
    exact stored_of_learned hg ho hway (hlearned op (hg.ordered_of_operator ho))
  case again =>
    intro notes
    have hagain : inferAll.ending ⟨g.assign τ, notes⟩ = _ :=
      inferAll_ending hg (sweep_of_learned hlearned)
    rw [changed_self] at hagain
    obtain ⟨⟨_, notes'⟩, hrun, rfl⟩ := exists_of_ending hagain
    exact ⟨notes', hrun⟩
  case counted =>
    rw [hcount]
    exact changed_congr fun d hd => (shapeAt_assign hd).symm
  case unchanged => rw [withoutShapes, assign_assign, withoutShapes]

/-- Shape inference computes the only consistent shapes: where it succeeds its result is consistent,
and stored shapes that it computes have no part in whether it succeeds and what the result is. -/
theorem inferAll_consistent [Scalar α] {g : Graph α} (hg : Reachable g) :
    (∀ notes count s, inferAll ⟨g, notes⟩ = .ok count s → InferredFrom g count s.graph) ∧
      ∀ g', Reachable g' → g.InfersByDefault → g'.InfersByDefault →
        g'.withoutComputed = g.withoutComputed →
        ∀ notes notes', inferAll.outcome ⟨g', notes'⟩ = inferAll.outcome ⟨g, notes⟩ := by
  have hwf := hg.wellFormed
  refine ⟨fun notes count s h => inferredFrom hwf h, ?_⟩
  intro g' hg' hdefault _ hsame notes notes'
  obtain ⟨hskeleton, -⟩ := same_skeleton hg'.wellFormed hsame
  have hagree := agreeBefore_of_withoutComputed hwf hg'.wellFormed hsame
  have houtcome : ∀ σ notes, inferAll.outcome ⟨g.assign σ, notes⟩ =
      (g.sweep σ g.topologicalOrder).map g.assign := fun _ _ => inferAll_outcome hwf
  calc inferAll.outcome ⟨g', notes'⟩
      = (g.sweep g'.shapeAt g.topologicalOrder).map g.assign := by
        rw [hskeleton, houtcome, ← hskeleton]
    _ = (g.sweep g.shapeAt g.topologicalOrder).map g.assign := by
        rw [sweep_lockstep hdefault hwf hwf.independent hagree]
    _ = inferAll.outcome ⟨g, notes⟩ := by rw [← houtcome, hwf.assign_shapeAt]

/-- A permute and a tile behind a graph input, with a shape at the result of the tile. -/
def staleCommands (stale : Shape) : List (Command Float) :=
  [.addOperator "x" .parameter, .addOperator "turn" (.permute [1, 0]),
    .addOperator "repeat" (.tile 0 2), .addOperator "out" .output,
    .link ⟨0, 0⟩ ⟨1, 0⟩, .link ⟨1, 0⟩ ⟨2, 0⟩, .link ⟨2, 0⟩ ⟨3, 0⟩,
    .modifyContent 4 fun c => { c with shape := some [2, 3] },
    .modifyContent 6 fun c => { c with shape := some stale }]

/-- Two shapes are learned, one of them in the place of an old one. -/
theorem staleCommands_inferred :
    ∃ s, inferAll ⟨runCommands .nchw (staleCommands [9]), []⟩ = .ok 2 s := by
  obtain ⟨count, s, hok, rfl⟩ := exists_ok inferAll ⟨runCommands .nchw (staleCommands [9]), []⟩
    (fun count _ => count = 2) (by decide +kernel)
  exact ⟨s, hok⟩

/-- Two shapes change where the stored one is wrong, and the right one leads to the same graph. -/
theorem staleCommands_consistent :
    Reachable (runCommands .nchw (staleCommands [9])) ∧
    (∃ s, inferAll ⟨runCommands .nchw (staleCommands [9]), []⟩ = .ok 2 s ∧
      InferredFrom (runCommands .nchw (staleCommands [9])) 2 s.graph) ∧
    (runCommands .nchw (staleCommands [9])).InfersByDefault ∧
    (runCommands .nchw (staleCommands [6, 2])).InfersByDefault ∧
    (runCommands .nchw (staleCommands [6, 2])).withoutComputed =
      (runCommands .nchw (staleCommands [9])).withoutComputed ∧
    ∀ notes notes', inferAll.outcome ⟨runCommands .nchw (staleCommands [6, 2]), notes'⟩ =
      inferAll.outcome ⟨runCommands .nchw (staleCommands [9]), notes⟩ := by
  have hreachable : ∀ stale, Reachable (runCommands .nchw (staleCommands stale)) :=
    fun _ => ⟨_, _, rfl⟩
  have hdefault : (runCommands .nchw (staleCommands [9])).InfersByDefault := by decide +kernel
  have hdefault' : (runCommands .nchw (staleCommands [6, 2])).InfersByDefault := by decide +kernel
  obtain ⟨hinferred, hlockstep⟩ := inferAll_consistent (hreachable [9])
  obtain ⟨s, hs⟩ := staleCommands_inferred
  exact ⟨hreachable [9], ⟨s, hs, hinferred _ _ _ hs⟩, hdefault, hdefault', rfl,
    hlockstep _ (hreachable [6, 2]) hdefault hdefault' rfl⟩

end TensorGraph
