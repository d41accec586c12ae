/-
  The errors that checks and edits fail with.

  An edit of the wiring refuses what it is asked for with one of a few errors about nodes, ports and
  edges (`Refusal`).  The only other failure is that of a link, which numbers the port of the data
  node that it adds, counted from one: the number of the last port is no word.

  Statements of this kind compose: what a computation throws is thrown by one of its parts
  (`FailsOnly.bind`, `Edit.ThrowsOnly.bind`).

  For edits they start from well-formed graphs and lead to well-formed graphs (`ThrowsOnly`), since
  it is only there that the writes to the tables cannot fail.  The lemmas `refuses_…` go through the
  checks first and then, from the smallest edit up, through the edits: each of them throws refusals
  only.
-/
import TensorGraph.Proofs.Graph.Exact

namespace TensorGraph

variable {α β γ ε : Type}

/-! ## Failing checks -/

/-- If the check fails then with such an error. -/
def FailsOnly (F : ε → Prop) (x : Except ε β) : Prop :=
  ∀ error, x = .error error → F error

section Checks

variable {F G : ε → Prop} {x : Except ε β} {f : β → Except ε γ}

theorem failsOnly_pure (b : β) : FailsOnly F (pure b : Except ε β) := by
  intro error h
  cases h

theorem failsOnly_throw {error : ε} (h : F error) : FailsOnly F (throw error : Except ε β) := by
  rintro _ ⟨⟩
  exact h

/-- Errors of one kind are errors of a wider one. -/
theorem FailsOnly.imp (h : FailsOnly F x) (hFG : ∀ error, F error → G error) : FailsOnly G x :=
  fun error herror => hFG error (h error herror)

/-- What a check fails with is an error of one of its parts. -/
theorem FailsOnly.bind (hx : FailsOnly F x) (hf : ∀ b, FailsOnly F (f b)) :
    FailsOnly F (x >>= f) := by
  cases x with
  | error error =>
    rintro _ ⟨⟩
    exact hx error rfl
  | ok b => exact hf b

/-- A computation that does one thing more in one case. -/
theorem failsOnly_when {c : Prop} [Decidable c] {x : Except ε Unit} {f : Unit → Except ε γ}
    (hx : FailsOnly F x) (hf : ∀ u, FailsOnly F (f u)) :
    FailsOnly F (if c then x >>= f else f ()) := by
  split
  · exact hx.bind hf
  · exact hf ()

/-- A computation that does one thing more in all other cases. -/
theorem failsOnly_unless {c : Prop} [Decidable c] {x : Except ε Unit} {f : Unit → Except ε γ}
    (hx : FailsOnly F x) (hf : ∀ u, FailsOnly F (f u)) :
    FailsOnly F (if c then f () else x >>= f) := by
  split
  · exact hf ()
  · exact hx.bind hf

/-- A loop fails as one of its turns does. -/
theorem failsOnly_forM {f : β → Except ε PUnit} {list : List β} (hf : ∀ x ∈ list, FailsOnly F (f x)) :
    FailsOnly F (list.forM f) := by
  induction list with
  | nil => exact failsOnly_pure _
  | cons x rest ih =>
    show FailsOnly F (f x >>= fun _ => rest.forM f)
    exact (hf x List.mem_cons_self).bind fun _ => ih fun y hy => hf y (List.mem_cons_of_mem _ hy)

theorem failsOnly_mapM {f : β → Except ε γ} {list : List β} (hf : ∀ x ∈ list, FailsOnly F (f x)) :
    FailsOnly F (list.mapM f) := by
  induction list with
  | nil => exact failsOnly_pure _
  | cons x rest ih =>
    rw [List.mapM_cons]
    refine (hf x List.mem_cons_self).bind fun _ => ?_
    exact (ih fun y hy => hf y (List.mem_cons_of_mem _ hy)).bind fun _ => failsOnly_pure _

end Checks

/-! ## Refusals -/

/-- The errors about nodes, ports and edges. -/
inductive Refusal : Error → Prop
  | missingNode (node : NodeId) : Refusal (.missingNode node)
  | wrongKind (node : NodeId) (expected actual : Kind) : Refusal (.wrongKind node expected actual)
  | invalidTopology (fault : TopologyFault) : Refusal (.invalidTopology fault)
  | cycle (src dst : NodeId) : Refusal (.cycle src dst)
  | danglingData (data : NodeId) : Refusal (.danglingData data)
  | portInUse (node : NodeId) (port : Nat) : Refusal (.portInUse node port)
  | portNotConnected (node : NodeId) (port : Nat) : Refusal (.portNotConnected node port)

namespace Graph

variable (g : Graph α)

/-- A node is missing, or it is there. -/
theorem refuses_node (id : NodeId) : FailsOnly Refusal (g.node id) := by
  rw [node]
  split
  · exact failsOnly_pure _
  · exact failsOnly_throw (.missingNode id)

/-- A node that is no operator is of the wrong kind. -/
theorem refuses_operator (id : NodeId) : FailsOnly Refusal (g.operator id) := by
  refine (g.refuses_node id).bind fun n => ?_
  split
  · exact failsOnly_pure _
  · exact failsOnly_throw (.wrongKind _ _ _)

/-- A node that is no data node is of the wrong kind. -/
theorem refuses_content (id : NodeId) : FailsOnly Refusal (g.content id) := by
  refine (g.refuses_node id).bind fun n => ?_
  split
  · exact failsOnly_pure _
  · exact failsOnly_throw (.wrongKind _ _ _)

/-- A node that is not of the kind asked for is of the wrong kind. -/
theorem refuses_requireKind (id : NodeId) (k : Kind) : FailsOnly Refusal (g.requireKind id k) := by
  refine (g.refuses_node id).bind fun n => ?_
  dsimp only
  split
  · exact failsOnly_throw (.wrongKind _ _ _)
  · exact failsOnly_pure _

/-- A port that nothing feeds is not connected. -/
theorem refuses_operand (port : InputPort) : FailsOnly Refusal (g.operand port) := by
  rw [operand]
  split
  · exact failsOnly_pure _
  · exact failsOnly_throw (.portNotConnected _ _)

/-- A wire is refused for a producer or for a port that is in use. -/
theorem refuses_wire (k : Kind) (src : NodeId) (srcPort : Nat) (dst : NodeId) (dstPort : Nat) :
    FailsOnly Refusal (g.wire k src srcPort dst dstPort) := by
  unfold wire
  split
  · split
    · exact failsOnly_throw (.invalidTopology _)
    · split
      · exact failsOnly_throw (.invalidTopology _)
      · exact failsOnly_pure _
  · split
    · exact failsOnly_throw (.portInUse _ _)
    · exact failsOnly_pure _

/-- A new edge is refused for its kinds, for its ports or for a cycle. -/
theorem refuses_checkWire (src : NodeId) (srcPort : Nat) (dst : NodeId) (dstPort : Nat) :
    FailsOnly Refusal (g.checkWire src srcPort dst dstPort) := by
  refine (g.refuses_node src).bind fun n => (g.refuses_node dst).bind fun n' => ?_
  dsimp only
  split
  · exact failsOnly_throw (.invalidTopology _)
  · refine (g.refuses_wire _ _ _ _ _).bind fun w => ?_
    split
    · exact failsOnly_throw (.cycle _ _)
    · exact failsOnly_pure _

theorem refuses_dangles (data : NodeId) : FailsOnly Refusal (g.dangles data) := by
  rw [dangles]
  split
  · exact failsOnly_pure _
  · exact (g.refuses_content data).bind fun _ => failsOnly_pure _

/-- An edge is refused to be removed if it is not there or its data is needed. -/
theorem refuses_checkRemoveEdge (id : EdgeId) : FailsOnly Refusal (g.checkRemoveEdge id) := by
  rw [checkRemoveEdge]
  split
  · refine (g.refuses_node _).bind fun n => ?_
    split
    · refine (g.refuses_dangles _).bind fun dangling => ?_
      split
      · exact failsOnly_throw (.danglingData _)
      · exact failsOnly_pure _
    · exact failsOnly_pure _
  · exact failsOnly_throw (.invalidTopology _)

/-- A node is refused to be removed if it is not there or is needed. -/
theorem refuses_checkRemoveNode (id : NodeId) : FailsOnly Refusal (g.checkRemoveNode id) := by
  refine (g.refuses_node id).bind fun n => ?_
  split
  · split
    · exact failsOnly_pure _
    · exact failsOnly_throw (.invalidTopology _)
  · refine (failsOnly_forM fun data _ => ?_).bind fun _ => failsOnly_pure _
    refine (g.refuses_dangles data).bind fun dangling => ?_
    split
    · exact failsOnly_throw (.danglingData _)
    · exact failsOnly_pure _

end Graph

/-! ## Failing edits -/

namespace Edit

open TensorGraph.Graph

/-- From a well-formed graph the edit leads to a well-formed one.  If it fails then with such an
error. -/
def ThrowsOnly (F : Error → Prop) (e : Edit α β) : Prop :=
  ∀ s, s.graph.WellFormed → Runs e s (fun _ => WellFormed) (fun _ => True) ∧
    ∀ error s', e s = .error error s' → F error

section Composition

variable {F G : Error → Prop} {e : Edit α β} {k : β → Edit α γ}

/-- An edit that keeps graphs well formed fails with such errors if it does so on well-formed
graphs. -/
theorem throwsOnly_of_keeps (hkeeps : Keeps WellFormed WellFormed e)
    (herror : ∀ g notes error s, g.WellFormed → e ⟨g, notes⟩ = .error error s → F error) :
    ThrowsOnly F e :=
  fun s hg => ⟨(hkeeps s hg).imp (fun _ _ h => h) fun _ _ => trivial,
    fun error s' => herror s.graph s.log error s' hg⟩

/-- An edit that never fails. -/
theorem throwsOnly_of_runs (h : ∀ g notes, g.WellFormed →
    Runs e ⟨g, notes⟩ (fun _ => WellFormed) fun _ => False) : ThrowsOnly F e :=
  fun s hg => ⟨(h s.graph s.log hg).imp (fun _ _ hend => hend) fun _ hfalse => hfalse.elim,
    fun _ _ herror => ((h s.graph s.log hg).of_error herror).elim⟩

/-- Errors of one kind are errors of a wider one. -/
theorem ThrowsOnly.imp (h : ThrowsOnly F e) (hFG : ∀ error, F error → G error) : ThrowsOnly G e :=
  fun s hg => ⟨(h s hg).1, fun error s' herror => hFG error ((h s hg).2 error s' herror)⟩

/-- What a computation throws is thrown by one of its parts. -/
theorem ThrowsOnly.bind (he : ThrowsOnly F e) (hk : ∀ b, ThrowsOnly F (k b)) :
    ThrowsOnly F (e >>= k) := by
  intro s hg
  refine ⟨runs_bind ((he s hg).1.imp (fun b g' hg' log => (hk b ⟨g', log⟩ hg').1)
    fun _ _ => trivial), fun error s' h => ?_⟩
  rcases bind_eq_error h with herror | ⟨b, s₁, hok, herror⟩
  · exact (he s hg).2 error s' herror
  · exact (hk b s₁ ((he s hg).1.of_ok hok)).2 error s' herror

theorem throwsOnly_pure (b : β) : ThrowsOnly F (pure b : Edit α β) :=
  throwsOnly_of_runs fun _ _ hg => runs_pure hg

theorem throwsOnly_throw {error : Error} (h : F error) : ThrowsOnly F (throw error : Edit α β) := by
  refine fun s _ => ⟨runs_throw trivial, ?_⟩
  rintro _ s' ⟨⟩
  exact h

theorem throwsOnly_graph : ThrowsOnly F (graph : Edit α (Graph α)) :=
  throwsOnly_of_runs fun _ _ hg => runs_graph hg

theorem throwsOnly_log (level : LogLevel) (text : String) :
    ThrowsOnly F (log level text : Edit α Unit) :=
  throwsOnly_of_runs fun _ _ hg => runs_log hg

/-- A check passes its error on. -/
theorem throwsOnly_attempt {outcome : Except Error β} (h : FailsOnly F outcome) :
    ThrowsOnly F (attempt outcome : Edit α β) := by
  cases outcome with
  | ok b => exact throwsOnly_pure b
  | error error => exact throwsOnly_throw (h error rfl)

theorem throwsOnly_query {check : Graph α → Except Error β} (h : ∀ g, FailsOnly F (check g)) :
    ThrowsOnly F (query check) :=
  throwsOnly_graph.bind fun g => throwsOnly_attempt (h g)

/-- A loop throws as one of its turns does. -/
theorem throwsOnly_forM {f : β → Edit α PUnit} {list : List β}
    (hf : ∀ x ∈ list, ThrowsOnly F (f x)) : ThrowsOnly F (list.forM f) := by
  induction list with
  | nil => exact throwsOnly_pure _
  | cons x rest ih =>
    show ThrowsOnly F (f x >>= fun _ => rest.forM f)
    exact (hf x List.mem_cons_self).bind fun _ => ih fun y hy => hf y (List.mem_cons_of_mem _ hy)

end Composition

/-! ## Refused edits

Between the checks of an edit and its end stand accesses to tables.  On a well-formed graph they are in
range, so what is left to fail is a check. -/

/-- A node can always be added. -/
theorem refuses_addNode (name : String) (payload : Payload α) :
    ThrowsOnly Refusal (addNode name payload) :=
  throwsOnly_of_runs fun _ _ hg => runs_addNode (hg.insertNode _ payload)

/-- Only operators have operations. -/
theorem refuses_setOperation (id : NodeId) (operation : Operation) :
    ThrowsOnly Refusal (setOperation id operation : Edit α Unit) := by
  refine throwsOnly_of_keeps (keeps_setOperation id operation) fun g notes error s _ herror => ?_
  rcases bind_eq_error herror with hcheck | ⟨_, _, -, hchange⟩
  · exact g.refuses_operator id error (query_eq_error.mp hcheck).1
  · cases hchange

/-- Only data nodes have content. -/
theorem refuses_modifyContent (id : NodeId) (f : Content α → Content α) :
    ThrowsOnly Refusal (modifyContent id f) := by
  refine throwsOnly_of_keeps (keeps_modifyContent id f) fun g notes error s _ herror => ?_
  rcases bind_eq_error herror with hcheck | ⟨_, _, -, hchange⟩
  · exact g.refuses_content id error (query_eq_error.mp hcheck).1
  · cases hchange

/-- There are entries at the ends of an edge that is there. -/
theorem refuses_detach (id : EdgeId) : ThrowsOnly Refusal (detach id : Edit α (Option Edge)) :=
  throwsOnly_of_runs fun _ _ hg => runs_detach hg (hg.eraseEdge id)

/-- After its check, removing a node does not fail. -/
theorem refuses_removeNode (id : NodeId) :
    ThrowsOnly Refusal (removeNode id : Edit α (Node α)) := by
  refine throwsOnly_of_keeps (keeps_removeNode id) fun g notes error s hg herror => ?_
  have hrefused : ¬ (g.node? id ≠ none ∧ g.Removable id) :=
    (runs_removeNode (Q := fun _ _ => True) (E := fun _ => _) hg (fun _ _ _ => trivial)
      fun h => h).of_error herror
  rcases bind_eq_error herror with hcheck | ⟨n, s₁, hok, -⟩
  · exact g.refuses_checkRemoveNode id error (query_eq_error.mp hcheck).1
  · obtain ⟨hnode, hremovable⟩ := (checkRemoveNode_eq_ok_iff hg).mp (query_eq_ok.mp hok).1
    exact absurd ⟨by rw [hnode]; exact Option.some_ne_none n, hremovable⟩ hrefused

/-- After its check, adding an edge does not fail. -/
theorem refuses_addEdge (src : NodeId) (srcPort : Nat) (dst : NodeId) (dstPort : Nat) :
    ThrowsOnly Refusal (addEdge src srcPort dst dstPort : Edit α EdgeId) := by
  refine throwsOnly_of_keeps (keeps_addEdge src srcPort dst dstPort) fun g notes error s hg herror => ?_
  have hrefused : ∀ k, g.kind? src = some k → ¬ g.Admits (wireBetween k src srcPort dst dstPort) :=
    (runs_addEdge (Q := fun _ _ => True) (E := fun _ => _) hg (fun _ _ _ => trivial)
      fun h => h).of_error herror
  rcases bind_eq_error herror with hcheck | ⟨w, s₁, hok, -⟩
  · exact g.refuses_checkWire src srcPort dst dstPort error (query_eq_error.mp hcheck).1
  · obtain ⟨k, hk, rfl, hadmits⟩ := (checkWire_eq_ok_iff hg).mp (query_eq_ok.mp hok).1
    exact absurd hadmits (hrefused k hk)

/-- After its check, removing an edge does not fail. -/
theorem refuses_removeEdge (id : EdgeId) : ThrowsOnly Refusal (removeEdge id : Edit α Edge) := by
  refine (throwsOnly_query fun g => g.refuses_checkRemoveEdge id).bind fun _ =>
    (refuses_detach id).bind fun detached => ?_
  split
  · exact throwsOnly_pure _
  · exact throwsOnly_throw (.invalidTopology _)

theorem refuses_feed (data : NodeId) (port : InputPort) :
    ThrowsOnly Refusal (feed data port : Edit α Unit) :=
  (throwsOnly_query fun g => g.refuses_requireKind _ _).bind fun _ =>
    (refuses_addEdge _ _ _ _).bind fun _ => throwsOnly_pure _

theorem refuses_produce (port : OutputPort) (data : NodeId) :
    ThrowsOnly Refusal (produce port data : Edit α Unit) :=
  (throwsOnly_query fun g => g.refuses_requireKind _ _).bind fun _ =>
    (refuses_addEdge _ _ _ _).bind fun _ => throwsOnly_pure _

/-- Only operators have ports that can be disconnected. -/
theorem refuses_unplug (port : InputPort) :
    ThrowsOnly Refusal (unplug port : Edit α (Option NodeId)) := by
  refine (throwsOnly_query fun g => g.refuses_operator _).bind fun _ => throwsOnly_graph.bind fun g => ?_
  split
  · exact (refuses_detach _).bind fun _ => throwsOnly_pure _
  · exact throwsOnly_pure _

theorem refuses_release (port : OutputPort) :
    ThrowsOnly Refusal (release port : Edit α (Option NodeId)) := by
  refine (throwsOnly_query fun g => g.refuses_operator _).bind fun _ => throwsOnly_graph.bind fun g => ?_
  split
  · exact (refuses_removeEdge _).bind fun _ => throwsOnly_pure _
  · exact throwsOnly_pure _

/-- After its check, moving an edge does not fail. -/
theorem refuses_moveInput (old new : InputPort) :
    ThrowsOnly Refusal (moveInput old new : Edit α Unit) := by
  refine throwsOnly_of_keeps (keeps_moveInput old new) fun g notes error s hg herror => ?_
  have hrefused : ∀ e k, g.edgeInto? old = some e → g.kind? e.src = some k →
      ¬ g.Admits (wireBetween k e.src 0 new.node new.index) :=
    (runs_moveInput (Q := fun _ _ => True) (E := fun _ => _) hg (fun _ _ _ _ _ _ => trivial)
      (fun _ _ => trivial) fun h => h).of_error herror
  rcases bind_eq_error herror with hgraph | ⟨_, _, hgraph, herror⟩
  · cases hgraph
  cases hgraph
  cases he : g.edgeInto? old with
  | none =>
    rw [he] at herror
    cases herror
    exact .portNotConnected _ _
  | some e =>
    rw [he] at herror
    dsimp only at herror
    split at herror
    · cases herror
    · rcases bind_eq_error herror with hcheck | ⟨w, s₁, hok, -⟩
      · exact g.refuses_checkWire _ _ _ _ error (attempt_eq_error.mp hcheck).1
      · obtain ⟨k, hk, rfl, hadmits⟩ := (checkWire_eq_ok_iff hg).mp (attempt_eq_ok.mp hok).1
        exact absurd hadmits (hrefused e k he hk)

/-- After its checks, moving readers does not fail. -/
theorem refuses_moveReaders (old new : NodeId) :
    ThrowsOnly Refusal (moveReaders old new : Edit α Unit) := by
  refine throwsOnly_of_keeps (keeps_moveReaders old new) fun g notes error s hg herror => ?_
  have hwhole := herror
  rcases bind_eq_error herror with hcheck | ⟨_, _, hold, herror⟩
  · exact g.refuses_requireKind old .data error (query_eq_error.mp hcheck).1
  obtain ⟨hkind, rfl⟩ := query_eq_ok.mp hold
  rcases bind_eq_error herror with hcheck | ⟨_, _, hnew, -⟩
  · exact g.refuses_requireKind new .data error (query_eq_error.mp hcheck).1
  -- between data nodes only a cycle is left
  obtain ⟨id, rfl⟩ := moveReaders_error hg (requireKind_eq_ok.mp hkind)
    (requireKind_eq_ok.mp (query_eq_ok.mp hnew).1) hwhole
  exact .cycle new id

end Edit

end TensorGraph
