/-
  Reachable graphs.

  A `Command` is any call that edits a graph, with any arguments: ids of removed nodes, of nodes of
  the other kind or of none, any ports, any match.  A run applies commands in turn to the empty
  graph and goes on after a failure with whatever the failing command left behind.

  Every command keeps graphs well-formed, so every graph of a run is; `runCommands_sound` spells out
  what that means for its edges and for the tables that list them.  Asking for the topological order
  is a command as well, since it leaves the order behind for the next one who asks.

  The parts, from the inside out:

    1. inference, the commits of the built-in rules and the actions of declared rules are made of
       edits, so they keep whatever every edit keeps (`keeps_inferAll`, `builtinRules_preserve`,
       `Action.keeps_perform`);
    2. so does every command, however it ends (`apply_keeps`), and every run (`runCommands_keeps`);
    3. with well-formedness for the property, `runCommands_wellFormed` and `Reachable.wellFormed`.
-/
import TensorGraph.Inference
import TensorGraph.Proofs.Rule.Keeps
import TensorGraph.Rule.Declared

namespace TensorGraph

open Edit TensorGraph.Graph

variable {α : Type}

section Keeps

variable {P : Graph α → Prop} (hP : KeptByEdits P)
include hP

/-! ## Shape inference -/

namespace Edit

/-- Storing a shape edits content at most. -/
theorem keeps_storeShape (port : OutputPort) (shape : Shape) :
    Keeps P P (storeShape port shape) := by
  refine keeps_graph.bind fun g => ?_
  split
  · exact keeps_pure _
  · refine (keeps_query (fun _ h => h) _).bind fun content => ?_
    split
    · exact keeps_pure _
    · exact (keeps_log _ _).bind fun _ => (hP.modifyContent _ _).bind fun _ => keeps_pure _

theorem keeps_storeShapes (op : NodeId) (index : Nat) (shapes : List Shape) :
    Keeps P P (storeShapes op index shapes) := by
  induction shapes generalizing index with
  | nil => exact keeps_pure _
  | cons shape shapes ih =>
    exact (keeps_storeShape hP _ _).bind fun _ => (ih _).bind fun _ => keeps_pure _

theorem keeps_inferNode (id : NodeId) : Keeps P P (inferNode id) := by
  refine (keeps_query (fun _ h => h) _).bind fun n => ?_
  split
  · exact keeps_pure _
  · exact (keeps_query (fun _ h => h) _).bind fun _ => keeps_storeShapes hP _ _ _

theorem keeps_inferNodes (ids : List NodeId) : Keeps P P (inferNodes ids) := by
  induction ids with
  | nil => exact keeps_pure _
  | cons id ids ih => exact (keeps_inferNode hP id).bind fun _ => ih.bind fun _ => keeps_pure _

/-- Inference keeps what every edit keeps. -/
theorem keeps_inferAll : Keeps P P inferAll :=
  keeps_graph.bind fun _ => keeps_inferNodes hP _

end Edit

/-! ## The built-in rules -/

/-- Wrapping a tile keeps what every edit keeps. -/
theorem TileRule.keeps_commit (p : TileRule.Plan) : Keeps P P (TileRule.commit p) :=
  keeps_graph.bind fun _ => (hP.addNode _ _).bind fun _ =>
  keeps_graph.bind fun _ => (hP.addNode _ _).bind fun _ =>
  keeps_graph.bind fun _ => (hP.addNode _ _).bind fun _ =>
  keeps_graph.bind fun _ => (hP.addNode _ _).bind fun _ =>
  (hP.produce _ _).bind fun _ => (hP.produce _ _).bind fun _ =>
  (hP.moveReaders _ _).bind fun _ => (hP.moveInput _ _).bind fun _ =>
  (hP.feed _ _).bind fun _ => (hP.feed _ _).bind fun _ => hP.modifyContent _ _

/-- Storing a bound keeps what every edit keeps. -/
theorem SliceRule.keeps_storeBound (slice : NodeId) (bound : SliceRule.Bound α) :
    Keeps P P (SliceRule.storeBound slice bound) := by
  refine keeps_graph.bind fun _ => ?_
  split
  · exact hP.modifyContent _ _
  · exact (keeps_query (fun _ h => h) _).bind fun _ =>
      keeps_graph.bind fun _ => (hP.addNode _ _).bind fun _ =>
      keeps_graph.bind fun _ => (hP.addNode _ _).bind fun _ =>
      (hP.produce _ _).bind fun _ => (hP.unplug _).bind fun _ =>
      (hP.feed _ _).bind fun _ => keeps_log _ _

theorem SliceRule.keeps_commit (p : SliceRule.Plan α) : Keeps P P (SliceRule.commit p) :=
  (hP.setOperation _ _).bind fun _ => keeps_forM fun _ _ => keeps_storeBound hP _ _

end Keeps

/-! The other rules add no nodes, and it is enough to know of the edits that they make. -/

section Rewiring

variable {P : Graph α → Prop} (hmodify : ∀ id f, Keeps P P (modifyContent id f))
  (hremove : ∀ id, Keeps P P (removeNode id))
include hmodify hremove

/-- Joining permutes keeps what its edits keep. -/
theorem PermuteRule.keeps_commit
    (hset : ∀ id operation, Keeps P P (setOperation id operation))
    (hmove : ∀ old new, Keeps P P (moveReaders old new)) (p : PermuteRule.Plan) :
    Keeps P P (PermuteRule.commit p) := by
  rw [commit]
  split
  · exact (hmove _ _).bind fun _ => (hremove _).bind fun _ => (hremove _).bind fun _ =>
      (hremove _).bind fun _ => (hremove _).bind fun _ => keeps_pure _
  · exact (hmove _ _).bind fun _ => (hremove _).bind fun _ => (hremove _).bind fun _ =>
      (hset _ _).bind fun _ => hmodify _ _

/-- Folding a multiplier keeps what its edits keep. -/
theorem MultiplierRule.keeps_commit [Scalar α] (hunplug : ∀ port, Keeps P P (unplug port))
    (hmove : ∀ old new, Keeps P P (moveInput old new)) (p : MultiplierRule.Plan α) :
    Keeps P P (MultiplierRule.commit p) :=
  (keeps_forM fun _ _ => hmodify _ _).bind fun _ => (hunplug _).bind fun _ =>
  (hmove _ _).bind fun _ => (hremove _).bind fun _ => (hremove _).bind fun _ => keeps_pure _

end Rewiring

namespace DeadRule

variable {P : Graph α → Prop} (hremove : ∀ id, Keeps P P (removeNode id))
include hremove

theorem keeps_removeNodes (ids : List NodeId) : Keeps P P (removeNodes ids) := by
  induction ids with
  | nil => exact keeps_pure _
  | cons id ids ih => exact (hremove id).bind fun _ => (keeps_log _ _).bind fun _ => ih

/-- Removing dead nodes keeps what removing a node keeps. -/
theorem keeps_removeRounds (rounds : Nat) : Keeps P P (removeRounds rounds) := by
  induction rounds with
  | zero => exact keeps_throw (fun _ h => h) _
  | succ rounds ih =>
    refine keeps_graph.bind fun _ => ?_
    dsimp only
    split
    · exact keeps_pure _
    · exact (keeps_removeNodes hremove _).bind fun _ => ih.bind fun _ => keeps_pure _

end DeadRule

/-- What a rule does with one match; nothing if it does not look for matches. -/
def Rule.offer (rule : Rule α) (m : Match) : Edit α Bool :=
  match rule.body with
  | .replacing _ replace => replace m
  | _ => return false

section Keeps

variable [Scalar α] {P : Graph α → Prop} (hP : KeptByEdits P)
include hP

/-- An offer to a built-in rule keeps what every edit keeps, also if it fails half-way. -/
theorem keeps_offer {rule : Rule α} (h : rule ∈ builtinRules) (m : Match) :
    Keeps P P (rule.offer m) := by
  simp only [builtinRules, List.mem_cons, List.not_mem_nil, or_false] at h
  rcases h with rfl | rfl | rfl | rfl | rfl
  · exact keeps_planThenCommit (fun _ h => h) (TileRule.keeps_commit hP)
  · exact keeps_planThenCommit (fun _ h => h) (PermuteRule.keeps_commit hP.modifyContent
      hP.removeNode hP.setOperation hP.moveReaders)
  · exact keeps_planThenCommit (fun _ h => h) (MultiplierRule.keeps_commit hP.modifyContent
      hP.removeNode hP.unplug hP.moveInput)
  · exact keeps_planThenCommit (fun _ h => h) (SliceRule.keeps_commit hP)
  · exact keeps_pure _

/-- Built-in rules preserve what every edit keeps. -/
theorem builtinRules_preserve {rule : Rule α} (h : rule ∈ builtinRules) :
    rule.Preserves P P := by
  have hoffer := keeps_offer hP h
  simp only [builtinRules, List.mem_cons, List.not_mem_nil, or_false] at h
  rcases h with rfl | rfl | rfl | rfl | rfl
  · exact fun _ _ s m hs _ => hoffer m s hs
  · exact fun _ _ s m hs _ => hoffer m s hs
  · exact fun _ _ s m hs _ => hoffer m s hs
  · exact fun _ _ s m hs _ => hoffer m s hs
  · exact keeps_graph.bind fun _ => DeadRule.keeps_removeRounds hP.removeNode _

end Keeps

/-! ## Declared rules -/

section Declared

variable {P : Graph α → Prop} (hP : KeptByEdits P)
include hP

/-- A declared action edits a graph by the edits that there are. -/
theorem Action.keeps_perform (action : Action) (m : Match) : Keeps P P (action.perform m) := by
  have hget : ∀ role, Keeps P P (attempt (m.get role)) := fun role =>
    keeps_attempt (fun _ h => h) (m.get role)
  cases action with
  | reject => exact keeps_pure _
  | accept => exact keeps_pure _
  | require role => exact (hget role).bind fun _ => keeps_pure _
  | extendKind role suffix limit =>
    refine (hget role).bind fun id => (keeps_query (fun _ h => h) _).bind fun operator => ?_
    split
    · split
      · exact keeps_pure _
      · exact (hP.setOperation _ _).bind fun _ => keeps_pure _
    · exact keeps_pure _
  | remove role =>
    exact (hget role).bind fun _ => (hP.removeNode _).bind fun _ => keeps_pure _
  | bypass old new =>
    exact (hget old).bind fun _ => (hget new).bind fun _ =>
      (hP.moveReaders _ _).bind fun _ => keeps_pure _
  | setAttribute role name value =>
    exact (hget role).bind fun _ => (hP.setAttribute _ _ _).bind fun _ => keeps_pure _

end Declared

/-! ## Commands -/

/-- A call that edits a graph. -/
inductive Command (α : Type) [Scalar α] where
  | addOperator (name : String) (operation : Operation)
  | addData (name : String) (content : Content α)
  | addEdge (src : NodeId) (srcPort : Nat) (dst : NodeId) (dstPort : Nat)
  | removeEdge (id : EdgeId)
  | removeNode (id : NodeId)
  | link (source : OutputPort) (port : InputPort)
  | feed (data : NodeId) (port : InputPort)
  | produce (port : OutputPort) (data : NodeId)
  | unplug (port : InputPort)
  | release (port : OutputPort)
  | moveInput (old new : InputPort)
  | moveReaders (old new : NodeId)
  | setOperation (id : NodeId) (operation : Operation)
  | setInference (id : NodeId) (inference : Option Inference)
  | modifyContent (id : NodeId) (f : Content α → Content α)
  | setAttribute (id : NodeId) (name : String) (value : Option Attribute)
  | setLayout (layout : Layout)
  | order
  | inferAll
  /-- Offers any match, of this graph or not, to a built-in rule. -/
  | offer (rule : Rule α) (builtin : rule ∈ builtinRules) (m : Match)
  /-- Performs the action of a declared rule at any match. -/
  | act (action : Action) (m : Match)
  | applyRule (rule : Rule α) (builtin : rule ∈ builtinRules) (maxIterations : Nat)
  | execute (d : PipelineDescription α) (builtin : ∀ rule ∈ d.rules, rule ∈ builtinRules)

namespace Command

variable [Scalar α]

/-- Performs a command; what it returns is dropped. -/
def perform : Command α → Edit α Unit
  | addOperator name operation => do let _ ← Edit.addOperator name operation
  | addData name content => do let _ ← Edit.addData name content
  | addEdge src srcPort dst dstPort => do let _ ← Edit.addEdge src srcPort dst dstPort
  | removeEdge id => do let _ ← Edit.removeEdge id
  | removeNode id => do let _ ← Edit.removeNode id
  | link source port => do let _ ← Edit.link source port
  | feed data port => Edit.feed data port
  | produce port data => Edit.produce port data
  | unplug port => do let _ ← Edit.unplug port
  | release port => do let _ ← Edit.release port
  | moveInput old new => Edit.moveInput old new
  | moveReaders old new => Edit.moveReaders old new
  | setOperation id operation => Edit.setOperation id operation
  | setInference id inference => Edit.setInference id inference
  | modifyContent id f => Edit.modifyContent id f
  | setAttribute id name value => do let _ ← Edit.setAttribute id name value
  | setLayout layout => Edit.setLayout layout
  | order => do let _ ← Edit.order
  | inferAll => do let _ ← Edit.inferAll
  | offer rule _ m => do let _ ← rule.offer m
  | act action m => do let _ ← action.perform m
  | applyRule rule _ maxIterations => do let _ ← rule.run maxIterations
  | execute d _ => do let _ ← d.execute

/-- The commands that connect nodes and take them apart. -/
def isWiring : Command α → Bool
  | addEdge .. | removeEdge _ | removeNode _ | link .. | feed .. | produce .. | unplug _
  | release _ | moveInput .. | moveReaders .. => true
  | _ => false

/-- The session after a command, whether it succeeds or fails. -/
def apply (s : Session α) (command : Command α) : Session α :=
  match command.perform s with
  | .ok _ s' => s'
  | .error _ s' => s'

/-- What every edit keeps, every command keeps. -/
theorem keeps_perform {P : Graph α → Prop} (hP : KeptByEdits P) (command : Command α) :
    Keeps P P command.perform := by
  have hdrop : ∀ {β : Type} {e : Edit α β}, Keeps P P e → Keeps P P (do let _ ← e) :=
    fun he => he.bind fun _ => keeps_pure _
  cases command with
  | addOperator name operation => exact hdrop (hP.addNode _ _)
  | addData name content => exact hdrop (hP.addNode _ _)
  | addEdge src srcPort dst dstPort => exact hdrop (hP.addEdge _ _ _ _)
  | removeEdge id => exact hdrop (hP.removeEdge _)
  | removeNode id => exact hdrop (hP.removeNode _)
  | link source port => exact hdrop (hP.link _ _)
  | feed data port => exact hP.feed _ _
  | produce port data => exact hP.produce _ _
  | unplug port => exact hdrop (hP.unplug _)
  | release port => exact hdrop (hP.release _)
  | moveInput old new => exact hP.moveInput _ _
  | moveReaders old new => exact hP.moveReaders _ _
  | setOperation id operation => exact hP.setOperation _ _
  | setInference id inference => exact hP.setInference _ _
  | modifyContent id f => exact hP.modifyContent _ _
  | setAttribute id name value => exact hdrop (hP.setAttribute _ _ _)
  | setLayout layout => exact hP.setLayout _
  | order => exact hdrop hP.order
  | inferAll => exact hdrop (keeps_inferAll hP)
  | offer rule builtin m => exact hdrop (keeps_offer hP builtin m)
  | act action m => exact hdrop (action.keeps_perform hP m)
  | applyRule rule builtin maxIterations =>
    exact hdrop (Rule.keeps_run (fun _ h => h) (builtinRules_preserve hP builtin) _)
  | execute d builtin =>
    exact hdrop (PipelineDescription.keeps_execute (fun _ h => h) fun rule hrule =>
      builtinRules_preserve hP (builtin rule hrule))

/-- A command keeps what every edit keeps, however it ends. -/
theorem apply_keeps {P : Graph α → Prop} (hP : KeptByEdits P) {s : Session α} (hs : P s.graph)
    (command : Command α) : P (apply s command).graph := by
  have hruns := keeps_perform hP command s hs
  rw [apply]
  split
  · rename_i hok
    exact hruns.of_ok hok
  · rename_i herror
    exact hruns.of_error herror

end Command

/-- The graph after a sequence of commands on the empty graph of a layout. -/
def runCommands [Scalar α] (layout : Layout) (commands : List (Command α)) : Graph α :=
  (commands.foldl Command.apply ⟨Graph.empty layout, []⟩).graph

/-- Commands lead to the graph. -/
def Reachable [Scalar α] (g : Graph α) : Prop :=
  ∃ layout commands, runCommands layout commands = g

/-- What every edit keeps holds along every run. -/
theorem runCommands_keeps [Scalar α] {P : Graph α → Prop} (hP : KeptByEdits P)
    (hempty : ∀ layout, P (Graph.empty layout)) (layout : Layout) (commands : List (Command α)) :
    P (runCommands layout commands) := by
  have hrun : ∀ (commands : List (Command α)) (s : Session α), P s.graph →
      P (commands.foldl Command.apply s).graph := by
    intro commands
    induction commands with
    | nil => exact fun _ hs => hs
    | cons command rest ih => exact fun _ hs => ih _ (Command.apply_keeps hP hs command)
  exact hrun commands _ (hempty layout)

/-- Every graph of a run is well-formed. -/
theorem runCommands_wellFormed [Scalar α] (layout : Layout) (commands : List (Command α)) :
    (runCommands layout commands).WellFormed :=
  runCommands_keeps keptByEdits_wellFormed wellFormed_empty layout commands

theorem Reachable.wellFormed [Scalar α] {g : Graph α} (h : Reachable g) : g.WellFormed := by
  obtain ⟨layout, commands, rfl⟩ := h
  exact runCommands_wellFormed layout commands

/-! ## What well-formedness means for the edges -/

namespace Graph

/-- The edges of a graph and the tables that list them are in order. -/
structure Sound (g : Graph α) : Prop where
  /-- An edge joins live nodes of different kinds and has port zero at its data side. -/
  alternates : ∀ e ∈ g.edges,
    (g.kind? e.src = some .op ∧ g.kind? e.dst = some .data ∧ e.dstPort = 0) ∨
      (g.kind? e.src = some .data ∧ g.kind? e.dst = some .op ∧ e.srcPort = 0)
  one_producer : ∀ id, g.kind? id = some .data → (g.inEdgeIds id).length ≤ 1
  inputs_distinct : ∀ e ∈ g.edges, ∀ f ∈ g.edges, g.kind? e.dst = some .op →
    e.dst = f.dst → e.dstPort = f.dstPort → e = f
  outputs_distinct : ∀ e ∈ g.edges, ∀ f ∈ g.edges, g.kind? e.src = some .op →
    e.src = f.src → e.srcPort = f.srcPort → e = f
  /-- Both tables have an entry for each id that was given away. -/
  tables_length : g.incoming.length = g.nextNode ∧ g.outgoing.length = g.nextNode
  /-- What the one table lists at a node are the live edges that end there, each once. -/
  inEdges_exact : ∀ id, (g.inEdgeIds id).Nodup ∧
    ∀ x, x ∈ g.inEdgeIds id ↔ ∃ e, g.edge? x = some e ∧ e.dst = id
  /-- What the other table lists at a node are the live edges that start there, each once. -/
  outEdges_exact : ∀ id, (g.outEdgeIds id).Nodup ∧
    ∀ x, x ∈ g.outEdgeIds id ↔ ∃ e, g.edge? x = some e ∧ e.src = id
  removed_isolated : ∀ id, g.node? id = none → g.inEdgeIds id = [] ∧ g.outEdgeIds id = []
  acyclic : ∀ id, ¬ Relation.TransGen g.Joins id id

namespace WellFormed

variable {g : Graph α} (hg : g.WellFormed)
include hg

/-- Selecting edges selects their ids, each once. -/
theorem mem_edge_ids {p : Edge → Bool} {q : Edge → Prop} (hpq : ∀ e, p e = true ↔ q e) :
    ((g.edges.filter p).map (·.id)).Nodup ∧
      ∀ x, x ∈ (g.edges.filter p).map (·.id) ↔ ∃ e, g.edge? x = some e ∧ q e := by
  refine ⟨hg.edge_ids_nodup.sublist (List.filter_sublist.map _), fun x => ?_⟩
  simp only [List.mem_map, List.mem_filter, hg.edge?_eq_some_iff, hpq]
  constructor
  · rintro ⟨e, ⟨he, hp⟩, hid⟩
    exact ⟨e, ⟨he, hid⟩, hp⟩
  · rintro ⟨e, ⟨he, hid⟩, hp⟩
    exact ⟨e, ⟨he, hp⟩, hid⟩

/-- What well-formedness means, edge by edge and entry by entry. -/
theorem sound : g.Sound where
  alternates := hg.alternates
  one_producer := fun _ => hg.inEdgeIds_length_le
  inputs_distinct := fun e he f hf _ => hg.inputs_distinct e he f hf
  outputs_distinct := hg.outputs_distinct
  tables_length := ⟨hg.length_incoming, hg.length_outgoing⟩
  inEdges_exact := by
    intro id
    rw [hg.inEdgeIds_eq]
    exact hg.mem_edge_ids fun _ => beq_iff_eq
  outEdges_exact := by
    intro id
    rw [hg.outEdgeIds_eq]
    exact hg.mem_edge_ids fun _ => beq_iff_eq
  removed_isolated := by
    intro id hnone
    rw [hg.inEdgeIds_eq, hg.outEdgeIds_eq]
    simp only [List.map_eq_nil_iff, List.filter_eq_nil_iff, beq_iff_eq]
    constructor
    · rintro e he rfl
      exact (hg.wired_live ⟨e, he, rfl⟩).2 hnone
    · rintro e he rfl
      exact (hg.wired_live ⟨e, he, rfl⟩).1 hnone
  acyclic := hg.acyclic

end WellFormed

end Graph

/-- Whatever commands are run, and whichever of them fail, the edges of the graph are in order, its
check passes, and its topological order lists every node once, the source of an edge first. -/
theorem runCommands_sound [Scalar α] (layout : Layout) (commands : List (Command α)) :
    (runCommands layout commands).Sound ∧
      (runCommands layout commands).checkAll = .ok () ∧
      (runCommands layout commands).topologicalOrder.Perm (runCommands layout commands).ids ∧
      ∀ e ∈ (runCommands layout commands).edges,
        (runCommands layout commands).topologicalOrder.idxOf e.src <
          (runCommands layout commands).topologicalOrder.idxOf e.dst := by
  have hg := runCommands_wellFormed layout commands
  refine ⟨hg.sound, hg.checkAll_eq_ok, hg.topologicalOrder_perm, fun e he => ?_⟩
  exact hg.ranked_topologicalOrder e.toWire ⟨e, he, rfl⟩

end TensorGraph
