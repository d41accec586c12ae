/-
  Edits are refused exactly if they would break the graph.

  A graph is `Legal` if its edges alternate, data has at most one producer, ports of operators are
  used once and there is no cycle.  Adding an edge, or a data node between two operators, succeeds
  if and only if the graph with the new edges is legal.

  Moving edges is checked before the old edges are gone, although these might be part of the path
  that makes the check fail.  They never are: the old edges start where the new ones start, or at a
  node that none of the readers reaches, and so the check decides whether the graph is acyclic after
  the move (`acyclic_inputMoved_iff`, `acyclic_readersMoved_iff`).

  A refused edit leaves the graph as it was.
-/
import TensorGraph.Proofs.Reachable

namespace TensorGraph

open Relation Edit TensorGraph.Graph

variable {α β γ : Type} {g : Graph α} {notes : List LogEntry}

/-! ## How edits fail -/

namespace Edit

/-- The edit, started in this session, ends with a result. -/
def Succeeds (e : Edit α β) (s : Session α) : Prop :=
  ∃ result s', e s = .ok result s'

instance (e : Edit α β) (s : Session α) : Decidable (Succeeds e s) :=
  match h : e s with
  | .ok result s' => isTrue ⟨result, s', h⟩
  | .error _ _ => isFalse fun ⟨_, _, hok⟩ => by
    rw [h] at hok
    cases hok

theorem Runs.succeeds_iff {e : Edit α β} {s : Session α} {p : Prop}
    (h : Runs e s (fun _ _ => p) fun _ => ¬ p) : Succeeds e s ↔ p := by
  constructor
  · rintro ⟨result, s', hok⟩
    exact h.of_ok hok
  · intro hp
    cases hs : e s with
    | ok result s' => exact ⟨result, s', hs⟩
    | error error s' => exact absurd hp (h.of_error hs)

theorem requireKind_of_eq {id : NodeId} {k : Kind} (h : g.kind? id = some k) :
    query (fun g => g.requireKind id k) ⟨g, notes⟩ = .ok () ⟨g, notes⟩ :=
  query_eq_ok.mpr ⟨Graph.requireKind_eq_ok.mpr h, rfl⟩

/-- Between data nodes readers are only refused for a cycle. -/
theorem moveReaders_error (hg : g.WellFormed) {old new : NodeId} (hold : g.kind? old = some .data)
    (hnew : g.kind? new = some .data) {error : Error} {s : Session α}
    (h : moveReaders old new ⟨g, notes⟩ = .error error s) : ∃ id, error = .cycle new id := by
  rcases bind_eq_error h with h | ⟨_, _, hok, h⟩
  · rw [requireKind_of_eq hold] at h
    cases h
  rw [requireKind_of_eq hold] at hok
  cases hok
  rcases bind_eq_error h with h | ⟨_, _, hok, h⟩
  · rw [requireKind_of_eq hnew] at h
    cases h
  rw [requireKind_of_eq hnew] at hok
  cases hok
  split at h
  · cases h
  rcases bind_eq_error h with h | ⟨_, _, hok, h⟩
  · cases h
  cases hok
  rcases bind_eq_error h with h | ⟨_, s₁, hloop, h⟩
  · obtain ⟨p, -, s₁, hp⟩ := forM_eq_error h
    split at hp
    · cases hp
      exact ⟨p.node, rfl⟩
    · cases hp
  · -- once no reader is refused, all of them are moved
    obtain ⟨hclear, hsame⟩ := (runs_clear (E := fun _ => True)
      (Q := fun _ g' => (∀ p ∈ g.readers old, ¬ ReflTransGen g.Joins p.node new) ∧ g' = g)
      hg (fun hclear => ⟨hclear, rfl⟩) fun _ => trivial).of_ok hloop
    obtain ⟨g', log⟩ := s₁
    obtain rfl : g' = g := hsame
    exact ((runs_refeedAll (Q := fun _ _ => True) (E := fun _ => False) hg hnew
      (hg.readers_op hold) hclear trivial).of_error h).elim

end Edit

namespace Graph

/-! ## Legal graphs -/

/-- The edges of the graph may stand beside each other. -/
structure Legal (g : Graph α) : Prop where
  /-- An edge joins live nodes of different kinds and has port zero at its data side. -/
  alternates : ∀ e ∈ g.edges, g.Alternates e.toWire
  one_producer : ∀ e ∈ g.edges, ∀ f ∈ g.edges, g.kind? e.dst = some .data →
    e.dst = f.dst → e = f
  inputs_distinct : ∀ e ∈ g.edges, ∀ f ∈ g.edges, g.kind? e.dst = some .op →
    e.dst = f.dst → e.dstPort = f.dstPort → e = f
  outputs_distinct : ∀ e ∈ g.edges, ∀ f ∈ g.edges, g.kind? e.src = some .op →
    e.src = f.src → e.srcPort = f.srcPort → e = f
  acyclic : g.Acyclic

/-- Between the same nodes, fewer edges are no less legal. -/
theorem Legal.mono {g' : Graph α} (h : g'.Legal) (hkind : g.kind? = g'.kind?)
    (hsub : ∀ e ∈ g.edges, e ∈ g'.edges) : g.Legal where
  alternates := by
    intro e he
    rw [Alternates, hkind]
    exact h.alternates e (hsub e he)
  one_producer := fun e he f hf hdata =>
    h.one_producer e (hsub e he) f (hsub f hf) (hkind ▸ hdata)
  inputs_distinct := fun e he f hf hop =>
    h.inputs_distinct e (hsub e he) f (hsub f hf) (hkind ▸ hop)
  outputs_distinct := fun e he f hf hop =>
    h.outputs_distinct e (hsub e he) f (hsub f hf) (hkind ▸ hop)
  acyclic := h.acyclic.mono fun _ _ => JoinedBy.mono hsub

theorem WellFormed.legal (hg : g.WellFormed) : g.Legal where
  alternates := hg.alternates
  one_producer := by
    intro e he f hf hdata hdst
    have hports := (hg.wired_to_data ⟨e, he, rfl⟩ hdata).2.trans
      (hg.wired_to_data ⟨f, hf, rfl⟩ (hdst ▸ hdata)).2.symm
    exact hg.inputs_distinct e he f hf hdst hports
  inputs_distinct := fun e he f hf _ => hg.inputs_distinct e he f hf
  outputs_distinct := hg.outputs_distinct
  acyclic := hg.acyclic

theorem path_insertEdge {w : Wire} {a b : NodeId} (h : ReflTransGen g.Joins a b) :
    ReflTransGen (g.insertEdge w).Joins a b :=
  ReflTransGen.mono (fun _ _ hjoin => joins_insertEdge.mpr (.inl hjoin)) _ _ h

/-- A new edge leaves the graph legal exactly if its wire is admitted. -/
theorem legal_insertEdge_iff (hg : g.WellFormed) {w : Wire} :
    (g.insertEdge w).Legal ↔ g.Admits w := by
  refine ⟨fun h => ?_, fun hadmits => (hg.insertEdge hadmits).legal⟩
  have hnew : (⟨w, g.nextEdge⟩ : Edge) ∈ (g.insertEdge w).edges :=
    List.mem_append_right _ List.mem_cons_self
  have hold : ∀ e ∈ g.edges, e ∈ (g.insertEdge w).edges := fun e he => List.mem_append_left _ he
  have hfresh : ∀ e ∈ g.edges, e ≠ ⟨w, g.nextEdge⟩ := by
    rintro e he rfl
    exact Nat.lt_irrefl _ (hg.edges_below _ he)
  refine ⟨h.alternates _ hnew, ?_, ?_, ?_⟩
  · rintro v ⟨e, he, rfl⟩ ⟨hdst, hport⟩
    refine hfresh e he ?_
    rcases h.alternates _ hnew with ⟨_, hdata, _⟩ | ⟨_, hop, _⟩
    · exact (h.one_producer _ hnew e (hold e he) hdata hdst.symm).symm
    · exact (h.inputs_distinct _ hnew e (hold e he) hop hdst.symm hport.symm).symm
  · rintro hop v ⟨e, he, rfl⟩ ⟨hsrc, hport⟩
    refine hfresh e he ?_
    exact (h.outputs_distinct _ hnew e (hold e he) hop hsrc.symm hport.symm).symm
  · intro hback
    exact h.acyclic w.dst <|
      TransGen.tail' (path_insertEdge hback) (joins_insertEdge.mpr (.inr ⟨rfl, rfl⟩))

/-- A new data node between two operators is legal if the reader's port is free and no path leads
from the reader to the producer. -/
theorem legal_insertLink_iff (hg : g.WellFormed) {name : String} {source : OutputPort}
    {port : InputPort} (hsource : g.kind? source.node = some .op)
    (hport : g.kind? port.node = some .op) (hresult : g.result? source = none) :
    (g.insertLink name source port).Legal ↔
      g.edgeInto? port = none ∧ ¬ ReflTransGen g.Joins port.node source.node := by
  constructor
  · intro h
    -- the two edges are added one after the other, and the graph in between is legal as well
    have hg₁ : (g.insertNode name (.data {})).WellFormed := hg.insertNode name (.data {})
    have hfirst := (legal_insertEdge_iff hg₁).mp <|
      h.mono rfl fun e he => List.mem_append_left _ he
    have hsecond := (legal_insertEdge_iff (hg₁.insertEdge hfirst)).mp h
    constructor
    · rw [hg.edgeInto?_eq_none_iff]
      exact fun v hv => hsecond.input_free v (wired_insertEdge.mpr (.inl hv))
    · intro hback
      exact hsecond.no_path_back <|
        (path_insertEdge hback).tail (joins_insertEdge.mpr (.inr ⟨rfl, rfl⟩))
  · rintro ⟨hfree, hback⟩
    rw [result?, Option.map_eq_none_iff] at hresult
    exact (hg.insertLink hsource hport (hg.edgeOutOf?_eq_none_iff.mp hresult)
      (hg.edgeInto?_eq_none_iff.mp hfree) hback).legal

/-- The graph with the edges that feed an input port from an output port: one from the result that
is there, or two with a new data node in between. -/
def linked (g : Graph α) (source : OutputPort) (port : InputPort) : Graph α :=
  match g.result? source with
  | some data => g.insertEdge ⟨data, 0, port.node, port.index⟩
  | none => g.insertLink "" source port

/-! ## Moved edges -/

/-- The graph with the edge at one input port moved to another. -/
def inputMoved (g : Graph α) (old new : InputPort) : Graph α :=
  { g with
    edges := g.edges.map fun e =>
      if e.target = old then { e with dst := new.node, dstPort := new.index } else e }

/-- The graph with all readers of one data node moved to another. -/
def readersMoved (g : Graph α) (old new : NodeId) : Graph α :=
  { g with edges := g.edges.map fun e => if e.src = old then { e with src := new } else e }

theorem joins_inputMoved (hg : g.WellFormed) {old new : InputPort} {e : Edge}
    (he : g.edgeInto? old = some e) {a b : NodeId} :
    (g.inputMoved old new).Joins a b ↔
      (g.eraseEdge e.id).Joins a b ∨ (a = e.src ∧ b = new.node) := by
  obtain ⟨hmem, hdst, hport⟩ := hg.edgeInto?_spec he
  have htarget : e.target = old := by
    rw [Wire.target, hdst, hport]
  have hunique : ∀ f ∈ g.edges, f.target = old ↔ f.id = e.id := by
    intro f hf
    constructor
    · intro hf'
      rw [← htarget, Wire.target, Wire.target, InputPort.mk.injEq] at hf'
      rw [hg.inputs_distinct f hf e hmem hf'.1 hf'.2]
    · intro hid
      rw [List.inj_on_of_nodup_map hg.edge_ids_nodup hf hmem hid, htarget]
  constructor
  · rintro ⟨_, hmoved, rfl, rfl⟩
    obtain ⟨f, hf, rfl⟩ := List.mem_map.mp hmoved
    split
    · rename_i hf'
      rw [List.inj_on_of_nodup_map hg.edge_ids_nodup hf hmem ((hunique f hf).mp hf')]
      exact .inr ⟨rfl, rfl⟩
    · rename_i hf'
      refine .inl ⟨f, mem_edges_eraseEdge.mpr ⟨hf, ?_⟩, rfl, rfl⟩
      rw [ne_eq, ← hunique f hf]
      exact hf'
  · rintro (⟨f, hf, rfl, rfl⟩ | ⟨rfl, rfl⟩)
    · obtain ⟨hf, hid⟩ := mem_edges_eraseEdge.mp hf
      rw [ne_eq, ← hunique f hf] at hid
      exact ⟨f, List.mem_map.mpr ⟨f, hf, if_neg hid⟩, rfl, rfl⟩
    · exact ⟨_, List.mem_map.mpr ⟨e, hmem, if_pos htarget⟩, rfl, rfl⟩

theorem joins_readersMoved {old new a b : NodeId} :
    (g.readersMoved old new).Joins a b ↔
      (a ≠ old ∧ g.Joins a b) ∨ (a = new ∧ g.Joins old b) := by
  constructor
  · rintro ⟨_, hmoved, rfl, rfl⟩
    obtain ⟨f, hf, rfl⟩ := List.mem_map.mp hmoved
    split
    · rename_i hsrc
      exact .inr ⟨rfl, f, hf, hsrc, rfl⟩
    · rename_i hsrc
      exact .inl ⟨hsrc, f, hf, rfl, rfl⟩
  · rintro (⟨hne, f, hf, rfl, rfl⟩ | ⟨rfl, f, hf, hsrc, rfl⟩)
    · exact ⟨f, List.mem_map.mpr ⟨f, hf, if_neg hne⟩, rfl, rfl⟩
    · exact ⟨_, List.mem_map.mpr ⟨f, hf, if_pos hsrc⟩, rfl, rfl⟩

/-- The check in front of the move is right about the graph after it. -/
theorem acyclic_inputMoved_iff (hg : g.WellFormed) {old new : InputPort} {e : Edge}
    (he : g.edgeInto? old = some e) :
    (g.inputMoved old new).Acyclic ↔ ¬ ReflTransGen g.Joins new.node e.src := by
  have hmem := (hg.edgeInto?_spec he).1
  constructor
  · intro hacyclic hback
    -- the path need not use the edge that goes away, which starts where the path ends
    have hstep : ∀ x y, g.Joins x y → (g.inputMoved old new).Joins x y ∨ x = e.src := by
      rintro x y ⟨f, hf, rfl, rfl⟩
      by_cases hid : f.id = e.id
      · rw [List.inj_on_of_nodup_map hg.edge_ids_nodup hf hmem hid]
        exact .inr rfl
      · refine .inl ((joins_inputMoved hg he).mpr (.inl ⟨f, ?_, rfl, rfl⟩))
        exact mem_edges_eraseEdge.mpr ⟨hf, hid⟩
    have hback' := path_to_source hstep hback
    exact hacyclic _ (TransGen.tail' hback' ((joins_inputMoved hg he).mpr (.inr ⟨rfl, rfl⟩)))
  · intro hback
    have hfewer : ∀ x y, (g.eraseEdge e.id).Joins x y → g.Joins x y := fun _ _ =>
      JoinedBy.mono fun _ hf => (mem_edges_eraseEdge.mp hf).1
    exact acyclic_with_step (fun _ _ => (joins_inputMoved hg he).mp) (hg.eraseEdge e.id).acyclic
      fun hpath => hback (ReflTransGen.mono hfewer _ _ hpath)

/-- A path that cannot reach a node does not use the edges out of it. -/
theorem path_avoiding {r r' : NodeId → NodeId → Prop} {avoided a b : NodeId}
    (hstep : ∀ x y, r x y → x ≠ avoided → r' x y) (hpath : ReflTransGen r a b)
    (havoids : ¬ ReflTransGen r a avoided) : ReflTransGen r' a b := by
  induction hpath using ReflTransGen.head_induction_on with
  | refl => exact .refl
  | @head x y hxy _ ih =>
    have hx : x ≠ avoided := by
      rintro rfl
      exact havoids .refl
    exact (ih fun hpath => havoids (hpath.head hxy)).head (hstep x y hxy hx)

/-- Moving readers closes no cycle exactly if none of them reaches the new data. -/
theorem acyclic_readersMoved_iff (hg : g.WellFormed) {old new : NodeId}
    (hold : g.kind? old = some .data) (hnew : g.kind? new = some .data) :
    (g.readersMoved old new).Acyclic ↔
      ∀ p ∈ g.readers old, ¬ ReflTransGen g.Joins p.node new := by
  constructor
  · intro hacyclic p hp hback
    obtain ⟨i, hw⟩ := hg.mem_readers.mp hp
    -- a reader does not reach the data that it reads, so the path leaves no other reader's edge
    have havoids : ¬ ReflTransGen g.Joins p.node old := fun hpath =>
      hg.acyclic old (TransGen.head' hw.joins hpath)
    have hback' : ReflTransGen (g.readersMoved old new).Joins p.node new :=
      path_avoiding (fun _ _ hjoin hne => joins_readersMoved.mpr (.inl ⟨hne, hjoin⟩)) hback havoids
    exact hacyclic new (TransGen.head' (joins_readersMoved.mpr (.inr ⟨rfl, hw.joins⟩)) hback')
  · intro hclear
    obtain ⟨hwf, hwired⟩ := WellFormed.refeedAll _ hg hnew (hg.readers_op hold) hclear
    refine hwf.acyclic.mono fun a b hjoin => ?_
    rcases joins_readersMoved.mp hjoin with ⟨hne, hold'⟩ | ⟨rfl, hold'⟩
    · obtain ⟨i, j, hw⟩ := joins_iff.mp hold'
      refine joins_iff.mpr ⟨i, j, (hwired _).mpr (.inl ⟨hw, fun hread => hne ?_⟩)⟩
      obtain ⟨i', hw'⟩ := hg.mem_readers.mp hread
      exact congrArg Wire.src (hg.eq_of_input hw hw' rfl rfl)
    · obtain ⟨i, j, hw⟩ := joins_iff.mp hold'
      exact joins_iff.mpr ⟨0, j, (hwired _).mpr (.inr ⟨rfl, rfl, hg.mem_readers.mpr ⟨i, hw⟩⟩)⟩

end Graph

/-! ## Exact edits -/

/-- What edits of the wiring do on this graph. -/
structure ExactEdits [Scalar α] (g : Graph α) (notes : List LogEntry) : Prop where
  /-- The kind of the source says which of the two ports is the one of the operator. -/
  addEdge : ∀ src srcPort dst dstPort, Succeeds (addEdge src srcPort dst dstPort) ⟨g, notes⟩ ↔
    ∃ k, g.kind? src = some k ∧ g.kind? dst ≠ none ∧
      (g.insertEdge (wireBetween k src srcPort dst dstPort)).Legal
  feed : ∀ data port, Succeeds (feed data port) ⟨g, notes⟩ ↔
    g.kind? data = some .data ∧ g.kind? port.node = some .op ∧
      (g.insertEdge ⟨data, 0, port.node, port.index⟩).Legal
  produce : ∀ port data, Succeeds (produce port data) ⟨g, notes⟩ ↔
    g.kind? port.node = some .op ∧ g.kind? data = some .data ∧
      (g.insertEdge ⟨port.node, port.index, data, 0⟩).Legal
  /-- The name of a new data node ends in the number of the port, counted from one. -/
  link : ∀ source port, source.index + 1 < wordLimit → (Succeeds (link source port) ⟨g, notes⟩ ↔
    g.kind? source.node = some .op ∧ g.kind? port.node = some .op ∧ (g.linked source port).Legal)
  moveInput : ∀ old new, g.kind? old.node = some .op → g.edgeInto? old ≠ none → old ≠ new →
    (Succeeds (moveInput old new) ⟨g, notes⟩ ↔
      g.kind? new.node = some .op ∧ g.edgeInto? new = none ∧ (g.inputMoved old new).Acyclic)
  moveReaders : ∀ old new, g.kind? old = some .data → g.kind? new = some .data →
    ((∃ a b s, moveReaders old new ⟨g, notes⟩ = .error (.cycle a b) s) ↔
      ¬ (g.readersMoved old new).Acyclic)
  refused : ∀ command : Command α, command.isWiring = true →
    ∀ error s, command.perform ⟨g, notes⟩ = .error error s → s.graph = g

section Exact

variable (hg : g.WellFormed)
include hg

/-- An edge is added exactly if its ends are there and the graph stays legal. -/
theorem succeeds_addEdge_iff {src dst : NodeId} {srcPort dstPort : Nat} :
    Succeeds (addEdge src srcPort dst dstPort) ⟨g, notes⟩ ↔
      ∃ k, g.kind? src = some k ∧ g.kind? dst ≠ none ∧
        (g.insertEdge (wireBetween k src srcPort dst dstPort)).Legal := by
  refine (runs_addEdge hg (fun k hk hadmits => ?_) ?_).succeeds_iff
  · refine ⟨k, hk, ?_, (legal_insertEdge_iff hg).mpr hadmits⟩
    cases k with
    | op => exact hadmits.alternates.data_of_op hk ▸ Option.some_ne_none _
    | data => exact hadmits.alternates.op_of_data hk ▸ Option.some_ne_none _
  · rintro hrefused ⟨k, hk, -, hlegal⟩
    exact hrefused k hk ((legal_insertEdge_iff hg).mp hlegal)

theorem succeeds_feed_iff {data : NodeId} {port : InputPort} :
    Succeeds (feed data port) ⟨g, notes⟩ ↔
      g.kind? data = some .data ∧ g.kind? port.node = some .op ∧
        (g.insertEdge ⟨data, 0, port.node, port.index⟩).Legal := by
  refine (runs_feed hg (fun hdata hadmits => ?_) ?_).succeeds_iff
  · exact ⟨hdata, hadmits.alternates.op_of_data hdata, (legal_insertEdge_iff hg).mpr hadmits⟩
  · rintro hrefused ⟨hdata, -, hlegal⟩
    exact hrefused ⟨hdata, (legal_insertEdge_iff hg).mp hlegal⟩

theorem succeeds_produce_iff {port : OutputPort} {data : NodeId} :
    Succeeds (produce port data) ⟨g, notes⟩ ↔
      g.kind? port.node = some .op ∧ g.kind? data = some .data ∧
        (g.insertEdge ⟨port.node, port.index, data, 0⟩).Legal := by
  refine (runs_produce hg (fun hop hadmits => ?_) ?_).succeeds_iff
  · exact ⟨hop, hadmits.alternates.data_of_op hop, (legal_insertEdge_iff hg).mpr hadmits⟩
  · rintro hrefused ⟨hop, -, hlegal⟩
    exact hrefused ⟨hop, (legal_insertEdge_iff hg).mp hlegal⟩

/-- Two ports are linked exactly if both are ports of operators and the graph stays legal. -/
theorem succeeds_link_iff {source : OutputPort} {port : InputPort}
    (hword : source.index + 1 < wordLimit) :
    Succeeds (link source port) ⟨g, notes⟩ ↔
      g.kind? source.node = some .op ∧ g.kind? port.node = some .op ∧
        (g.linked source port).Legal := by
  refine (runs_link hg ?_ ?_ ?_).succeeds_iff
  · intro data hsource hresult hdata hadmits
    refine ⟨hsource, hadmits.alternates.op_of_data hdata, ?_⟩
    rw [linked, hresult]
    exact (legal_insertEdge_iff hg).mpr hadmits
  · intro name hsource hport hresult hfree hback
    refine ⟨hsource, hport, ?_⟩
    rw [linked, hresult]
    exact (legal_insertLink_iff hg hsource hport hresult).mpr ⟨hfree, hback⟩
  · rintro hrefused ⟨hsource, hport, hlegal⟩
    obtain ⟨hused, hnew⟩ := hrefused hsource hport
    rw [linked] at hlegal
    split at hlegal
    · rename_i data hresult
      exact hused data hresult ((legal_insertEdge_iff hg).mp hlegal)
    · rename_i hresult
      obtain ⟨hfree, hback⟩ := (legal_insertLink_iff hg hsource hport hresult).mp hlegal
      rcases hnew hresult hfree with hpath | hlong
      · exact hback hpath
      · exact absurd hword (Nat.not_lt.mpr hlong)

/-- An edge is moved exactly if the new port is free and the graph stays acyclic. -/
theorem succeeds_moveInput_iff {old new : InputPort} (hop : g.kind? old.node = some .op)
    (hused : g.edgeInto? old ≠ none) (hne : old ≠ new) :
    Succeeds (moveInput old new) ⟨g, notes⟩ ↔
      g.kind? new.node = some .op ∧ g.edgeInto? new = none ∧ (g.inputMoved old new).Acyclic := by
  obtain ⟨e, he⟩ := Option.ne_none_iff_exists'.mp hused
  obtain ⟨hmem, hdst, -⟩ := hg.edgeInto?_spec he
  have hdata : g.kind? e.src = some .data := (hg.wired_to_op ⟨e, hmem, rfl⟩ (hdst ▸ hop)).1
  rw [acyclic_inputMoved_iff hg he, hg.edgeInto?_eq_none_iff]
  -- the wire that the check is about starts at data, so its other end is an operator
  have hadmits : g.Admits ⟨e.src, 0, new.node, new.index⟩ ↔
      g.kind? new.node = some .op ∧
        (∀ w, g.Wired w → ¬ (w.dst = new.node ∧ w.dstPort = new.index)) ∧
        ¬ ReflTransGen g.Joins new.node e.src := by
    constructor
    · intro h
      exact ⟨h.alternates.op_of_data hdata, h.input_free, h.no_path_back⟩
    · rintro ⟨hnew, hfree, hback⟩
      exact ⟨.inr ⟨hdata, hnew, rfl⟩, hfree, fun hsrc => absurd rfl (op_ne_data hsrc hdata), hback⟩
  refine (runs_moveInput hg (fun f k hf _ hk h => ?_) (fun _ h => absurd h hne) ?_).succeeds_iff
  · obtain rfl : e = f := Option.some.inj (he.symm.trans hf)
    obtain rfl : k = .data := Option.some.inj (hk.symm.trans hdata)
    exact hadmits.mp h
  · intro hrefused h
    exact hrefused e .data he hdata (hadmits.mpr h)

/-- Moving readers is refused for a cycle exactly if there would be one. -/
theorem moveReaders_cycle_iff {old new : NodeId} (hold : g.kind? old = some .data)
    (hnew : g.kind? new = some .data) :
    (∃ a b s, moveReaders old new ⟨g, notes⟩ = .error (.cycle a b) s) ↔
      ¬ (g.readersMoved old new).Acyclic := by
  rw [acyclic_readersMoved_iff hg hold hnew]
  have hruns : Runs (moveReaders old new) ⟨g, notes⟩
      (fun _ _ => ∀ p ∈ g.readers old, ¬ ReflTransGen g.Joins p.node new)
      fun _ => ¬ ∀ p ∈ g.readers old, ¬ ReflTransGen g.Joins p.node new := by
    refine runs_moveReaders hg (fun _ _ _ hclear => hclear) (fun _ hsame p hp hpath => ?_) ?_
    · obtain ⟨i, hw⟩ := hg.mem_readers.mp hp
      rw [← hsame] at hpath
      exact hg.acyclic old (TransGen.head' hw.joins hpath)
    · exact fun hrefused hclear => hrefused ⟨hold, hnew, hclear⟩
  constructor
  · rintro ⟨a, b, s, herror⟩
    exact hruns.of_error herror
  · intro hcycle
    cases hs : moveReaders old new ⟨g, notes⟩ with
    | ok _ s => exact absurd (hruns.of_ok hs) hcycle
    | error error s =>
      obtain ⟨id, rfl⟩ := moveReaders_error hg hold hnew hs
      exact ⟨new, id, s, rfl⟩

/-- A refused edit of the wiring leaves the graph as it was. -/
theorem runs_refused [Scalar α] {command : Command α} (hwiring : command.isWiring = true) :
    Runs command.perform ⟨g, notes⟩ (fun _ _ => True) (· = g) := by
  cases command with
  | addEdge => exact runs_bind (runs_addEdge hg (fun _ _ _ _ => trivial) fun _ => rfl)
  | removeEdge => exact runs_bind (runs_removeEdge hg (fun _ _ _ _ => trivial) fun _ => rfl)
  | removeNode => exact runs_bind (runs_removeNode hg (fun _ _ _ _ => trivial) fun _ => rfl)
  | link =>
    exact runs_bind (runs_link hg (fun _ _ _ _ _ _ => trivial)
      (fun _ _ _ _ _ _ _ => trivial) fun _ => rfl)
  | feed => exact runs_feed hg (fun _ _ => trivial) fun _ => rfl
  | produce => exact runs_produce hg (fun _ _ => trivial) fun _ => rfl
  | unplug =>
    exact runs_bind (runs_unplug hg (fun _ _ _ _ => trivial) (fun _ _ _ => trivial) fun _ => rfl)
  | release =>
    exact runs_bind (runs_release hg (fun _ _ _ _ _ => trivial) (fun _ _ _ => trivial) fun _ => rfl)
  | moveInput => exact runs_moveInput hg (fun _ _ _ _ _ _ => trivial) (fun _ _ => trivial) fun _ => rfl
  | moveReaders =>
    exact runs_moveReaders hg (fun _ _ _ _ => trivial) (fun _ _ => trivial) fun _ => rfl
  | _ => cases hwiring

end Exact

/-- Two permutes in a row. -/
def chainCommands : List (Command Float) :=
  [.addOperator "x" .parameter, .addOperator "first" (.permute [1, 0]),
    .addOperator "second" (.permute [1, 0]), .link ⟨0, 0⟩ ⟨1, 0⟩, .link ⟨1, 0⟩ ⟨2, 0⟩]

end TensorGraph
