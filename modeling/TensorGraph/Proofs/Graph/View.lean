/-
  A graph as three partial maps.

  For a rule, a well-formed graph is its `View`: the nodes by id, the data node that each input port
  of an operator reads, and the data node that each output port makes.  Edge ids and the order of
  the lists are gone, and every edit is an update of the maps.

  `Presents g v rank` ties a graph to a view and a ranking of the nodes that grows from producers to
  readers.  The rules step through their edits with the lemmas of the last section: each needs facts
  about the maps, and that a new connection goes upwards in the ranking.
-/
import TensorGraph.Proofs.Graph.Edit
import Mathlib.Tactic.Simps.Basic

namespace TensorGraph

open Relation
open Function (update)

variable {α : Type}

/-- The nodes of a graph and the connections of their ports. -/
structure View (α : Type) where
  node : NodeId → Option (Node α)
  /-- The data node that an input port of an operator reads. -/
  input : InputPort → Option NodeId
  /-- The data node that an output port of an operator makes. -/
  output : OutputPort → Option NodeId

namespace View

/-- Views are equal if they have the same nodes and say the same of every port. -/
theorem ext_of_iff {v w : View α} (hnode : v.node = w.node)
    (hinput : ∀ p d, v.input p = some d ↔ w.input p = some d)
    (houtput : ∀ p d, v.output p = some d ↔ w.output p = some d) : v = w := by
  obtain ⟨node, input, output⟩ := v
  obtain rfl : node = w.node := hnode
  obtain rfl : input = w.input := funext fun p => Option.ext (hinput p)
  obtain rfl : output = w.output := funext fun p => Option.ext (houtput p)
  rfl

def kind (v : View α) (id : NodeId) : Option Kind :=
  (v.node id).map Node.kind

def operator (v : View α) (id : NodeId) : Option Operator :=
  (v.node id).bind Node.operator?

def content (v : View α) (id : NodeId) : Option (Content α) :=
  (v.node id).bind Node.content?

section Payload

variable {v : View α} {id : NodeId} {o : Operator} {c : Content α}

/-- A node of a view is an operator if its payload is one. -/
theorem operator_eq_some_iff :
    v.operator id = some o ↔ ∃ n, v.node id = some n ∧ n.payload = .op o := by
  rw [operator, Option.bind_eq_some_iff]
  refine exists_congr fun n => and_congr_right fun _ => ?_
  obtain ⟨_, _, payload, _⟩ := n
  cases payload <;> simp [Node.operator?]

/-- A node of a view has content if its payload is data. -/
theorem content_eq_some_iff :
    v.content id = some c ↔ ∃ n, v.node id = some n ∧ n.payload = .data c := by
  rw [content, Option.bind_eq_some_iff]
  refine exists_congr fun n => and_congr_right fun _ => ?_
  obtain ⟨_, _, payload, _⟩ := n
  cases payload <;> simp [Node.content?]

/-- What has content is a data node. -/
theorem kind_of_content (hc : v.content id = some c) : v.kind id = some .data := by
  obtain ⟨n, hn, hpayload⟩ := content_eq_some_iff.mp hc
  rw [kind, hn, Option.map_some, Node.kind, hpayload]

/-- What has content is no operator. -/
theorem operator_of_content (hc : v.content id = some c) : v.operator id = none := by
  obtain ⟨n, hn, hpayload⟩ := content_eq_some_iff.mp hc
  rw [operator, hn, Option.bind_some, Node.operator?, hpayload]

end Payload

/-- A number for each node that grows along every connection. -/
def Ranked (v : View α) (rank : NodeId → Nat) : Prop :=
  (∀ p d, v.input p = some d → rank d < rank p.node) ∧
    ∀ p d, v.output p = some d → rank p.node < rank d

/-- The data node is read and has no value. -/
def Needed (v : View α) (data : NodeId) : Prop :=
  (∃ p, v.input p = some data) ∧ ∃ c, v.content data = some c ∧ c.value = none

/-- As data the node is not read, and as an operator none of its results is needed. -/
def Removable (v : View α) (id : NodeId) : Prop :=
  (v.kind id = some .data → ∀ p, v.input p ≠ some id) ∧
    (v.kind id = some .op → ∀ i d, v.output ⟨id, i⟩ = some d → ¬ v.Needed d)

/-- Without `op`, and without its reader `gone`, some result of `op` other than `kept` would still
be read but have no producer and no value. -/
def Strands (v : View α) (op kept gone : NodeId) : Prop :=
  ∃ i d q c, v.output ⟨op, i⟩ = some d ∧ d ≠ kept ∧ v.input q = some d ∧ q.node ≠ gone ∧
    v.content d = some c ∧ c.value = none

/-- The node has free ports only, and nothing reads or makes it. -/
structure Loose (v : View α) (id : NodeId) : Prop where
  input_free : ∀ i, v.input ⟨id, i⟩ = none
  output_free : ∀ i, v.output ⟨id, i⟩ = none
  unread : ∀ q, v.input q ≠ some id
  unmade : ∀ q, v.output q ≠ some id

/-! ## Changes of a view -/

@[simps] def setNode (v : View α) (id : NodeId) (n : Option (Node α)) : View α :=
  { v with node := update v.node id n }

/-- A node that is missing beside a new one was missing before. -/
theorem setNode_eq_none {v : View α} {a b : NodeId} {n : Node α}
    (h : (v.setNode a (some n)).node b = none) : b ≠ a ∧ v.node b = none := by
  rw [setNode_node, Function.update_apply] at h
  split at h
  · cases h
  · rename_i hne
    exact ⟨hne, h⟩

theorem Loose.setNode {v : View α} {a id : NodeId} {n : Option (Node α)} (h : v.Loose id) :
    (v.setNode a n).Loose id :=
  ⟨h.input_free, h.output_free, h.unread, h.unmade⟩

def setPayload (v : View α) (id : NodeId) (payload : Payload α) : View α :=
  v.setNode id ((v.node id).map fun n => { n with payload })

/-- Stores a value and its shape at a data node. -/
def store (v : View α) (data : NodeId) (value : Tensor α) : View α :=
  match v.content data with
  | some c => v.setPayload data (.data { c with value := some value, shape := some value.shape })
  | none => v

@[simps] def feed (v : View α) (data : NodeId) (port : InputPort) : View α :=
  { v with input := update v.input port (some data) }

@[simps] def produce (v : View α) (port : OutputPort) (data : NodeId) : View α :=
  { v with output := update v.output port (some data) }

@[simps] def unplug (v : View α) (port : InputPort) : View α :=
  { v with input := update v.input port none }

@[simps] def release (v : View α) (port : OutputPort) : View α :=
  { v with output := update v.output port none }

@[simps] def moveReaders (v : View α) (old new : NodeId) : View α :=
  { v with input := fun p => if v.input p = some old then some new else v.input p }

@[simps] def erase (v : View α) (id : NodeId) : View α where
  node := update v.node id none
  input := fun p => if p.node = id ∨ v.input p = some id then none else v.input p
  output := fun p => if p.node = id ∨ v.output p = some id then none else v.output p

section Changed

variable {v : View α} {id d old new : NodeId}

/-- After a move of readers, a port reads the new data if it read the old, and otherwise what it
read. -/
theorem moveReaders_input_iff {q : InputPort} :
    (v.moveReaders old new).input q = some d ↔
      (v.input q = some old ∧ d = new) ∨ (d ≠ old ∧ v.input q = some d) := by
  rw [moveReaders_input]
  split <;> grind

/-- A port is fed as before unless it or what feeds it is erased. -/
theorem erase_input_iff {q : InputPort} :
    (v.erase id).input q = some d ↔ q.node ≠ id ∧ d ≠ id ∧ v.input q = some d := by
  rw [erase_input]
  split <;> grind

/-- A port produces as before unless it or its result is erased. -/
theorem erase_output_iff {q : OutputPort} :
    (v.erase id).output q = some d ↔ q.node ≠ id ∧ d ≠ id ∧ v.output q = some d := by
  rw [erase_output]
  split <;> grind

theorem erase_kind_of_ne (hne : d ≠ id) : (v.erase id).kind d = v.kind d := by
  rw [kind, kind, erase_node, Function.update_of_ne hne]

theorem erase_content_of_ne (hne : d ≠ id) : (v.erase id).content d = v.content d := by
  rw [content, content, erase_node, Function.update_of_ne hne]

/-- Another operator in the place of one. -/
theorem setPayload_operator {o o' : Operator} (ho : v.operator id = some o) :
    (v.setPayload id (.op o')).operator = update v.operator id (some o') := by
  obtain ⟨n, hn, -⟩ := Option.bind_eq_some_iff.mp ho
  funext d
  by_cases hd : d = id
  · subst hd
    simp [operator, setPayload, hn, Node.operator?]
  · simp [operator, setPayload, hd]

/-- Replacing one operator by another leaves all content as it is. -/
theorem setPayload_content {o o' : Operator} (ho : v.operator id = some o) :
    (v.setPayload id (.op o')).content = v.content := by
  obtain ⟨n, hn, -⟩ := Option.bind_eq_some_iff.mp ho
  funext d
  by_cases hd : d = id
  · subst hd
    have hnone : v.content d = none := Option.eq_none_iff_forall_ne_some.mpr fun c hc =>
      absurd ((operator_of_content hc).symm.trans ho) nofun
    rw [hnone]
    simp [content, setPayload, hn, Node.content?]
  · simp [content, setPayload, hd]

/-- Storing a tensor connects nothing and takes nothing apart. -/
@[simp] theorem store_input {value : Tensor α} : (v.store id value).input = v.input := by
  rw [store]
  split <;> rfl

@[simp] theorem store_output {value : Tensor α} : (v.store id value).output = v.output := by
  rw [store]
  split <;> rfl

/-- A stored tensor is the value of the node, and its shape is the shape. -/
theorem store_content_self {value : Tensor α} {c : Content α} (hc : v.content id = some c) :
    (v.store id value).content id = some { c with value := some value, shape := some value.shape } := by
  obtain ⟨n, hn, -⟩ := Option.bind_eq_some_iff.mp hc
  rw [store, hc]
  simp [content, setPayload, hn, Node.content?]

/-- Storing a tensor leaves all other nodes as they are. -/
theorem store_node_of_ne {value : Tensor α} (hne : d ≠ id) :
    (v.store id value).node d = v.node d := by
  rw [store]
  split
  · exact Function.update_of_ne hne _ _
  · rfl

theorem store_content_of_ne {value : Tensor α} (hne : d ≠ id) :
    (v.store id value).content d = v.content d := by
  rw [content, content, store_node_of_ne hne]

/-- Storing a tensor leaves operators as they are. -/
@[simp] theorem store_operator {value : Tensor α} :
    (v.store id value).operator d = v.operator d := by
  rw [store]
  split
  · rename_i c hc
    by_cases hd : d = id
    · subst hd
      obtain ⟨n, hn, -⟩ := Option.bind_eq_some_iff.mp hc
      rw [operator_of_content hc]
      simp [operator, setPayload, hn, Node.operator?]
    · simp [operator, setPayload, hd]
  · rfl

/-- Storing a tensor leaves kinds as they are. -/
@[simp] theorem store_kind {value : Tensor α} : (v.store id value).kind d = v.kind d := by
  rw [store]
  split
  · rename_i c hc
    by_cases hd : d = id
    · subst hd
      obtain ⟨n, hn, -⟩ := Option.bind_eq_some_iff.mp hc
      rw [kind_of_content hc]
      simp [kind, setPayload, hn, Node.kind]
    · simp [kind, setPayload, hd]
  · rfl

theorem node_ne_none_of_kind {k : Kind} (h : v.kind id = some k) : v.node id ≠ none := by
  intro hnone
  rw [kind, hnone] at h
  cases h

theorem node_ne_none_of_operator {o : Operator} (h : v.operator id = some o) :
    v.node id ≠ none := by
  intro hnone
  rw [operator, hnone] at h
  cases h

/-- Data can be removed if it is not read. -/
theorem removable_data (hdata : v.kind id = some .data) (hunread : ∀ q, v.input q ≠ some id) :
    v.Removable id :=
  ⟨fun _ => hunread, fun hop => absurd (hdata.symm.trans hop) (by decide)⟩

/-- An operator can be removed if none of its results is needed. -/
theorem removable_op (hop : v.kind id = some .op) :
    v.Removable id ↔ ∀ i d, v.output ⟨id, i⟩ = some d → ¬ v.Needed d :=
  ⟨fun h => h.2 hop, fun h => ⟨fun hdata => absurd (hop.symm.trans hdata) (by decide), fun _ => h⟩⟩

end Changed

end View

namespace Graph

variable {g g' : Graph α}

/-! ## The view of a graph -/

/-- The ports of operators as the graph connects them. -/
def view (g : Graph α) : View α where
  node := g.node?
  input := fun p => if g.kind? p.node = some .op then g.feeding? p else none
  output := fun p => if g.kind? p.node = some .op then g.result? p else none

/-- The view of an input port of an operator is what feeds the port. -/
theorem view_input_of_op {p : InputPort} (hop : g.kind? p.node = some .op) :
    g.view.input p = g.feeding? p :=
  if_pos hop

/-- The view of an output port of an operator is its result. -/
theorem view_output_of_op {p : OutputPort} (hop : g.kind? p.node = some .op) :
    g.view.output p = g.result? p :=
  if_pos hop

/-- Asking for an operand succeeds if the port is fed. -/
theorem operand_eq_ok {p : InputPort} {d : NodeId} :
    g.operand p = .ok d ↔ g.feeding? p = some d := by
  rw [operand]
  split <;> simp_all

namespace WellFormed

variable (hg : g.WellFormed)
include hg

/-- In a view an input port is fed by the wire that ends there. -/
theorem view_input_iff {p : InputPort} {d : NodeId} :
    g.view.input p = some d ↔ g.kind? p.node = some .op ∧ g.Wired ⟨d, 0, p.node, p.index⟩ := by
  simp only [view]
  split
  · rename_i hop
    rw [hg.feeding?_op_iff hop]
    exact ⟨fun h => ⟨hop, h⟩, And.right⟩
  · rename_i hop
    constructor
    · intro h
      cases h
    · intro h
      exact absurd h.1 hop

/-- In a view an output port produces by the wire that starts there. -/
theorem view_output_iff {p : OutputPort} {d : NodeId} :
    g.view.output p = some d ↔ g.kind? p.node = some .op ∧ g.Wired ⟨p.node, p.index, d, 0⟩ := by
  simp only [view]
  split
  · rename_i hop
    rw [hg.result?_eq_some_iff hop]
    exact ⟨fun h => ⟨hop, h⟩, And.right⟩
  · rename_i hop
    constructor
    · intro h
      cases h
    · intro h
      exact absurd h.1 hop

/-- Operators are fed with data. -/
theorem view_input_kinds {p : InputPort} {d : NodeId} (h : g.view.input p = some d) :
    g.kind? p.node = some .op ∧ g.kind? d = some .data := by
  obtain ⟨hop, hw⟩ := hg.view_input_iff.mp h
  exact ⟨hop, (hg.wired_to_op hw hop).1⟩

/-- Operators produce data. -/
theorem view_output_kinds {p : OutputPort} {d : NodeId} (h : g.view.output p = some d) :
    g.kind? p.node = some .op ∧ g.kind? d = some .data := by
  obtain ⟨hop, hw⟩ := hg.view_output_iff.mp h
  exact ⟨hop, (hg.wired_of_op hw hop).1⟩

/-- Both ends of a connection into a port are live. -/
theorem live_of_input {p : InputPort} {d : NodeId} (h : g.view.input p = some d) :
    g.view.node p.node ≠ none ∧ g.view.node d ≠ none :=
  ⟨View.node_ne_none_of_kind (v := g.view) (hg.view_input_kinds h).1,
    View.node_ne_none_of_kind (v := g.view) (hg.view_input_kinds h).2⟩

/-- Both ends of a connection out of a port are live. -/
theorem live_of_output {p : OutputPort} {d : NodeId} (h : g.view.output p = some d) :
    g.view.node p.node ≠ none ∧ g.view.node d ≠ none :=
  ⟨View.node_ne_none_of_kind (v := g.view) (hg.view_output_kinds h).1,
    View.node_ne_none_of_kind (v := g.view) (hg.view_output_kinds h).2⟩

/-- A data node is made at one port at most. -/
theorem view_output_inj {p q : OutputPort} {d : NodeId} (hp : g.view.output p = some d)
    (hq : g.view.output q = some d) : p = q := by
  obtain ⟨_, hw⟩ := hg.view_output_iff.mp hp
  obtain ⟨_, hv⟩ := hg.view_output_iff.mp hq
  have hsame := hg.eq_of_producer hw hv (hg.view_output_kinds hp).2 rfl
  exact congrArg (fun w : Wire => (⟨w.src, w.srcPort⟩ : OutputPort)) hsame

/-- Every wire is a connection of the view, into a port or out of one. -/
theorem wired_iff {w : Wire} :
    g.Wired w ↔ (w.srcPort = 0 ∧ g.view.input w.target = some w.src) ∨
      (w.dstPort = 0 ∧ g.view.output ⟨w.src, w.srcPort⟩ = some w.dst) := by
  rw [hg.view_input_iff, hg.view_output_iff]
  obtain ⟨src, i, dst, j⟩ := w
  constructor
  · intro hw
    rcases hg.wired_alternates hw with ⟨hsrc, _, hj⟩ | ⟨_, hdst, hi⟩
    · obtain rfl : j = 0 := hj
      exact Or.inr ⟨rfl, hsrc, hw⟩
    · obtain rfl : i = 0 := hi
      exact Or.inl ⟨rfl, hdst, hw⟩
  · rintro (⟨hi, _, hw⟩ | ⟨hj, _, hw⟩)
    · obtain rfl : i = 0 := hi
      exact hw
    · obtain rfl : j = 0 := hj
      exact hw

/-- Numbers that grow along the connections of the view grow along the wires. -/
theorem ranked_view {rank : NodeId → Nat} : g.view.Ranked rank ↔ g.Ranked rank := by
  constructor
  · rintro ⟨hinput, houtput⟩ w hw
    rcases hg.wired_iff.mp hw with ⟨_, h⟩ | ⟨_, h⟩
    · exact hinput _ _ h
    · exact houtput _ _ h
  · intro h
    constructor
    · intro p d hp
      exact h _ (hg.view_input_iff.mp hp).2
    · intro p d hp
      exact h _ (hg.view_output_iff.mp hp).2

/-- Whether data is needed can be read off the view. -/
theorem needed_view {data : NodeId} : g.view.Needed data ↔ g.Needed data := by
  refine and_congr_left fun ⟨c, hc, _⟩ => ?_
  have hdata : g.kind? data = some .data := kind?_eq_data.mpr ⟨c, hc⟩
  constructor
  · rintro ⟨p, hp⟩
    exact ⟨_, (hg.view_input_iff.mp hp).2, rfl⟩
  · rintro ⟨w, hw, rfl⟩
    rcases hg.wired_iff.mp hw with ⟨_, h⟩ | ⟨_, h⟩
    · exact ⟨_, h⟩
    · have hop := (hg.view_output_kinds h).1
      exact absurd (hop.symm.trans hdata) (by decide)

/-- Whether a node can be removed can be read off the view. -/
theorem removable_view {id : NodeId} : g.view.Removable id ↔ g.Removable id := by
  refine and_congr (forall_congr' fun hdata => ?_) (forall_congr' fun hop => ?_)
  · constructor
    · rintro h w hw rfl
      rcases hg.wired_iff.mp hw with ⟨_, h'⟩ | ⟨_, h'⟩
      · exact h _ h'
      · exact absurd ((hg.view_output_kinds h').1.symm.trans hdata) (by decide)
    · intro h p hp
      exact h _ (hg.view_input_iff.mp hp).2 rfl
  · constructor
    · rintro h w hw rfl
      rcases hg.wired_iff.mp hw with ⟨_, h'⟩ | ⟨_, h'⟩
      · exact absurd ((hg.view_input_kinds h').2.symm.trans hop) (by decide)
      · rw [← hg.needed_view]
        exact h _ _ h'
    · intro h i d hd
      rw [hg.needed_view]
      exact h _ (hg.view_output_iff.mp hd).2 rfl

/-- The readers of data are the ports that it feeds. -/
theorem mem_readers_iff {data : NodeId} (hdata : g.kind? data = some .data) {p : InputPort} :
    p ∈ g.readers data ↔ g.view.input p = some data := by
  rw [hg.mem_readers, hg.view_input_iff]
  constructor
  · rintro ⟨i, hw⟩
    obtain ⟨hop, hi⟩ := hg.wired_of_data hw hdata
    obtain rfl : i = 0 := hi
    exact ⟨hop, hw⟩
  · rintro ⟨_, hw⟩
    exact ⟨0, hw⟩

/-- The producer of data is the port that it is the result of. -/
theorem producer?_eq_some_iff {data : NodeId} (hdata : g.kind? data = some .data)
    {p : OutputPort} : g.producer? data = some p ↔ g.view.output p = some data := by
  rw [producer?, Option.map_eq_some_iff]
  constructor
  · rintro ⟨e, he, rfl⟩
    obtain ⟨hmem, rfl⟩ := hg.producingEdge?_spec he
    obtain ⟨hop, hport⟩ := hg.wired_to_data ⟨e, hmem, rfl⟩ hdata
    refine hg.view_output_iff.mpr ⟨hop, e, hmem, ?_⟩
    rw [← hport]
  · intro hp
    obtain ⟨-, hw⟩ := hg.view_output_iff.mp hp
    cases he : g.producingEdge? data with
    | none => exact absurd rfl (hg.producingEdge?_eq_none_iff.mp he _ hw)
    | some e =>
      obtain ⟨hmem, hdst⟩ := hg.producingEdge?_spec he
      have hsame := hg.eq_of_producer ⟨e, hmem, rfl⟩ hw (hdst ▸ hdata) hdst
      exact ⟨e, rfl, congrArg (fun w : Wire => (⟨w.src, w.srcPort⟩ : OutputPort)) hsame⟩

/-- The only port that reads a data node with one reader. -/
theorem view_input_unique {data : NodeId} (hdata : g.kind? data = some .data)
    (hone : (g.readers data).length = 1) {p q : InputPort} (hp : g.view.input p = some data)
    (hq : g.view.input q = some data) : p = q := by
  rw [← hg.mem_readers_iff hdata] at hp hq
  exact eq_of_single_reader hone hp hq

/-- An edge to data, by the port of its operator. -/
theorem view_output_of_edge {w : Edge} (hw : w ∈ g.edges) (hdst : g.kind? w.dst = some .data)
    {k : Nat} (hport : (g.kind? w.src = some .op ∧ w.srcPort = k) ∨
      (g.kind? w.dst = some .op ∧ w.dstPort = k)) : g.view.output ⟨w.src, k⟩ = some w.dst := by
  rcases hport with ⟨hsrc, rfl⟩ | ⟨hop, _⟩
  · refine hg.view_output_iff.mpr ⟨hsrc, w, hw, ?_⟩
    rw [← (hg.wired_of_op ⟨w, hw, rfl⟩ hsrc).2]
  · exact absurd (hop.symm.trans hdst) (by decide)

/-- An edge from data, by the port of its operator. -/
theorem view_input_of_edge {w : Edge} (hw : w ∈ g.edges) (hsrc : g.kind? w.src = some .data)
    {k : Nat} (hport : (g.kind? w.src = some .op ∧ w.srcPort = k) ∨
      (g.kind? w.dst = some .op ∧ w.dstPort = k)) : g.view.input ⟨w.dst, k⟩ = some w.src := by
  rcases hport with ⟨hop, _⟩ | ⟨hdst, rfl⟩
  · exact absurd (hop.symm.trans hsrc) (by decide)
  · refine hg.view_input_iff.mpr ⟨hdst, w, hw, ?_⟩
    rw [← (hg.wired_to_op ⟨w, hw, rfl⟩ hdst).2]

/-! ## Changes of the graph, seen as changes of its view -/

/-- In the view, a new node is one more node. -/
theorem view_insertNode (name : String) (payload : Payload α) :
    (g.insertNode name payload).view =
      g.view.setNode g.nextNode (some ⟨g.nextNode, name, payload, {}⟩) := by
  have hg' := hg.insertNode name payload
  have hkind : (g.insertNode name payload).kind? = _ := kind?_insertNode hg.node?_nextNode
  have hop : ∀ id, g.node? id ≠ none →
      (g.insertNode name payload).kind? id = g.kind? id := fun id hlive => by
    rw [hkind, Function.update_of_ne (hg.ne_nextNode hlive)]
  refine View.ext_of_iff (node?_insertNode hg.node?_nextNode) (fun p d => ?_) fun p d => ?_
  · show _ ↔ g.view.input p = some d
    rw [hg'.view_input_iff, hg.view_input_iff]
    refine and_congr_left fun hw => ?_
    rw [hop _ (hg.wired_live hw).2]
  · show _ ↔ g.view.output p = some d
    rw [hg'.view_output_iff, hg.view_output_iff]
    refine and_congr_left fun hw => ?_
    rw [hop _ (hg.wired_live hw).1]

/-- In the view, another payload is another payload. -/
theorem view_setPayload {id : NodeId} {payload : Payload α}
    (hkind : (g.setPayload id payload).kind? = g.kind?) :
    (g.setPayload id payload).view = g.view.setPayload id payload := by
  have hg' := hg.setPayload hkind
  refine View.ext_of_iff (node?_setPayload g id payload) (fun p d => ?_) fun p d => ?_
  · show _ ↔ g.view.input p = some d
    rw [hg'.view_input_iff, hg.view_input_iff, hkind]
    exact Iff.rfl
  · show _ ↔ g.view.output p = some d
    rw [hg'.view_output_iff, hg.view_output_iff, hkind]
    exact Iff.rfl

/-- A new wire from data to an operator. -/
theorem view_insertEdge_feed {data : NodeId} {port : InputPort}
    (hw : g.Admits ⟨data, 0, port.node, port.index⟩) (hport : g.kind? port.node = some .op) :
    (g.insertEdge ⟨data, 0, port.node, port.index⟩).view = g.view.feed data port := by
  have hg' := hg.insertEdge hw
  refine View.ext_of_iff rfl (fun p d => ?_) fun p d => ?_
  · rw [hg'.view_input_iff, wired_insertEdge]
    show _ ↔ update g.view.input port (some data) p = some d
    by_cases hp : p = port
    · subst hp
      rw [Function.update_self, Option.some.injEq, Wire.mk.injEq]
      constructor
      · rintro ⟨_, hold | ⟨hd, _⟩⟩
        · exact absurd ⟨rfl, rfl⟩ (hw.input_free _ hold)
        · exact hd.symm
      · rintro rfl
        exact ⟨hport, Or.inr ⟨rfl, rfl, rfl, rfl⟩⟩
    · rw [Function.update_of_ne hp, hg.view_input_iff]
      refine and_congr Iff.rfl (or_iff_left fun hsame => hp ?_)
      exact congrArg Wire.target hsame
  · show _ ↔ g.view.output p = some d
    rw [hg'.view_output_iff, hg.view_output_iff, wired_insertEdge]
    refine and_congr_right fun hop => or_iff_left fun hsame => ?_
    have hdata : g.kind? data = some .data := by
      rcases hw.alternates with ⟨_, hdst, _⟩ | ⟨hsrc, _⟩
      · exact absurd (hport.symm.trans hdst) (by decide)
      · exact hsrc
    have hsrc : p.node = data := congrArg Wire.src hsame
    rw [← hsrc] at hdata
    exact absurd (hop.symm.trans hdata) (by decide)

/-- A new wire from an operator to data. -/
theorem view_insertEdge_produce {data : NodeId} {port : OutputPort}
    (hw : g.Admits ⟨port.node, port.index, data, 0⟩) (hport : g.kind? port.node = some .op) :
    (g.insertEdge ⟨port.node, port.index, data, 0⟩).view = g.view.produce port data := by
  have hg' := hg.insertEdge hw
  refine View.ext_of_iff rfl (fun p d => ?_) fun p d => ?_
  · show _ ↔ g.view.input p = some d
    rw [hg'.view_input_iff, hg.view_input_iff, wired_insertEdge]
    refine and_congr_right fun hop => or_iff_left fun hsame => ?_
    have hdata : g.kind? data = some .data := by
      rcases hw.alternates with ⟨_, hdst, _⟩ | ⟨hsrc, _⟩
      · exact hdst
      · exact absurd (hport.symm.trans hsrc) (by decide)
    have hdst : p.node = data := congrArg Wire.dst hsame
    rw [← hdst] at hdata
    exact absurd (hop.symm.trans hdata) (by decide)
  · rw [hg'.view_output_iff, wired_insertEdge]
    show _ ↔ update g.view.output port (some data) p = some d
    by_cases hp : p = port
    · subst hp
      rw [Function.update_self, Option.some.injEq, Wire.mk.injEq]
      constructor
      · rintro ⟨_, hold | ⟨_, _, hd, _⟩⟩
        · exact absurd ⟨rfl, rfl⟩ (hw.output_free hport _ hold)
        · exact hd.symm
      · rintro rfl
        exact ⟨hport, Or.inr ⟨rfl, rfl, rfl, rfl⟩⟩
    · rw [Function.update_of_ne hp, hg.view_output_iff]
      refine and_congr Iff.rfl (or_iff_left fun hsame => hp ?_)
      exact congrArg (fun w : Wire => (⟨w.src, w.srcPort⟩ : OutputPort)) hsame

/-- The wire into a port of an operator goes. -/
theorem view_eraseEdge {port : InputPort} {e : Edge} (he : g.edgeInto? port = some e)
    (hport : g.kind? port.node = some .op) : (g.eraseEdge e.id).view = g.view.unplug port := by
  have hg' := hg.eraseEdge e.id
  obtain ⟨hmem, hdst, hindex⟩ := hg.edgeInto?_spec he
  refine View.ext_of_iff (node?_eraseEdge g e.id) (fun p d => ?_) fun p d => ?_
  · rw [hg'.view_input_iff, hg.wired_eraseEdge hmem, kind?_eraseEdge]
    show _ ↔ update g.view.input port none p = some d
    by_cases hp : p = port
    · subst hp
      rw [Function.update_self]
      constructor
      · rintro ⟨_, hw, hne⟩
        exact absurd (hg.eq_of_input hw ⟨e, hmem, rfl⟩ hdst.symm hindex.symm) hne
      · intro h
        cases h
    · rw [Function.update_of_ne hp, hg.view_input_iff]
      refine and_congr Iff.rfl (and_iff_left fun hsame => hp ?_)
      have htarget : e.toWire.target = port := by
        rw [Wire.target, hdst, hindex]
      exact (congrArg Wire.target hsame).trans htarget
  · show _ ↔ g.view.output p = some d
    rw [hg'.view_output_iff, hg.view_output_iff, hg.wired_eraseEdge hmem, kind?_eraseEdge]
    refine and_congr_right fun hop => and_iff_left fun hsame => ?_
    have hdata := (hg.wired_to_op ⟨e, hmem, rfl⟩ (hdst ▸ hport)).1
    have hsrc : p.node = e.src := congrArg Wire.src hsame
    rw [← hsrc] at hdata
    exact absurd (hop.symm.trans hdata) (by decide)

/-- The wire out of a port of an operator goes. -/
theorem view_eraseEdge_output {port : OutputPort} {e : Edge} (he : g.edgeOutOf? port = some e)
    (hport : g.kind? port.node = some .op) : (g.eraseEdge e.id).view = g.view.release port := by
  have hg' := hg.eraseEdge e.id
  obtain ⟨hmem, hsrc, hindex⟩ := hg.edgeOutOf?_spec he
  have hsource : g.kind? e.src = some .op := hsrc ▸ hport
  refine View.ext_of_iff (node?_eraseEdge g e.id) (fun p d => ?_) fun p d => ?_
  · show _ ↔ g.view.input p = some d
    rw [hg'.view_input_iff, hg.view_input_iff, hg.wired_eraseEdge hmem, kind?_eraseEdge]
    refine and_congr_right fun hop => and_iff_left fun hsame => ?_
    have hdata := (hg.wired_of_op ⟨e, hmem, rfl⟩ hsource).1
    exact op_ne_data hop hdata (congrArg Wire.dst hsame)
  · rw [hg'.view_output_iff, hg.wired_eraseEdge hmem, kind?_eraseEdge]
    show _ ↔ update g.view.output port none p = some d
    by_cases hp : p = port
    · subst hp
      rw [Function.update_self]
      constructor
      · rintro ⟨hop, hw, hne⟩
        exact absurd (hg.eq_of_output hw ⟨e, hmem, rfl⟩ hop hsrc.symm hindex.symm) hne
      · intro h
        cases h
    · rw [Function.update_of_ne hp, hg.view_output_iff]
      refine and_congr Iff.rfl (and_iff_left fun hsame => hp ?_)
      have hstart : (⟨e.src, e.srcPort⟩ : OutputPort) = port := by rw [hsrc, hindex]
      exact (congrArg (fun w : Wire => (⟨w.src, w.srcPort⟩ : OutputPort)) hsame).trans hstart

/-- In the view, erasing a node erases its connections with it. -/
theorem view_eraseNode (id : NodeId) : (g.eraseNode id).view = g.view.erase id := by
  have hg' := hg.eraseNode id
  refine View.ext_of_iff (node?_eraseNode g id) (fun p d => ?_) fun p d => ?_
  · rw [hg'.view_input_iff, hg.wired_eraseNode, kind?_eraseNode]
    simp only [View.erase]
    by_cases hp : p.node = id
    · simp [hp]
    · rw [Function.update_of_ne hp]
      split
      · rename_i hid
        have hsrc := hid.resolve_left hp
        rw [hg.view_input_iff] at hsrc
        refine iff_of_false ?_ (by simp)
        rintro ⟨_, hw, hd, _⟩
        exact hd (congrArg Wire.src (hg.eq_of_input hw hsrc.2 rfl rfl))
      · rename_i hid
        rw [hg.view_input_iff]
        refine and_congr_right fun hop => and_iff_left_of_imp fun hw => ⟨?_, hp⟩
        rintro rfl
        exact hid (Or.inr (hg.view_input_iff.mpr ⟨hop, hw⟩))
  · rw [hg'.view_output_iff, hg.wired_eraseNode, kind?_eraseNode]
    simp only [View.erase]
    by_cases hp : p.node = id
    · simp [hp]
    · rw [Function.update_of_ne hp]
      split
      · rename_i hid
        have hdst := hid.resolve_left hp
        rw [hg.view_output_iff] at hdst
        refine iff_of_false ?_ (by simp)
        rintro ⟨hop, hw, _, hd⟩
        exact hd (congrArg Wire.dst (hg.eq_of_output hw hdst.2 hop rfl rfl))
      · rename_i hid
        rw [hg.view_output_iff]
        refine and_congr_right fun hop => and_iff_left_of_imp fun hw => ⟨hp, ?_⟩
        rintro rfl
        exact hid (Or.inr (hg.view_output_iff.mpr ⟨hop, hw⟩))

/-- Readers of one data node move to another that none of them reaches. -/
theorem view_refeedAll {old new : NodeId} (hold : g.kind? old = some .data)
    (hnew : g.kind? new = some .data)
    (hclear : ∀ p ∈ g.readers old, ¬ ReflTransGen g.Joins p.node new) :
    (g.refeedAll new (g.readers old)).WellFormed ∧
      (g.refeedAll new (g.readers old)).view = g.view.moveReaders old new := by
  have hops := hg.readers_op hold
  obtain ⟨hg', hwired⟩ := WellFormed.refeedAll _ hg hnew hops hclear
  have hnode := node?_refeedAll g new (g.readers old)
  have hkind := kind?_of_node? hnode
  refine ⟨hg', View.ext_of_iff hnode (fun p d => ?_) fun p d => ?_⟩
  · rw [hg'.view_input_iff, hwired, hkind]
    simp only [View.moveReaders, Wire.target, hg.mem_readers_iff hold]
    split
    · rename_i hp
      have hop := (hg.view_input_kinds hp).1
      simp [hp, hop, eq_comm]
    · rename_i hp
      rw [hg.view_input_iff (d := d)]
      simp [hp]
  · show _ ↔ g.view.output p = some d
    rw [hg'.view_output_iff, hg.view_output_iff, hwired, hkind]
    refine and_congr_right fun hop => ?_
    have hsrc : p.node ≠ new := by
      rintro rfl
      exact absurd (hop.symm.trans hnew) (by decide)
    have htarget : g.Wired ⟨p.node, p.index, d, 0⟩ → (⟨d, 0⟩ : InputPort) ∉ g.readers old := by
      intro hw hread
      exact absurd ((hops _ hread).symm.trans (hg.wired_of_op hw hop).1) (by decide)
    simp only [hsrc, false_and, or_false]
    exact and_iff_left_of_imp htarget

end WellFormed

/-! ## Steps -/

/-- The graph is well-formed and shows the view, in which the ranking grows along connections. -/
structure Presents (g : Graph α) (v : View α) (rank : NodeId → Nat) : Prop where
  wellFormed : g.WellFormed
  view_eq : g.view = v
  ranked : v.Ranked rank

/-- A well-formed graph presents its own view. -/
theorem WellFormed.presents (hg : g.WellFormed) {rank : NodeId → Nat} (hrank : g.Ranked rank) :
    g.Presents g.view rank :=
  ⟨hg, rfl, hg.ranked_view.mpr hrank⟩

namespace Presents

variable {v : View α} {rank : NodeId → Nat} (hg : g.Presents v rank)
include hg

/-- The graph has the kinds, the content and the operators of the view that it presents. -/
theorem kind_eq : g.kind? = v.kind := by
  rw [← hg.view_eq]
  rfl

theorem content_eq : g.content? = v.content := by
  rw [← hg.view_eq]
  rfl

theorem operator_eq : g.operator? = v.operator := by
  rw [← hg.view_eq]
  rfl

theorem node_eq : g.node? = v.node := by
  rw [← hg.view_eq]
  rfl

/-- In the view of a graph operators are fed with data. -/
theorem input_kinds {p : InputPort} {d : NodeId} (h : v.input p = some d) :
    v.kind p.node = some .op ∧ v.kind d = some .data := by
  rw [← hg.kind_eq]
  rw [← hg.view_eq] at h
  exact hg.wellFormed.view_input_kinds h

/-- In the view of a graph operators produce data. -/
theorem output_kinds {p : OutputPort} {d : NodeId} (h : v.output p = some d) :
    v.kind p.node = some .op ∧ v.kind d = some .data := by
  rw [← hg.kind_eq]
  rw [← hg.view_eq] at h
  exact hg.wellFormed.view_output_kinds h

/-- No path leads downwards. -/
theorem no_path {a b : NodeId} (hlt : rank b < rank a) : ¬ ReflTransGen g.Joins a b := by
  have hranked : g.Ranked rank := by
    rw [← hg.wellFormed.ranked_view, hg.view_eq]
    exact hg.ranked
  exact fun hpath => Nat.not_lt.mpr (hranked.le_of_path hpath) hlt

/-- A wire into a free port that goes up in rank is admitted. -/
theorem admits_feed {data : NodeId} {port : InputPort} (hdata : v.kind data = some .data)
    (hport : v.kind port.node = some .op) (hfree : v.input port = none)
    (hrank : rank data < rank port.node) : g.Admits ⟨data, 0, port.node, port.index⟩ := by
  rw [← hg.kind_eq] at hdata hport
  refine ⟨Or.inr ⟨hdata, hport, rfl⟩, fun w hw h => ?_, fun hop => ?_, hg.no_path hrank⟩
  · obtain ⟨src, i, dst, j⟩ := w
    obtain ⟨rfl, rfl⟩ : dst = port.node ∧ j = port.index := h
    obtain rfl : i = 0 := (hg.wellFormed.wired_to_op hw hport).2
    have hread := hg.wellFormed.view_input_iff.mpr ⟨hport, hw⟩
    rw [hg.view_eq] at hread
    exact absurd (hread.symm.trans hfree) (by simp)
  · exact absurd (hop.symm.trans hdata) (by decide)

/-- A wire out of a free port to data without a producer, which goes up in rank, is admitted. -/
theorem admits_produce {data : NodeId} {port : OutputPort} (hdata : v.kind data = some .data)
    (hport : v.kind port.node = some .op) (hfree : v.output port = none)
    (hnew : ∀ p, v.output p ≠ some data) (hrank : rank port.node < rank data) :
    g.Admits ⟨port.node, port.index, data, 0⟩ := by
  rw [← hg.kind_eq] at hdata hport
  refine ⟨Or.inl ⟨hport, hdata, rfl⟩, fun w hw h => ?_, fun _ w hw h => ?_, hg.no_path hrank⟩
  · obtain ⟨src, i, dst, j⟩ := w
    obtain ⟨rfl, rfl⟩ : dst = data ∧ j = 0 := h
    have hop := (hg.wellFormed.wired_to_data hw hdata).1
    have hmade := hg.wellFormed.view_output_iff (p := ⟨src, i⟩).mpr ⟨hop, hw⟩
    rw [hg.view_eq] at hmade
    exact hnew _ hmade
  · obtain ⟨src, i, dst, j⟩ := w
    obtain ⟨rfl, rfl⟩ : src = port.node ∧ i = port.index := h
    obtain rfl : j = 0 := (hg.wellFormed.wired_of_op hw hport).2
    have hmade := hg.wellFormed.view_output_iff.mpr ⟨hport, hw⟩
    rw [hg.view_eq] at hmade
    exact absurd (hmade.symm.trans hfree) (by simp)

end Presents

end Graph

end TensorGraph
