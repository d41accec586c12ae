/-
  A chain of permutes collapses.

  The graph is a line: a producer, permutes one behind the other, and an output (`IsChain`).  Which
  two neighbours are fused next is up to the search, and where they cancel, those around them become
  neighbours.  Whatever is fused, what is left is a chain again, with the links that `shorten`
  keeps, and the axes that the chain leads to each position are the same (`IsChain.shorten`,
  `axisThrough_shorten`).

  Every offer is accepted and removes a permute, so there are fewer offers than links, no offered
  match is ever found again, and the round ends when no two permutes are neighbours.

    1. `Threads`: the links of a chain read what the one before makes.
    2. `Shortened`: what one fusion does to the graph, whether the two cancel or not
       (`shortened_cancelled`, `shortened_fused`).
    3. `IsChain.shorten`: the rest is a chain.  The two outcomes are one statement here.
    4. `Collapsing`: the invariant of the round, and `Collapsed`, what it comes to.

  `run_collapses_chain` is about the whole run of the rule, and `rowCommands` makes a chain whose
  outer permutes become neighbours when the inner ones cancel.
-/
import TensorGraph.Proofs.Graph.Maps
import TensorGraph.Proofs.Rule.Meaning
import TensorGraph.Proofs.Rule.Rounds

namespace TensorGraph

open Edit TensorGraph.Graph

variable {α : Type}

/-! ## Axes -/

namespace Permutation

/-- The axis that comes to position `i` when a list is permuted by each of these in turn, which is
`order₁[order₂[…orderₖ[i]]]`. -/
def axisThrough : List Permutation → Nat → Option Nat
  | [], i => some i
  | p :: ps, i => (axisThrough ps i).bind (p.order[·]?)

/-- Following permutations leads from an axis to an axis. -/
theorem axisThrough_lt {n : Nat} {ps : List Permutation} (hsizes : ∀ p ∈ ps, p.size = n) {i j : Nat}
    (hi : i < n) (h : axisThrough ps i = some j) : j < n := by
  cases ps with
  | nil =>
    cases h
    exact hi
  | cons p ps =>
    obtain ⟨k, -, hk⟩ := Option.bind_eq_some_iff.mp h
    rw [← hsizes p List.mem_cons_self]
    exact mem_order_lt (List.mem_of_getElem? hk)

end Permutation

/-! ## Operators and connections -/

/-- An operation stands in an operator with some inference. -/
theorem Operator.exists_inference_iff {o : Option Operator} {operation : Operation} :
    (∃ inference, o = some ⟨operation, inference⟩) ↔ o.map (·.operation) = some operation := by
  constructor
  · rintro ⟨inference, rfl⟩
    rfl
  · intro h
    obtain ⟨⟨_, inference⟩, rfl, rfl⟩ := Option.map_eq_some_iff.mp h
    exact ⟨inference, rfl⟩

namespace Graph

variable {g : Graph α}

/-- Only operators have ports that are connected. -/
theorem forall_input_iff {P : InputPort → Prop} :
    (∀ q, g.view.input q ≠ none → P q) ↔
      ∀ op ∈ g.ids, ∀ e ∈ g.inEdges op, g.kind? op = some .op → P ⟨op, e.dstPort⟩ := by
  constructor
  · intro h op _ e he hop
    refine h ⟨op, e.dstPort⟩ ?_
    rw [view_input_of_op (p := ⟨op, e.dstPort⟩) hop]
    exact feeding?_ne_none_of_mem he
  · rintro h ⟨op, i⟩ hq
    obtain ⟨d, hd⟩ := Option.ne_none_iff_exists'.mp hq
    obtain ⟨hop, hfeeds⟩ := Option.ite_none_right_eq_some.mp hd
    obtain ⟨n, hn, -⟩ := Option.map_eq_some_iff.mp hop
    obtain ⟨e, he, -⟩ := Option.map_eq_some_iff.mp hfeeds
    obtain ⟨hmem, rfl⟩ := mem_of_edgeInto? he
    exact h op (mem_ids_of_node? hn) e hmem hop

/-- Only operators have ports with a result. -/
theorem forall_output_iff {P : OutputPort → Prop} :
    (∀ q, g.view.output q ≠ none → P q) ↔
      ∀ op ∈ g.ids, ∀ e ∈ g.outEdges op, g.kind? op = some .op → P ⟨op, e.srcPort⟩ := by
  constructor
  · intro h op _ e he hop
    refine h ⟨op, e.srcPort⟩ ?_
    rw [view_output_of_op (p := ⟨op, e.srcPort⟩) hop]
    exact result?_ne_none_of_mem he
  · rintro h ⟨op, i⟩ hq
    obtain ⟨d, hd⟩ := Option.ne_none_iff_exists'.mp hq
    obtain ⟨hop, hmakes⟩ := Option.ite_none_right_eq_some.mp hd
    obtain ⟨n, hn, -⟩ := Option.map_eq_some_iff.mp hop
    obtain ⟨e, he, -⟩ := Option.map_eq_some_iff.mp hmakes
    obtain ⟨hmem, rfl⟩ := mem_of_edgeOutOf? he
    exact h op (mem_ids_of_node? hn) e hmem hop

end Graph

namespace PermuteRule

/-! ## Chains -/

/-- A permute of a chain and its result. -/
structure Link where
  op : NodeId
  perm : Permutation
  data : NodeId

/-- The links lead from some data to some other: each is a permute that reads the data in front of
it and makes its own. -/
def Threads (v : View α) : NodeId → List Link → NodeId → Prop
  | d, [], last => d = last
  | d, l :: links, last => v.input ⟨l.op, 0⟩ = some d ∧
      (∃ inference, v.operator l.op = some ⟨.permute l.perm.order, inference⟩) ∧
      v.output ⟨l.op, 0⟩ = some l.data ∧ Threads v l.data links last

/-- The graph consists of a producer of `x`, of the links, which have orders of `n` axes, and of an
output that reads the last result; there are no other nodes and no other connections. -/
structure IsChain (v : View α) (n : Nat) (source : OutputPort) (x : NodeId) (links : List Link)
    (sink : InputPort) : Prop where
  producer : ∃ o, v.operator source.node = some o ∧ o.operation.type ≠ .permute
  output : ∃ inference, v.operator sink.node = some ⟨.output, inference⟩
  makes : v.output source = some x
  threads : ∃ last, Threads v x links last ∧ v.input sink = some last
  sizes : ∀ l ∈ links, l.perm.size = n
  distinct : (x :: links.map (·.data)).Nodup
  nodes : ∀ id, v.node id ≠ none →
    id = source.node ∨ id = x ∨ id = sink.node ∨ ∃ l ∈ links, id = l.op ∨ id = l.data
  inputs : ∀ q, v.input q ≠ none → q = sink ∨ ∃ l ∈ links, q = ⟨l.op, 0⟩
  outputs : ∀ q, v.output q ≠ none → q = source ∨ ∃ l ∈ links, q = ⟨l.op, 0⟩

instance decidableThreads (v : View α) : ∀ d links last, Decidable (Threads v d links last)
  | d, [], last => inferInstanceAs (Decidable (d = last))
  | d, l :: links, last =>
    have := decidableThreads v l.data links last
    decidable_of_iff (v.input ⟨l.op, 0⟩ = some d ∧
      (v.operator l.op).map (·.operation) = some (.permute l.perm.order) ∧
      v.output ⟨l.op, 0⟩ = some l.data ∧ Threads v l.data links last) <| by
      rw [Threads, Operator.exists_inference_iff]

/-- Nodes and connections are finitely many. -/
instance (g : Graph α) (n : Nat) (source : OutputPort) (x : NodeId) (links : List Link)
    (sink : InputPort) : Decidable (IsChain g.view n source x links sink) :=
  decidable_of_iff ((∃ o ∈ g.view.operator source.node, o.operation.type ≠ .permute) ∧
    (g.view.operator sink.node).map (·.operation) = some .output ∧ g.view.output source = some x ∧
    (∃ last ∈ g.view.input sink, Threads g.view x links last) ∧ (∀ l ∈ links, l.perm.size = n) ∧
    (x :: links.map (·.data)).Nodup ∧
    (∀ id ∈ g.ids, id = source.node ∨ id = x ∨ id = sink.node ∨ ∃ l ∈ links, id = l.op ∨ id = l.data) ∧
    (∀ op ∈ g.ids, ∀ e ∈ g.inEdges op, g.kind? op = some .op → InputPort.mk op e.dstPort = sink ∨
      ∃ l ∈ links, InputPort.mk op e.dstPort = ⟨l.op, 0⟩) ∧
    ∀ op ∈ g.ids, ∀ e ∈ g.outEdges op, g.kind? op = some .op → OutputPort.mk op e.srcPort = source ∨
      ∃ l ∈ links, OutputPort.mk op e.srcPort = ⟨l.op, 0⟩) <| by
    constructor
    · rintro ⟨hproducer, houtput, hmakes, ⟨last, hlast, hthreads⟩, hsizes, hdistinct, hnodes, hinputs,
        houtputs⟩
      refine ⟨hproducer, Operator.exists_inference_iff.mpr houtput, hmakes,
        ⟨last, hthreads, hlast⟩, hsizes, hdistinct, fun id hid => hnodes id ?_,
        forall_input_iff.mpr hinputs, forall_output_iff.mpr houtputs⟩
      obtain ⟨node, hnode⟩ := Option.ne_none_iff_exists'.mp hid
      exact mem_ids_of_node? hnode
    · intro h
      obtain ⟨last, hthreads, hlast⟩ := h.threads
      refine ⟨h.producer, Operator.exists_inference_iff.mp h.output, h.makes,
        ⟨last, hlast, hthreads⟩, h.sizes, h.distinct, fun id hid => h.nodes id fun hnone => ?_,
        forall_input_iff.mp h.inputs, forall_output_iff.mp h.outputs⟩
      obtain ⟨node, hnode, rfl⟩ := List.mem_map.mp hid
      exact List.find?_eq_none.mp hnone node hnode (beq_self_eq_true _)

namespace Threads

variable {v : View α} {d last : NodeId} {links : List Link}

/-- Each link of a chain reads data of the chain and makes its own. -/
theorem link (h : Threads v d links last) {l : Link} (hl : l ∈ links) :
    (∃ b ∈ d :: links.map (·.data), v.input ⟨l.op, 0⟩ = some b) ∧
      (∃ inference, v.operator l.op = some ⟨.permute l.perm.order, inference⟩) ∧
      v.output ⟨l.op, 0⟩ = some l.data := by
  induction links generalizing d with
  | nil => cases hl
  | cons l₁ links ih =>
    obtain ⟨hinput, ho, houtput, hrest⟩ := h
    rcases List.mem_cons.mp hl with rfl | hl
    · exact ⟨⟨d, List.mem_cons_self, hinput⟩, ho, houtput⟩
    · obtain ⟨⟨b, hb, hreads⟩, hlink⟩ := ih hrest hl
      exact ⟨⟨b, List.mem_cons_of_mem _ hb, hreads⟩, hlink⟩

/-- A chain ends at data of its own. -/
theorem last_mem (h : Threads v d links last) : last ∈ d :: links.map (·.data) := by
  induction links generalizing d with
  | nil => exact List.mem_singleton.mpr h.symm
  | cons l links ih => exact List.mem_cons_of_mem _ (ih h.2.2.2)

/-- No link reads what the chain leads to. -/
theorem input_ne_last (h : Threads v d links last) (hdistinct : (d :: links.map (·.data)).Nodup)
    {l : Link} (hl : l ∈ links) : v.input ⟨l.op, 0⟩ ≠ some last := by
  induction links generalizing d with
  | nil => cases hl
  | cons l₁ links ih =>
    obtain ⟨hinput, -, -, hrest⟩ := h
    obtain ⟨hd, hdistinct⟩ := List.nodup_cons.mp hdistinct
    rcases List.mem_cons.mp hl with rfl | hl
    · rw [hinput]
      intro heq
      exact hd (Option.some.inj heq ▸ hrest.last_mem)
    · exact ih hrest hdistinct hl

/-- No two links read the same. -/
theorem eq_of_input (h : Threads v d links last) (hdistinct : (d :: links.map (·.data)).Nodup)
    {l l' : Link} (hl : l ∈ links) (hl' : l' ∈ links)
    (hsame : v.input ⟨l.op, 0⟩ = v.input ⟨l'.op, 0⟩) : l = l' := by
  induction links generalizing d with
  | nil => cases hl
  | cons l₁ links ih =>
    obtain ⟨hinput, -, -, hrest⟩ := h
    obtain ⟨hd, hdistinct⟩ := List.nodup_cons.mp hdistinct
    -- the first link reads `d`, and no other does
    have hfirst : ∀ {l}, l ∈ links → v.input ⟨l.op, 0⟩ ≠ some d := by
      intro l hl heq
      obtain ⟨⟨b, hb, hreads⟩, -⟩ := hrest.link hl
      obtain rfl := Option.some.inj (hreads.symm.trans heq)
      exact hd hb
    rcases List.mem_cons.mp hl with rfl | hbehind <;> rcases List.mem_cons.mp hl' with rfl | hbehind'
    · rfl
    · exact absurd (hsame.symm.trans hinput) (hfirst hbehind')
    · exact absurd (hsame.trans hinput) (hfirst hbehind)
    · exact ih hrest hdistinct hbehind hbehind'

end Threads

variable {g : Graph α} {n : Nat} {source : OutputPort} {x : NodeId} {links : List Link}
  {sink : InputPort}

/-- A permute of the chain has a permutation as its order. -/
theorem permutationOf_eq {op : NodeId} {p : Permutation} {inference : Option Inference}
    (ho : g.operator? op = some ⟨.permute p.order, inference⟩) : permutationOf g op = .ok p := by
  rw [permutationOf, operator_eq_ok.mpr ho]
  exact axisOrder_eq_ok.mpr (Permutation.ofOrder?_eq_some_iff.mpr rfl)

namespace IsChain

/-- Data of a chain has one reader. -/
theorem one_reader {v : View α} (h : IsChain v n source x links sink) {q q' : InputPort} {d : NodeId}
    (hq : v.input q = some d) (hq' : v.input q' = some d) : q = q' := by
  obtain ⟨last, hthreads, hlast⟩ := h.threads
  have hport : ∀ {q}, v.input q = some d → q = sink ∨ ∃ l ∈ links, q = ⟨l.op, 0⟩ := by
    intro q hq
    refine h.inputs q ?_
    rw [hq]
    exact Option.some_ne_none d
  rcases hport hq with rfl | ⟨l, hl, rfl⟩ <;> rcases hport hq' with rfl | ⟨l', hl', rfl⟩
  · rfl
  · exact absurd (hq'.trans (hq.symm.trans hlast)) (hthreads.input_ne_last h.distinct hl')
  · exact absurd (hq.trans (hq'.symm.trans hlast)) (hthreads.input_ne_last h.distinct hl)
  · rw [hthreads.eq_of_input h.distinct hl hl' (hq.trans hq'.symm)]

variable (hg : g.WellFormed) (h : IsChain g.view n source x links sink)
include hg h

/-- Every permute is a link of the chain. -/
theorem link_of_permute {op : NodeId} {order : List Nat} {inference : Option Inference}
    (ho : g.operator? op = some ⟨.permute order, inference⟩) :
    ∃ l ∈ links, l.op = op ∧ l.perm.order = order := by
  obtain ⟨last, hthreads, -⟩ := h.threads
  have hop : g.kind? op = some .op := kind?_eq_op.mpr ⟨_, ho⟩
  rcases h.nodes op (View.node_ne_none_of_kind (v := g.view) hop) with
    rfl | rfl | rfl | ⟨l, hl, rfl | rfl⟩
  · obtain ⟨o, hproducer, htype⟩ := h.producer
    cases ho.symm.trans hproducer
    exact absurd rfl htype
  · exact absurd rfl (op_ne_data hop (hg.view_output_kinds h.makes).2)
  · obtain ⟨inference', houtput⟩ := h.output
    cases ho.symm.trans houtput
  · obtain ⟨-, ⟨inference', ho'⟩, -⟩ := hthreads.link hl
    cases ho.symm.trans ho'
    exact ⟨l, hl, rfl, rfl⟩
  · obtain ⟨-, -, houtput⟩ := hthreads.link hl
    exact absurd rfl (op_ne_data hop (hg.view_output_kinds houtput).2)

omit hg in
/-- A permute has no result besides the first. -/
theorem single {op : NodeId} {order : List Nat} {inference : Option Inference}
    (ho : g.operator? op = some ⟨.permute order, inference⟩) {i : Nat} {d : NodeId}
    (hd : g.view.output ⟨op, i⟩ = some d) : i = 0 := by
  rcases h.outputs ⟨op, i⟩ (by rw [hd]; exact Option.some_ne_none d) with rfl | ⟨l, -, heq⟩
  · obtain ⟨o, hproducer, htype⟩ := h.producer
    cases ho.symm.trans hproducer
    exact absurd rfl htype
  · exact congrArg OutputPort.index heq

omit hg in
/-- In a chain, taking a permute away strands no data. -/
theorem not_strands {op result other : NodeId} {order : List Nat} {inference : Option Inference}
    (ho : g.operator? op = some ⟨.permute order, inference⟩)
    (hmakes : g.view.output ⟨op, 0⟩ = some result) : ¬ g.view.Strands op result other := by
  rintro ⟨i, d, q, c, hd, hne, -⟩
  obtain rfl := h.single ho hd
  exact hne (Option.some.inj (hd.symm.trans hmakes))

/-- The readers of data in a chain are one. -/
theorem length_readers_eq_one {d : NodeId} {q : InputPort} (hq : g.view.input q = some d) :
    (g.readers d).length = 1 := by
  have hperm : (g.readers d).Perm [q] := by
    rw [List.perm_ext_iff_of_nodup (hg.readers_nodup d) (List.nodup_singleton q)]
    intro q'
    rw [hg.mem_readers_iff (hg.view_input_kinds hq).2, List.mem_singleton]
    refine ⟨fun hq' => h.one_reader hq' hq, ?_⟩
    rintro rfl
    exact hq
  rw [hperm.length_eq, List.length_singleton]

/-- Two permutes in a row are always fused. -/
theorem plan_eq_ok {pat : Pattern} (hpat : pattern = .ok pat) {m : Match}
    (hm : m ∈ pat.allMatches g) : ∃ p, plan m g = .ok p ∧ m.get "second" = .ok p.second := by
  have hfits := (Pattern.mem_allMatches_iff hg hpat).mp hm
  obtain ⟨first, -, hfirst, -⟩ := hfits.nodes ⟨"first", .operator .permute⟩ (by simp)
  obtain ⟨mid, -, hmid, -⟩ := hfits.nodes ⟨"mid", .data⟩ (by simp)
  obtain ⟨second, -, hsecond, -⟩ := hfits.nodes ⟨"second", .operator .permute⟩ (by simp)
  have hreads := hfits.input_eq hg (k := 0) (by simp) (by simp) hmid hsecond
  obtain ⟨last, hthreads, -⟩ := h.threads
  -- both are links of the chain
  have hlink : ∀ {role op}, ⟨role, .operator .permute⟩ ∈
      [(⟨"first", .operator .permute⟩ : Role), ⟨"mid", .data⟩, ⟨"second", .operator .permute⟩] →
      m.get role = .ok op → ∃ l ∈ links, l.op = op := by
    intro role op hrole hop
    obtain ⟨⟨operation, inference⟩, ho, htype⟩ := hfits.operator_type .permute hrole hop
    cases operation <;> cases htype
    obtain ⟨l, hl, hop, -⟩ := h.link_of_permute hg ho
    exact ⟨l, hl, hop⟩
  obtain ⟨l₁, hl₁, rfl⟩ := hlink (by simp) hfirst
  obtain ⟨l₂, hl₂, rfl⟩ := hlink (by simp) hsecond
  obtain ⟨⟨input, -, hinput⟩, ⟨inference₁, ho₁⟩, -⟩ := hthreads.link hl₁
  obtain ⟨-, ⟨inference₂, ho₂⟩, hresult⟩ := hthreads.link hl₂
  obtain ⟨c, hc⟩ := kind?_eq_data.mp (hg.view_output_kinds hresult).2
  have hlength : l₁.perm.size = l₂.perm.size := (h.sizes l₁ hl₁).trans (h.sizes l₂ hl₂).symm
  obtain ⟨composed, hcomposed⟩ :=
    Option.isSome_iff_exists.mp (Permutation.isSome_compose?_iff.mpr hlength)
  rw [view_input_of_op (p := ⟨l₁.op, 0⟩) (kind?_eq_op.mpr ⟨_, ho₁⟩)] at hinput
  rw [view_output_of_op (p := ⟨l₂.op, 0⟩) (kind?_eq_op.mpr ⟨_, ho₂⟩)] at hresult
  refine ⟨⟨input, l₁.op, mid, l₂.op, l₂.data, composed, c.shape⟩, ?_, hsecond⟩
  refine planning_bind_eq_ok.mpr ⟨l₁.op, hfirst, planning_bind_eq_ok.mpr ⟨mid, hmid, ?_⟩⟩
  refine planning_bind_eq_ok.mpr ⟨l₂.op, hsecond, planning_halt_if_eq_ok.mpr ⟨?_, ?_⟩⟩
  · exact not_not.mpr (h.length_readers_eq_one hg hreads)
  refine planning_bind_eq_ok.mpr ⟨l₁.perm, permutationOf_eq ho₁, ?_⟩
  refine planning_bind_eq_ok.mpr ⟨l₂.perm, permutationOf_eq ho₂, ?_⟩
  rw [hcomposed]
  refine planning_bind_eq_ok.mpr ⟨input, operand_eq_ok.mpr hinput, ?_⟩
  rw [hresult]
  exact planning_bind_eq_ok.mpr ⟨c, content_eq_ok.mpr hc, rfl⟩

end IsChain

/-! ## One fusion -/

/-- The nodes that a fusion removes. -/
def gone (p : Plan) : List NodeId :=
  if p.composed.isIdentity then [p.first, p.mid, p.second, p.last] else [p.second, p.last]

/-- What is read in the place of the last result. -/
def heir (p : Plan) : NodeId :=
  if p.composed.isIdentity then p.input else p.mid

/-- What a fusion leaves of `v`, whether the permutes cancel or not. -/
structure Shortened (v : View α) (p : Plan) (w : View α) : Prop where
  live : ∀ id, w.node id ≠ none → v.node id ≠ none ∧ id ∉ gone p
  operator : ∀ op o, op ∉ gone p → op ≠ p.first → v.operator op = some o → w.operator op = some o
  first : p.composed.isIdentity = false →
    ∃ inference, w.operator p.first = some ⟨.permute p.composed.order, inference⟩
  input : ∀ q d, w.input q = some d ↔ q.node ∉ gone p ∧
    ((v.input q = some p.last ∧ d = heir p) ∨ (d ∉ gone p ∧ v.input q = some d))
  output : ∀ q d, w.output q = some d ↔ q.node ∉ gone p ∧ d ∉ gone p ∧ v.output q = some d

section Fusion

variable {p : Plan} (hg : g.WellFormed) (ha : Accepted g p)
include hg ha

/-- Cancelling two permutes shortens the view. -/
theorem shortened_cancelled (hidentity : p.composed.isIdentity = true) :
    Shortened g.view p (cancelled g.view p) := by
  obtain ⟨⟨n₁, n₂, n₃, n₄⟩, -⟩ := ha.distinct hg
  have hgone : ∀ {id}, id ∉ gone p ↔ id ≠ p.first ∧ id ≠ p.mid ∧ id ≠ p.last ∧ id ≠ p.second := by
    intro id
    simp only [gone, hidentity, if_true, List.mem_cons, List.not_mem_nil, or_false, not_or]
    exact ⟨fun h => ⟨h.1, h.2.1, h.2.2.2, h.2.2.1⟩, fun h => ⟨h.1, h.2.1, h.2.2.2, h.2.2.1⟩⟩
  have hheir : heir p = p.input := if_pos hidentity
  refine ⟨fun id hid => ?_, fun op o hop _ ho => ?_, fun hfalse => ?_, fun q d => ?_, fun q d => ?_⟩
  · obtain ⟨n, hn⟩ := Option.ne_none_iff_exists'.mp hid
    obtain ⟨hne, hn⟩ := cancelled_node_eq_some.mp hn
    rw [hn]
    exact ⟨Option.some_ne_none n, hgone.mpr hne⟩
  · obtain ⟨n, hn, hpayload⟩ := View.operator_eq_some_iff.mp ho
    exact View.operator_eq_some_iff.mpr
      ⟨n, cancelled_node_eq_some.mpr ⟨hgone.mp hop, hn⟩, hpayload⟩
  · cases hidentity.symm.trans hfalse
  · simp only [cancelled, detached, View.erase_input_iff, View.moveReaders_input_iff, hgone, hheir]
    grind
  · simp only [cancelled, detached, View.erase_output_iff, View.moveReaders_output, hgone]
    grind

/-- Joining two permutes shortens the view. -/
theorem shortened_fused (hidentity : p.composed.isIdentity = false) {o : Operator} {c : Content α}
    (ho : g.operator? p.first = some o) : Shortened g.view p (fused g.view p o c) := by
  obtain ⟨-, ⟨n₅, n₆, n₇⟩, ⟨n₈, n₉⟩, -⟩ := ha.distinct hg
  have hgone : ∀ {id}, id ∉ gone p ↔ id ≠ p.second ∧ id ≠ p.last := by
    intro id
    simp [gone, hidentity]
  have hheir : heir p = p.mid := if_neg (by simp [hidentity])
  obtain ⟨hop, hdata⟩ := hg.view_output_kinds ha.makes_mid
  refine ⟨fun id hid => ?_, fun op o' hgoes hfirst ho' => ?_, fun _ => ?_, fun q d => ?_, fun q d => ?_⟩
  · obtain ⟨n, hn⟩ := Option.ne_none_iff_exists'.mp hid
    rcases fused_node_eq_some hn with ⟨rfl, -⟩ | ⟨rfl, -⟩ | ⟨-, hsecond, hlast, hold⟩
    · exact ⟨View.node_ne_none_of_kind hop, hgone.mpr ⟨n₆, n₇⟩⟩
    · exact ⟨View.node_ne_none_of_kind hdata, hgone.mpr ⟨n₈, n₉⟩⟩
    · rw [hold]
      exact ⟨Option.some_ne_none n, hgone.mpr ⟨hsecond, hlast⟩⟩
  · obtain ⟨hsecond, hlast⟩ := hgone.mp hgoes
    have hmid : op ≠ p.mid := op_ne_data (kind?_eq_op.mpr ⟨o', ho'⟩) hdata
    rw [View.operator, fused_node_other hfirst hmid hsecond hlast]
    exact ho'
  · obtain ⟨n, hn, -⟩ := View.operator_eq_some_iff (v := g.view).mp ho
    refine ⟨o.inference, View.operator_eq_some_iff.mpr
      ⟨{ n with payload := .op { o with operation := .permute p.composed.order } }, ?_, rfl⟩⟩
    simp [fused, detached, View.setPayload, n₅, n₆, n₇, hn]
  · show (detached g.view p p.mid).input q = some d ↔ _
    simp only [detached, View.erase_input_iff, View.moveReaders_input_iff, hgone, hheir]
    grind
  · show (detached g.view p p.mid).output q = some d ↔ _
    simp only [detached, View.erase_output_iff, View.moveReaders_output, hgone]
    grind

/-- A fusion of a chain does not fail. -/
theorem runs_commit_shortened (h : IsChain g.view n source x links sink) {notes : List LogEntry}
    {E : Graph α → Prop} : Runs (commit p) ⟨g, notes⟩
      (fun _ g' => g'.WellFormed ∧ Shortened g.view p g'.view) E := by
  obtain ⟨_, _, _, _, _, _, ho₁, ho₂, -⟩ := ha.orders
  refine runs_commit hg ha (fun _ hidentity g' o c ho _ hg' hview => ⟨hg', ?_⟩)
    (fun _ hidentity _ g' hg' hview => ⟨hg', ?_⟩) (fun hstrands => ?_) fun _ _ hstrands => ?_
  · rw [hview]
    exact shortened_fused hg ha hidentity ho
  · rw [hview]
    exact shortened_cancelled hg ha hidentity
  · exact absurd hstrands (h.not_strands ho₂ ha.makes_last)
  · exact absurd hstrands (h.not_strands ho₁ ha.makes_mid)

end Fusion

/-! ## What is left of the chain -/

/-- The link with the order that it has after a fusion. -/
def recomposed (p : Plan) (l : Link) : Link :=
  if l.op = p.first then { l with perm := p.composed } else l

/-- The links that a fusion leaves. -/
def shorten (p : Plan) (links : List Link) : List Link :=
  (links.filter (·.op ∉ gone p)).map (recomposed p)

/-- Where the chain goes on from some data. -/
def onward (p : Plan) (d : NodeId) : NodeId :=
  if d = p.last ∨ d = p.mid then heir p else d

section Shorten

variable {p : Plan}

theorem recomposed_op (l : Link) : (recomposed p l).op = l.op := by
  rw [recomposed]
  split <;> rfl

theorem recomposed_data (l : Link) : (recomposed p l).data = l.data := by
  rw [recomposed]
  split <;> rfl

/-- A link that goes is left out. -/
theorem shorten_cons_of_mem {l : Link} (h : l.op ∈ gone p) :
    shorten p (l :: links) = shorten p links := by
  rw [shorten, List.filter_cons_of_neg (by simpa using h)]
  rfl

/-- A link that stays may get the composed order. -/
theorem shorten_cons_of_not_mem {l : Link} (h : l.op ∉ gone p) :
    shorten p (l :: links) = recomposed p l :: shorten p links := by
  rw [shorten, List.filter_cons_of_pos (by simpa using h)]
  rfl

/-- The links that are left are those that stay. -/
theorem mem_shorten {l' : Link} :
    l' ∈ shorten p links ↔ ∃ l ∈ links, l.op ∉ gone p ∧ recomposed p l = l' := by
  simp [shorten, and_assoc]

/-- A link whose operator stays is one of those that are left. -/
theorem exists_mem_shorten {l : Link} (hl : l ∈ links) (hkept : l.op ∉ gone p) :
    ∃ l' ∈ shorten p links, l'.op = l.op ∧ l'.data = l.data :=
  ⟨recomposed p l, mem_shorten.mpr ⟨l, hl, hkept, rfl⟩, recomposed_op l, recomposed_data l⟩

/-- All orders of a shortened chain have as many axes as before. -/
theorem size_of_mem_shorten (hsizes : ∀ l ∈ links, l.perm.size = n) (hcomposed : p.composed.size = n)
    {l : Link} (h : l ∈ shorten p links) : l.perm.size = n := by
  obtain ⟨l, hl, -, rfl⟩ := mem_shorten.mp h
  rw [recomposed]
  split
  · exact hcomposed
  · exact hsizes l hl

/-- A shortened chain passes through data of the old one. -/
theorem map_data_shorten_sublist :
    ((shorten p links).map (·.data)).Sublist (links.map (·.data)) := by
  rw [shorten, List.map_map, show (fun l : Link => l.data) ∘ recomposed p = fun l => l.data from
    funext recomposed_data]
  exact List.filter_sublist.map _

/-- If a link goes the chain is shorter. -/
theorem length_shorten_lt {l : Link} (hl : l ∈ links) (hgone : l.op ∈ gone p) :
    (shorten p links).length < links.length := by
  rw [shorten, List.length_map, List.length_filter_lt_length_iff_exists]
  exact ⟨l, hl, by simpa using hgone⟩

end Shorten

section Chain

variable {p : Plan} {w : View α} (hg : g.WellFormed) (ha : Accepted g p)
  (hs : Shortened g.view p w)
include hg ha

/-- The operators that go are the second permute, and the first if both cancel. -/
theorem mem_gone_op {op : NodeId} (hop : g.kind? op = some .op) :
    op ∈ gone p ↔ op = p.second ∨ (p.composed.isIdentity = true ∧ op = p.first) := by
  have hmid := op_ne_data hop (hg.view_output_kinds ha.makes_mid).2
  have hlast := op_ne_data hop (hg.view_output_kinds ha.makes_last).2
  cases hidentity : p.composed.isIdentity <;> simp [gone, hidentity, hmid, hlast, or_comm]

/-- The data that goes is the last result, and the one in between if both cancel. -/
theorem mem_gone_data {d : NodeId} (hd : g.kind? d = some .data) :
    d ∈ gone p ↔ d = p.last ∨ (p.composed.isIdentity = true ∧ d = p.mid) := by
  have hfirst := op_ne_data (hg.view_output_kinds ha.makes_mid).1 hd
  have hsecond := op_ne_data (hg.view_output_kinds ha.makes_last).1 hd
  cases hidentity : p.composed.isIdentity <;>
    simp [gone, hidentity, hfirst.symm, hsecond.symm, or_comm]

/-- A link is one of the two permutes or has nothing to do with the data around them, but that it
may read the last result. -/
theorem link_cases {l : Link} {d : NodeId} (hinput : g.view.input ⟨l.op, 0⟩ = some d)
    (houtput : g.view.output ⟨l.op, 0⟩ = some l.data) :
    (l.op = p.second ∧ d = p.mid ∧ l.data = p.last) ∨
      (l.op = p.first ∧ d = p.input ∧ l.data = p.mid) ∨
      ((l.op ≠ p.first ∧ l.op ∉ gone p) ∧ d ≠ p.mid ∧ l.data ≠ p.mid ∧ l.data ≠ p.last ∧
        l.data ∉ gone p) := by
  by_cases hsecond : l.op = p.second
  · rw [hsecond] at hinput houtput
    exact .inl ⟨hsecond, Option.some.inj (hinput.symm.trans ha.reads_mid),
      Option.some.inj (houtput.symm.trans ha.makes_last)⟩
  by_cases hfirst : l.op = p.first
  · rw [hfirst] at hinput houtput
    exact .inr (.inl ⟨hfirst, Option.some.inj (hinput.symm.trans ha.reads_input),
      Option.some.inj (houtput.symm.trans ha.makes_mid)⟩)
  obtain ⟨hop, hdata⟩ := hg.view_output_kinds houtput
  have hmid : l.data ≠ p.mid := by
    intro heq
    rw [heq] at houtput
    exact hfirst (congrArg OutputPort.node (hg.view_output_inj houtput ha.makes_mid))
  have hlast : l.data ≠ p.last := by
    intro heq
    rw [heq] at houtput
    exact hsecond (congrArg OutputPort.node (hg.view_output_inj houtput ha.makes_last))
  refine .inr (.inr ⟨⟨hfirst, ?_⟩, ?_, hmid, hlast, ?_⟩)
  · rw [mem_gone_op hg ha hop]
    simp [hsecond, hfirst]
  · rintro rfl
    exact hsecond (congrArg InputPort.node (ha.one_reader _ hinput))
  · rw [mem_gone_data hg ha hdata]
    simp [hmid, hlast]

/-- A link goes with its result. -/
theorem op_mem_gone_iff {l : Link} {d : NodeId} (hinput : g.view.input ⟨l.op, 0⟩ = some d)
    (houtput : g.view.output ⟨l.op, 0⟩ = some l.data) : l.op ∈ gone p ↔ l.data ∈ gone p := by
  obtain ⟨-, ⟨-, n₆, -⟩, ⟨-, n₉⟩, -⟩ := ha.distinct hg
  obtain ⟨hop, hdata⟩ := hg.view_output_kinds houtput
  rw [mem_gone_op hg ha hop, mem_gone_data hg ha hdata]
  rcases link_cases hg ha hinput houtput with ⟨hsecond, -, hd⟩ | ⟨hfirst, -, hd⟩ |
    ⟨⟨hfirst, hkept⟩, -, hmid, hlast, -⟩
  · simp [hsecond, hd]
  · simp [hfirst, hd, n₆, n₉]
  · rw [mem_gone_op hg ha hop] at hkept
    simp [hkept, hmid, hlast]

include hs

/-- All operators but the permutes stay. -/
theorem operator_kept {op : NodeId} {o : Operator} (ho : g.view.operator op = some o)
    (htype : o.operation.type ≠ .permute) : op ∉ gone p ∧ w.operator op = some o := by
  obtain ⟨hfirst, -, -, hsecond⟩ := ne_of_not_permute hg ha ho htype
  have hkept : op ∉ gone p := by
    rw [mem_gone_op hg ha (kind?_eq_op.mpr ⟨o, ho⟩)]
    simp [hfirst, hsecond]
  exact ⟨hkept, hs.operator _ _ hkept hfirst ho⟩

/-- A port that stays is fed by what takes the place of its data. -/
theorem input_onward {q : InputPort} {d : NodeId} (hq : q.node ∉ gone p)
    (hinput : g.view.input q = some d) (hmid : d ≠ p.mid) : w.input q = some (onward p d) := by
  rw [hs.input, onward]
  refine ⟨hq, ?_⟩
  by_cases hlast : d = p.last
  · exact .inl ⟨hlast ▸ hinput, if_pos (.inl hlast)⟩
  · rw [if_neg (by simp [hlast, hmid]), mem_gone_data hg ha (hg.view_input_kinds hinput).2]
    exact .inr ⟨by simp [hlast, hmid], hinput⟩

/-- The links that are left lead where the chain led. -/
theorem threads_shorten {d last : NodeId} (h : Threads g.view d links last) (hlast : last ≠ p.mid) :
    Threads w (onward p d) (shorten p links) (onward p last) := by
  obtain ⟨⟨-, n₂, -, n₄⟩, ⟨-, n₆, -⟩, ⟨-, n₉⟩, -⟩ := ha.distinct hg
  have honward : onward p p.mid = heir p ∧ onward p p.last = heir p ∧ onward p p.input = p.input := by
    simp [onward, n₂, n₄]
  induction links generalizing d with
  | nil =>
    obtain rfl : d = last := h
    exact rfl
  | cons l links ih =>
    obtain ⟨hinput, ⟨inference, ho⟩, houtput, hrest⟩ := h
    have ih := ih hrest
    obtain ⟨hop, hdata⟩ := hg.view_output_kinds houtput
    rcases link_cases hg ha hinput houtput with ⟨hsecond, rfl, hd⟩ | ⟨hfirst, rfl, hd⟩ |
      ⟨⟨hfirst, hkept⟩, hmid, hmid', hlast', hdata'⟩
    · rw [shorten_cons_of_mem ((mem_gone_op hg ha hop).mpr (.inl hsecond)), honward.1]
      rwa [hd, honward.2.1] at ih
    · rw [hd, honward.1] at ih
      rw [honward.2.2]
      cases hidentity : p.composed.isIdentity with
      | true =>
        rw [shorten_cons_of_mem ((mem_gone_op hg ha hop).mpr (.inr ⟨hidentity, hfirst⟩))]
        rwa [heir, if_pos hidentity] at ih
      | false =>
        have hkept : l.op ∉ gone p := by
          rw [mem_gone_op hg ha hop, hfirst]
          simp [hidentity, n₆]
        rw [heir, if_neg (by simp [hidentity]), ← hd] at ih
        rw [shorten_cons_of_not_mem hkept, recomposed, if_pos hfirst]
        refine ⟨honward.2.2 ▸ input_onward hg ha hs hkept hinput n₂, ?_,
          (hs.output _ _).mpr ⟨hkept, ?_, houtput⟩, ih⟩
        · rw [hfirst]
          exact hs.first hidentity
        · rw [mem_gone_data hg ha hdata, hd]
          simp [hidentity, n₉]
    · rw [show onward p l.data = l.data from if_neg (by simp [hmid', hlast'])] at ih
      rw [shorten_cons_of_not_mem hkept, recomposed, if_neg hfirst]
      exact ⟨input_onward hg ha hs hkept hinput hmid,
        ⟨inference, hs.operator _ _ hkept hfirst ho⟩, (hs.output _ _).mpr ⟨hkept, hdata', houtput⟩, ih⟩

omit hs in
/-- The axes come to the same positions.  From between the two permutes, only the second is still to
be passed. -/
theorem axisThrough_shorten {d last : NodeId} (h : Threads g.view d links last)
    (hlast : last ≠ p.mid) (hsizes : ∀ l ∈ links, l.perm.size = n) (hcomposed : p.composed.size = n)
    {first second : Permutation} {inference₁ inference₂ : Option Inference}
    (ho₁ : g.operator? p.first = some ⟨.permute first.order, inference₁⟩)
    (ho₂ : g.operator? p.second = some ⟨.permute second.order, inference₂⟩)
    (hcompose : first.compose? second = some p.composed) {i : Nat} (hi : i < n) :
    Permutation.axisThrough (links.map (·.perm)) i =
      (Permutation.axisThrough ((shorten p links).map (·.perm)) i).bind fun j =>
        if d = p.mid then second.order[j]? else some j := by
  obtain ⟨⟨-, n₂, -, -⟩, ⟨-, n₆, -⟩, ⟨-, n₉⟩, -⟩ := ha.distinct hg
  induction links generalizing d with
  | nil =>
    obtain rfl : d = last := h
    simp [shorten, Permutation.axisThrough, hlast]
  | cons l links ih =>
    obtain ⟨hinput, ⟨inference, ho⟩, houtput, hrest⟩ := h
    have ih := ih hrest fun l hl => hsizes l (List.mem_cons_of_mem _ hl)
    have hop := (hg.view_output_kinds houtput).1
    rw [List.map_cons, Permutation.axisThrough, ih]
    rcases link_cases hg ha hinput houtput with ⟨hsecond, rfl, hd⟩ | ⟨hfirst, rfl, hd⟩ |
      ⟨⟨hfirst, hkept⟩, hmid, hmid', -⟩
    · have horder : l.perm.order = second.order := by
        have heq := Option.some.inj ((congrArg g.operator? hsecond).symm.trans ho |>.symm.trans ho₂)
        exact Operation.permute.inj (congrArg Operator.operation heq)
      rw [shorten_cons_of_mem ((mem_gone_op hg ha hop).mpr (.inl hsecond))]
      simp [hd, n₉.symm, horder]
    · have horder : l.perm.order = first.order := by
        have heq := Option.some.inj ((congrArg g.operator? hfirst).symm.trans ho |>.symm.trans ho₁)
        exact Operation.permute.inj (congrArg Operator.operation heq)
      have hboth : ∀ j, (second.order[j]?).bind (first.order[·]?) = p.composed.order[j]? :=
        fun j => (Permutation.getElem?_compose? hcompose j).symm
      simp only [hd, if_true, horder, Option.bind_assoc, hboth, n₂, if_false]
      cases hidentity : p.composed.isIdentity with
      | true =>
        rw [shorten_cons_of_mem ((mem_gone_op hg ha hop).mpr (.inr ⟨hidentity, hfirst⟩))]
        cases hj : Permutation.axisThrough ((shorten p links).map (·.perm)) i with
        | none => rfl
        | some j =>
          have hsmall : ∀ q ∈ (shorten p links).map (·.perm), q.size = n := by
            intro q hq
            obtain ⟨l', hl', rfl⟩ := List.mem_map.mp hq
            exact size_of_mem_shorten (fun l hl => hsizes l (List.mem_cons_of_mem _ hl)) hcomposed hl'
          have hlt := Permutation.axisThrough_lt hsmall hi hj
          exact Permutation.getElem?_of_isIdentity hidentity (hcomposed ▸ hlt)
      | false =>
        have hkept : l.op ∉ gone p := by
          rw [mem_gone_op hg ha hop, hfirst]
          simp [hidentity, n₆]
        rw [shorten_cons_of_not_mem hkept, recomposed, if_pos hfirst]
        simp [Permutation.axisThrough]
    · rw [shorten_cons_of_not_mem hkept, recomposed, if_neg hfirst]
      simp [Permutation.axisThrough, hmid, hmid']

omit hs in
/-- The chain does not start or end between the permutes. -/
theorem IsChain.ends_ne (h : IsChain g.view n source x links sink) :
    (x ≠ p.mid ∧ x ≠ p.last) ∧ g.view.input sink ≠ some p.mid := by
  obtain ⟨o, hproducer, htype⟩ := h.producer
  obtain ⟨inference, hsink⟩ := h.output
  obtain ⟨hfirst, -, -, hsecond⟩ := ne_of_not_permute hg ha hproducer htype
  obtain ⟨-, -, -, hsecond'⟩ := ne_of_not_permute hg ha hsink (by simp [Operation.type])
  refine ⟨⟨?_, ?_⟩, fun hmid => ?_⟩
  · rintro rfl
    exact hfirst (congrArg OutputPort.node (hg.view_output_inj h.makes ha.makes_mid))
  · rintro rfl
    exact hsecond (congrArg OutputPort.node (hg.view_output_inj h.makes ha.makes_last))
  · exact hsecond' (congrArg InputPort.node (ha.one_reader sink hmid))

/-- A shortened chain is a chain. -/
theorem IsChain.shorten (h : IsChain g.view n source x links sink)
    (hcomposed : p.composed.size = n) : IsChain w n source x (shorten p links) sink := by
  obtain ⟨o, hproducer, htype⟩ := h.producer
  obtain ⟨inference, hsink⟩ := h.output
  obtain ⟨last, hthreads, hlast⟩ := h.threads
  obtain ⟨hsource, hproducer'⟩ := operator_kept hg ha hs hproducer htype
  obtain ⟨hstays, hsink'⟩ := operator_kept hg ha hs hsink (by simp [Operation.type])
  obtain ⟨hx, hmid⟩ := h.ends_ne hg ha
  replace hmid : last ≠ p.mid := fun heq => hmid (heq ▸ hlast)
  refine ⟨⟨o, hproducer', htype⟩, ⟨inference, hsink'⟩, (hs.output _ _).mpr ⟨hsource, ?_, h.makes⟩,
    ⟨onward p last, ?_, input_onward hg ha hs hstays hlast hmid⟩,
    fun l hl => size_of_mem_shorten h.sizes hcomposed hl,
    h.distinct.sublist (map_data_shorten_sublist.cons_cons x), fun id hid => ?_, fun q hq => ?_,
    fun q hq => ?_⟩
  · rw [mem_gone_data hg ha (hg.view_output_kinds h.makes).2]
    simp [hx]
  · have hshort := threads_shorten hg ha hs hthreads hmid
    rwa [show onward p x = x from if_neg (by simp [hx])] at hshort
  · obtain ⟨hlive, hkept⟩ := hs.live id hid
    rcases h.nodes id hlive with hid | hid | hid | ⟨l, hl, hid⟩
    · exact .inl hid
    · exact .inr (.inl hid)
    · exact .inr (.inr (.inl hid))
    · obtain ⟨⟨d, -, hinput⟩, -, houtput⟩ := hthreads.link hl
      have hkept' : l.op ∉ gone p := by
        rcases hid with rfl | rfl
        · exact hkept
        · rwa [op_mem_gone_iff hg ha hinput houtput]
      obtain ⟨l', hl', hop, hdata⟩ := exists_mem_shorten hl hkept'
      exact .inr (.inr (.inr ⟨l', hl', hop ▸ hdata ▸ hid⟩))
  · obtain ⟨d, hd⟩ := Option.ne_none_iff_exists'.mp hq
    obtain ⟨hkept, hread⟩ := (hs.input q d).mp hd
    have hq : g.view.input q ≠ none := by
      rcases hread with ⟨hread, -⟩ | ⟨-, hread⟩ <;> rw [hread] <;> exact Option.some_ne_none _
    refine (h.inputs q hq).imp_right ?_
    rintro ⟨l, hl, rfl⟩
    obtain ⟨l', hl', hop, -⟩ := exists_mem_shorten hl hkept
    exact ⟨l', hl', by rw [hop]⟩
  · obtain ⟨d, hd⟩ := Option.ne_none_iff_exists'.mp hq
    obtain ⟨hkept, -, hmade⟩ := (hs.output q d).mp hd
    refine (h.outputs q (by rw [hmade]; exact Option.some_ne_none d)).imp_right ?_
    rintro ⟨l, hl, rfl⟩
    obtain ⟨l', hl', hop, -⟩ := exists_mem_shorten hl hkept
    exact ⟨l', hl', by rw [hop]⟩

end Chain

/-! ## The round -/

/-- Two links in a row are a match. -/
theorem Threads.mem_allMatches (hg : g.WellFormed) {pat : Pattern} (hpat : pattern = .ok pat)
    {l₁ l₂ : Link} {d last : NodeId} (h : Threads g.view d (l₁ :: l₂ :: links) last)
    (hdistinct : l₁.data ≠ l₂.data) :
    ⟨[("first", l₁.op), ("mid", l₁.data), ("second", l₂.op)]⟩ ∈ pat.allMatches g := by
  obtain ⟨-, ⟨inference₁, ho₁⟩, hmakes, hreads, ⟨inference₂, ho₂⟩, hmakes', -⟩ := h
  obtain ⟨n₁, hn₁, hpayload₁⟩ := View.operator_eq_some_iff.mp ho₁
  obtain ⟨n₂, hn₂, hpayload₂⟩ := View.operator_eq_some_iff.mp ho₂
  obtain ⟨hop, e, he, hwire⟩ := hg.view_output_iff.mp hmakes
  obtain ⟨hop', e', he', hwire'⟩ := hg.view_input_iff.mp hreads
  have hdata := (hg.view_output_kinds hmakes).2
  obtain ⟨c, hc⟩ := kind?_eq_data.mp hdata
  obtain ⟨n, hn, hpayload⟩ := View.content_eq_some_iff (v := g.view).mp hc
  rw [Pattern.mem_allMatches_iff hg hpat]
  refine ⟨rfl, ?_, ?_, ?_⟩
  · have hne : l₁.op ≠ l₂.op := by
      intro heq
      rw [heq] at hmakes
      exact hdistinct (Option.some.inj (hmakes.symm.trans hmakes'))
    simp [Match.nodes, op_ne_data hop hdata, (op_ne_data hop' hdata).symm, hne]
  · simp only [List.forall_mem_cons, List.not_mem_nil, false_implies, implies_true, and_true]
    refine ⟨⟨l₁.op, n₁, rfl, hn₁, ?_⟩, ⟨l₁.data, n, rfl, hn, ?_⟩, l₂.op, n₂, rfl, hn₂, ?_⟩ <;>
      simp [Predicate.holds, Predicate.operator, Predicate.data, Check.holds, Node.kind,
        Node.opcode?, Node.operator?, hpayload, hpayload₁, hpayload₂, Operation.type]
  · simp only [List.forall_mem_cons, List.not_mem_nil, false_implies, implies_true, and_true]
    refine ⟨⟨l₁.op, l₁.data, rfl, rfl, e, he, ?_⟩, l₁.data, l₂.op, rfl, rfl, e', he', ?_⟩
    · refine ⟨congrArg Wire.src hwire, congrArg Wire.dst hwire, ?_⟩
      rintro _ ⟨⟩
      exact .inl ⟨hop, congrArg Wire.srcPort hwire⟩
    · refine ⟨congrArg Wire.src hwire', congrArg Wire.dst hwire', ?_⟩
      rintro _ ⟨⟩
      exact .inr ⟨hop', congrArg Wire.dstPort hwire'⟩

/-- Where nothing matches, no two permutes are in a row. -/
theorem IsChain.length_le_one (hg : g.WellFormed) (h : IsChain g.view n source x links sink)
    {pat : Pattern} (hpat : pattern = .ok pat) (hunmatched : pat.allMatches g = []) :
    links.length ≤ 1 := by
  obtain ⟨last, hthreads, -⟩ := h.threads
  rcases links with _ | ⟨l₁, _ | ⟨l₂, links⟩⟩
  · exact Nat.zero_le 1
  · exact Nat.le_refl 1
  · have hdistinct := h.distinct
    simp only [List.map_cons, List.nodup_cons, List.mem_cons, not_or] at hdistinct
    have hmatch := hthreads.mem_allMatches hg hpat hdistinct.2.1.1
    rw [hunmatched] at hmatch
    cases hmatch

/-- Where a round has come to after some offers: the chain has lost a link with each of them, and
the axes come to the positions they came to.  Each offer has lost a node. -/
structure Collapsing (n : Nat) (source : OutputPort) (x : NodeId) (links : List Link)
    (sink : InputPort) (offers : List Offer) (g : Graph α) : Prop where
  wellFormed : g.WellFormed
  chain : ∃ left, IsChain g.view n source x left sink ∧
    left.length + offers.length ≤ links.length ∧ ∀ i < n,
      Permutation.axisThrough (left.map (·.perm)) i = Permutation.axisThrough (links.map (·.perm)) i
  offered : ∀ o ∈ offers, ∃ id ∈ o.nodes, g.node? id = none

/-- An offer either declines or shortens the chain.  There are fewer offers than links. -/
theorem runs_replace_collapsing {pat : Pattern} (hpat : pattern = .ok pat) {offers : List Offer}
    {s : Session α} {m : Match} (hs : Collapsing n source x links sink offers s.graph)
    (hm : m ∈ pat.allMatches s.graph) :
    Runs (replace m) s (fun replaced g' =>
      Collapsing n source x links sink (⟨m.nodes, replaced⟩ :: offers) g' ∧
        offers.length < links.length) fun _ => False := by
  obtain ⟨hg, ⟨left, hchain, hlength, haxes⟩, hoffered⟩ := hs
  obtain ⟨p, hplan, hsecond⟩ := hchain.plan_eq_ok hg hpat hm
  have ha := plan_accepted hg hpat hm hplan
  obtain ⟨order₁, order₂, inference₁, inference₂, q₁, q₂, ho₁, ho₂, hq₁, hq₂, hcompose⟩ := ha.orders
  obtain rfl := Permutation.ofOrder?_eq_some_iff.mp (axisOrder_eq_ok.mp hq₁)
  obtain rfl := Permutation.ofOrder?_eq_some_iff.mp (axisOrder_eq_ok.mp hq₂)
  obtain ⟨l₁, hl₁, -, horder⟩ := hchain.link_of_permute hg ho₁
  obtain ⟨l₂, hl₂, hop₂, -⟩ := hchain.link_of_permute hg ho₂
  have hcomposed : p.composed.size = n := by
    rw [Permutation.size_compose? hcompose, ← hchain.sizes l₁ hl₁, Permutation.size,
      Permutation.size, horder]
  have hgone : p.second ∈ gone p :=
    (mem_gone_op hg ha (hg.view_output_kinds ha.makes_last).1).mpr (.inl rfl)
  have hmem : p.second ∈ m.nodes := by
    have hroles := ((Pattern.mem_allMatches_iff hg hpat).mp hm).roles
    obtain ⟨i, -, hi⟩ := (Match.get_eq_ok_iff (hroles ▸ by decide)).mp hsecond
    exact List.mem_of_getElem? hi
  have hless := length_shorten_lt (p := p) hl₂ (hop₂ ▸ hgone)
  refine runs_planThenCommit (fun planned hok notes => ?_) (fun _ hdeclined => ?_) fun _ hfailed => ?_
  · obtain rfl := Except.ok.inj (hplan.symm.trans hok)
    refine (runs_commit_shortened hg ha hchain).imp (fun _ g' h => ?_) fun _ h => h
    obtain ⟨hg', hshort⟩ := h
    refine ⟨⟨hg', ⟨shorten p left, hchain.shorten hg ha hshort hcomposed, ?_, fun i hi => ?_⟩,
      List.forall_mem_cons.mpr ⟨⟨p.second, hmem, ?_⟩, fun o ho => ?_⟩⟩, ?_⟩
    · rw [List.length_cons]
      omega
    · obtain ⟨last, hthreads, hlast⟩ := hchain.threads
      obtain ⟨⟨hx, -⟩, hmid⟩ := hchain.ends_ne hg ha
      rw [← haxes i hi, axisThrough_shorten hg ha hthreads (fun heq => hmid (heq ▸ hlast))
        hchain.sizes hcomposed ho₁ ho₂ hcompose hi]
      simp [hx]
    · exact not_not.mp fun hlive => (hshort.live _ hlive).2 hgone
    · obtain ⟨id, hid, hnone⟩ := hoffered o ho
      exact ⟨id, hid, not_not.mp fun hlive => (hshort.live _ hlive).1 hnone⟩
    · omega
  · cases hplan.symm.trans hdeclined
  · cases hplan.symm.trans hfailed

/-- There are no more links than nodes. -/
theorem IsChain.length_le (hg : g.WellFormed) (h : IsChain g.view n source x links sink) :
    links.length ≤ g.nodes.length := by
  obtain ⟨last, hthreads, -⟩ := h.threads
  have hsub : links.map (·.data) ⊆ g.ids := by
    intro id hid
    obtain ⟨l, hl, rfl⟩ := List.mem_map.mp hid
    obtain ⟨-, -, houtput⟩ := hthreads.link hl
    obtain ⟨n, hn⟩ := Option.ne_none_iff_exists'.mp (hg.live_of_output houtput).2
    exact mem_ids_of_node? hn
  have hlength := (h.distinct.of_cons.subperm hsub).length_le
  rwa [List.length_map, ids, List.length_map] at hlength

/-- What a round leaves of a chain. -/
structure Collapsed (n : Nat) (source : OutputPort) (x : NodeId) (links : List Link)
    (sink : InputPort) (g : Graph α) : Prop where
  wellFormed : g.WellFormed
  chain : ∃ left, IsChain g.view n source x left sink ∧ left.length ≤ 1 ∧ ∀ i < n,
    Permutation.axisThrough (left.map (·.perm)) i = Permutation.axisThrough (links.map (·.perm)) i
  unmatched : ∀ pat, pattern = .ok pat → pat.allMatches g = []

/-- After a round no two permutes of the chain follow each other. -/
theorem runs_offerRound_collapsed (hg : g.WellFormed) (h : IsChain g.view n source x links sink)
    {pat : Pattern} (hpat : pattern = .ok pat) {name : String} {notes : List LogEntry} :
    Runs (Rule.offerRound Rule.offerLimit name pat replace) ⟨g, notes⟩
      (fun _ => Collapsed n source x links sink) fun _ => False := by
  refine (Rule.runs_offerRound_within (Collapsing n source x links sink)
    (fun offers _ => links.length - offers.length) (fun offers s m hs hm _ => ?_)
    (s := ⟨g, notes⟩) ⟨hg, ⟨links, h, by simp, fun _ _ => rfl⟩, by simp⟩ ?_).imp
    (fun recorded g' hround => ?_) fun _ h => h
  · refine (runs_replace_collapsing hpat hs hm).imp (fun replaced g' h => ⟨h.1, ?_⟩) fun _ h => h
    rw [List.length_cons]
    omega
  · have hlength := h.length_le hg
    have hpow : g.nodes.length ≤ Nat.pow g.nodes.length pat.roles.length := by
      rw [(Pattern.build_eq_ok hpat).1]
      exact Nat.le_self_pow (by decide) _
    show links.length - 0 < Nat.pow g.nodes.length pat.roles.length + 1
    omega
  · obtain ⟨⟨hg', ⟨left, hchain, -, haxes⟩, hoffered⟩, hnone⟩ := hround
    have hunmatched : pat.allMatches g' = [] := by
      refine List.eq_nil_iff_forall_not_mem.mpr fun m hm => ?_
      have hskip := Pattern.skip_of_mem_allMatches hnone hm
      obtain ⟨o, ho, hnodes⟩ := List.mem_map.mp (List.contains_iff_mem.mp hskip)
      obtain ⟨id, hid, hgone⟩ := hoffered o ho
      obtain ⟨n, hn⟩ := Pattern.live_of_mem_extensions hg'
        (Pattern.toMatch_of_mem_allMatches hm).1 (hnodes ▸ hid)
      cases hgone.symm.trans hn
    refine ⟨hg', ⟨left, hchain, ?_, haxes⟩, fun pat' hpat' => ?_⟩
    · exact hchain.length_le_one hg' hpat hunmatched
    · cases hpat.symm.trans hpat'
      exact hunmatched

/-- One round collapses the chain, and the others find nothing to do. -/
theorem runs_rule_collapsed (hg : g.WellFormed) (h : IsChain g.view n source x links sink)
    (limit : Nat) (notes : List LogEntry) :
    Runs (rule.run (limit + 1)) ⟨g, notes⟩ (fun _ => Collapsed n source x links sink)
      fun _ => False := by
  obtain ⟨pat, hpat⟩ : ∃ pat, pattern = .ok pat := ⟨_, rfl⟩
  refine runs_bind (runs_attempt (fun pat' hpat' notes => ?_) fun _ herror => ?_)
  · cases hpat.symm.trans hpat'
    refine runs_bind (runs_bind ((runs_offerRound_collapsed hg h hpat).imp
      (fun offers g' hcollapsed notes => ?_) fun _ h => h))
    split
    · have hdeclined : ∀ m ∈ pat.allMatches g', ∀ notes, Runs (replace m) ⟨g', notes⟩
          (fun replaced g'' => replaced = false ∧ g'' = g') fun _ => False := by
        rw [hcollapsed.unmatched pat hpat]
        simp
      refine runs_bind ((runs_offerRounds_declined hcollapsed.wellFormed hdeclined limit 1).imp
        (fun more g'' hsame notes => runs_pure fun notes => runs_pure ?_) fun _ h => h)
      obtain ⟨rfl, -⟩ := hsame
      exact hcollapsed
    · exact runs_bind (runs_log fun notes => runs_pure fun notes => runs_pure hcollapsed)
  · cases hpat.symm.trans herror

end PermuteRule

/-- **A chain of permutes collapses in one application.**  At most one permute is left.  If there is
one, its order is the composition of all orders in the chain, and otherwise that composition changes
nothing and the output reads the start of the chain. -/
theorem run_collapses_chain [Scalar α] {g : Graph α} (hg : Reachable g) {n : Nat}
    {source : OutputPort} {x : NodeId} {links : List PermuteRule.Link} {sink : InputPort}
    (h : PermuteRule.IsChain g.view n source x links sink) (limit : Nat) (notes : List LogEntry) :
    ∃ outcome s, PermuteRule.rule.run (limit + 1) ⟨g, notes⟩ = .ok outcome s ∧
      ((∃ l, PermuteRule.IsChain s.graph.view n source x [l] sink ∧ ∀ i < n,
          l.perm.order[i]? = Permutation.axisThrough (links.map (·.perm)) i) ∨
        (PermuteRule.IsChain s.graph.view n source x [] sink ∧
          s.graph.view.input sink = some x ∧ ∀ i < n,
            Permutation.axisThrough (links.map (·.perm)) i = some i)) := by
  obtain ⟨outcome, s, hs, hcollapsed⟩ :=
    exists_ok _ _ _ (PermuteRule.runs_rule_collapsed hg.wellFormed h limit notes)
  refine ⟨outcome, s, hs, ?_⟩
  obtain ⟨left, hchain, hlength, haxes⟩ := hcollapsed.chain
  cases left with
  | nil =>
    obtain ⟨last, hthreads, hlast⟩ := hchain.threads
    obtain rfl : x = last := hthreads
    exact .inr ⟨hchain, hlast, fun i hi => (haxes i hi).symm⟩
  | cons l left =>
    obtain rfl : left = [] :=
      List.eq_nil_of_length_eq_zero (Nat.le_zero.mp (Nat.le_of_succ_le_succ hlength))
    exact .inl ⟨l, hchain, fun i hi => haxes i hi⟩

/-- Four permutes in a row, of which the two in the middle cancel. -/
def rowCommands : List (Command Float) :=
  [.addOperator "x" .parameter, .addOperator "turn" (.permute [1, 2, 0]),
    .addOperator "swap" (.permute [1, 0, 2]), .addOperator "back" (.permute [1, 0, 2]),
    .addOperator "again" (.permute [1, 2, 0]), .addOperator "out" .output,
    .link ⟨0, 0⟩ ⟨1, 0⟩, .link ⟨1, 0⟩ ⟨2, 0⟩, .link ⟨2, 0⟩ ⟨3, 0⟩, .link ⟨3, 0⟩ ⟨4, 0⟩,
    .link ⟨4, 0⟩ ⟨5, 0⟩]

def turnAxes : Permutation := (Permutation.ofOrder? [1, 2, 0]).get rfl

def swapAxes : Permutation := (Permutation.ofOrder? [1, 0, 2]).get rfl

def rowLinks : List PermuteRule.Link :=
  [⟨1, turnAxes, 7⟩, ⟨2, swapAxes, 8⟩, ⟨3, swapAxes, 9⟩, ⟨4, turnAxes, 10⟩]

/-- One permute is left, which turns twice. -/
theorem rowCommands_collapse :
    Reachable (runCommands .nchw rowCommands) ∧
    PermuteRule.IsChain (runCommands .nchw rowCommands).view 3 ⟨0, 0⟩ 6 rowLinks ⟨5, 0⟩ ∧
    ∃ outcome s, PermuteRule.rule.run 1 ⟨runCommands .nchw rowCommands, []⟩ = .ok outcome s ∧
      ∃ l, PermuteRule.IsChain s.graph.view 3 ⟨0, 0⟩ 6 [l] ⟨5, 0⟩ ∧
        ∀ i < 3, l.perm.order[i]? = [2, 0, 1][i]? := by
  have hchain :
      PermuteRule.IsChain (runCommands .nchw rowCommands).view 3 ⟨0, 0⟩ 6 rowLinks ⟨5, 0⟩ := by
    decide +kernel
  have haxes : ∀ i < 3, Permutation.axisThrough (rowLinks.map (·.perm)) i = [2, 0, 1][i]? := by
    decide
  obtain ⟨outcome, s, hs, hcollapsed⟩ := run_collapses_chain ⟨_, _, rfl⟩ hchain 0 []
  refine ⟨⟨_, _, rfl⟩, hchain, outcome, s, hs, ?_⟩
  rcases hcollapsed with ⟨l, hleft, horder⟩ | ⟨-, -, hidentity⟩
  · exact ⟨l, hleft, fun i hi => (horder i hi).trans (haxes i hi)⟩
  · cases (haxes 0 (by decide)).symm.trans (hidentity 0 (by decide))

end TensorGraph
