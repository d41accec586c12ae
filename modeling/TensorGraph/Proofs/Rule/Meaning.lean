/-
  Fusing permutes keeps the meaning of a graph.

  A permute reorders the axes of what it reads; the other operators may be anything.  As long as
  permutes have no output besides the first and their orders fit the grids that they receive, no
  replacement changes what another operator receives.

  The invariant of a run is `Faithful`: there are values that solve the equations of the graph as it
  is and that give the other operators what they received at the start.  After a replacement such
  values can be written down.  Where two permutes are fused, the data between them holds what the
  last one held (`faithful_fused`), and where they cancel, what is left keeps its value
  (`faithful_cancelled`).
-/
import TensorGraph.Proofs.Evaluation
import TensorGraph.Proofs.Grid
import TensorGraph.Proofs.Reachable
import TensorGraph.Proofs.Rule.Shapes

namespace TensorGraph

open Edit TensorGraph.Graph
open Function (update)

variable {α β : Type} {S : Semantics (Grid β)}

/-! ## Permutes as reorderings -/

/-- What a permute makes at its first output, if its order fits what it reads. -/
def permuted? (operation : Operation) (inputs : Nat → Option (Grid β)) (port : Nat) :
    Option (Grid β) :=
  match operation, port with
  | .permute order, 0 =>
    (Permutation.ofOrder? order).bind fun p => (inputs 0).bind fun t => t.permute? p
  | _, _ => none

/-- Permutes reorder axes, and all the rest is up to `S`. -/
def Semantics.permuting (S : Semantics (Grid β)) : Semantics (Grid β) where
  result := fun op operation inputs port =>
    (permuted? operation inputs port).getD (S.result op operation inputs port)
  source := S.source

theorem permuting_result {op : NodeId} {p : Permutation} {inputs : Nat → Option (Grid β)}
    {t : Grid β} (hinput : inputs 0 = some t) (h : t.shape.length = p.size) :
    S.permuting.result op (.permute p.order) inputs 0 = t.permute p h := by
  have horder : Permutation.ofOrder? p.order = some p := Permutation.ofOrder?_eq_some_iff.mpr rfl
  simp [Semantics.permuting, permuted?, horder, hinput, Grid.permute?, h]

/-- Permutes have no output besides the first, and their orders are permutations of as many axes as
the grids have that they receive. -/
structure PermutesFit (S : Semantics (Grid β)) (g : Graph α) : Prop where
  single : ∀ port order inference, g.operator? port.node = some ⟨.permute order, inference⟩ →
    g.result? port ≠ none → port.index = 0
  fit : ∀ op order inference t, g.operator? op = some ⟨.permute order, inference⟩ →
    S.permuting.received g ⟨op, 0⟩ = some t →
    order.Perm (List.range order.length) ∧ order.length = t.shape.length

/-- The order of a permute. -/
def Operation.order? : Operation → Option (List Nat)
  | .permute order => some order
  | _ => none

theorem Operation.order?_eq_some_iff {operation : Operation} {order : List Nat} :
    operation.order? = some order ↔ operation = .permute order := by
  cases operation <;> simp [order?]

instance (S : Semantics (Grid β)) (g : Graph α) : Decidable (PermutesFit S g) :=
  decidable_of_iff ((∀ op ∈ g.ids, ∀ o ∈ g.operator? op, o.operation.order? ≠ none →
      ∀ e ∈ g.outEdges op, e.srcPort = 0) ∧
    ∀ op ∈ g.ids, ∀ o ∈ g.operator? op, ∀ order ∈ o.operation.order?,
      ∀ t ∈ S.permuting.received g ⟨op, 0⟩,
        order.Perm (List.range order.length) ∧ order.length = t.shape.length) <| by
    constructor
    · rintro ⟨hsingle, hfit⟩
      refine ⟨fun port order inference ho hresult => ?_, fun op order inference t ho ht => ?_⟩
      · obtain ⟨d, hd⟩ := Option.ne_none_iff_exists'.mp hresult
        obtain ⟨e, he, -⟩ := Option.map_eq_some_iff.mp hd
        obtain ⟨hmem, hport⟩ := mem_of_edgeOutOf? he
        obtain ⟨n, hn, -⟩ := Option.bind_eq_some_iff.mp ho
        rw [← hport]
        exact hsingle port.node (mem_ids_of_node? hn) _ ho (by simp [Operation.order?]) e hmem
      · obtain ⟨n, hn, -⟩ := Option.bind_eq_some_iff.mp ho
        exact hfit op (mem_ids_of_node? hn) _ ho order rfl t ht
    · rintro ⟨hsingle, hfit⟩
      refine ⟨fun op _ ⟨operation, inference⟩ ho horder e he => ?_,
        fun op _ ⟨operation, inference⟩ ho order horder t ht => ?_⟩
      · obtain ⟨order, horder⟩ := Option.ne_none_iff_exists'.mp horder
        obtain rfl : operation = .permute order := Operation.order?_eq_some_iff.mp horder
        refine hsingle ⟨op, e.srcPort⟩ order inference ho fun hnone => ?_
        exact result?_ne_none_of_mem he hnone
      · obtain rfl : operation = .permute order := Operation.order?_eq_some_iff.mp horder
        exact hfit op order inference t ho ht

/-- Where `v` has come to from `v₀`: the values solve its equations, its permutes are as they have
to be, and its other operators are those of `v₀` and receive what they received there. -/
structure Faithful (S : Semantics (Grid β)) (v₀ : View α) (value₀ : NodeId → Grid β) (v : View α)
    (value : NodeId → Grid β) : Prop where
  solves : S.permuting.Solves v value
  single : ∀ op order inference, v.operator op = some ⟨.permute order, inference⟩ →
    ∀ i d, v.output ⟨op, i⟩ = some d → i = 0
  fit : ∀ op order inference d, v.operator op = some ⟨.permute order, inference⟩ →
    v.input ⟨op, 0⟩ = some d →
    order.Perm (List.range order.length) ∧ order.length = (value d).shape.length
  operators : ∀ op o, o.operation.type ≠ .permute →
    (v.operator op = some o ↔ v₀.operator op = some o)
  receives : ∀ op o, v.operator op = some o → o.operation.type ≠ .permute →
    ∀ i, (v.input ⟨op, i⟩).map value = (v₀.input ⟨op, i⟩).map value₀

section Step

variable {v₀ v w : View α} {value₀ value value' : NodeId → Grid β}

namespace Faithful

variable (h : Faithful S v₀ value₀ v value) {op : NodeId} {inference : Option Inference}
include h

theorem value_permute {p : Permutation} {input result : NodeId}
    (ho : v.operator op = some ⟨.permute p.order, inference⟩)
    (hreads : v.input ⟨op, 0⟩ = some input) (hmakes : v.output ⟨op, 0⟩ = some result) :
    ∃ hsize, value result = (value input).permute p hsize := by
  have hsize : (value input).shape.length = p.size := (h.fit op _ _ input ho hreads).2.symm
  refine ⟨hsize, ?_⟩
  rw [h.solves.made _ _ _ hmakes ho]
  exact permuting_result (by rw [hreads, Option.map_some]) hsize

theorem only_result {order : List Nat} {result d : NodeId} {port : OutputPort}
    (ho : v.operator op = some ⟨.permute order, inference⟩)
    (hmakes : v.output ⟨op, 0⟩ = some result) (hport : port.node = op)
    (hd : v.output port = some d) : d = result := by
  subst hport
  have hindex : port.index = 0 := h.single _ _ _ ho port.index d hd
  rw [← hindex] at hmakes
  exact Option.some.inj (hd.symm.trans hmakes)

/-- Nothing is missed but the result, if a permute goes. -/
theorem not_strands {order : List Nat} {result gone : NodeId}
    (ho : v.operator op = some ⟨.permute order, inference⟩)
    (hmakes : v.output ⟨op, 0⟩ = some result) : ¬ v.Strands op result gone := by
  rintro ⟨i, d, q, c, hd, hother, -⟩
  exact hother (h.only_result ho hmakes rfl hd)

end Faithful

/-- The operator is the same as before, and so is all that it reads and makes. -/
structure Unchanged (v : View α) (value : NodeId → Grid β) (w : View α) (value' : NodeId → Grid β)
    (op : NodeId) (o : Operator) : Prop where
  operator : v.operator op = some o
  reads : ∀ i, (w.input ⟨op, i⟩).map value' = (v.input ⟨op, i⟩).map value
  makes : ∀ i d, w.output ⟨op, i⟩ = some d → value' d = value d

/-- The operator is a permute, and its result holds what it reads, permuted. -/
def Permutes (v : View α) (value : NodeId → Grid β) (op : NodeId) (o : Operator) : Prop :=
  ∃ p inference input, o = ⟨.permute p.order, inference⟩ ∧ v.input ⟨op, 0⟩ = some input ∧
    ∃ h : (value input).shape.length = p.size,
      ∀ d, v.output ⟨op, 0⟩ = some d → value d = (value input).permute p h

/-- A change that removes connections of outputs, and after which each operator is an old one with
the values it had, or is a permute in the place of a permute. -/
theorem Faithful.step (h : Faithful S v₀ value₀ v value)
    (hmade : ∀ port d, w.output port = some d → v.output port = some d)
    (hunmade : ∀ d, w.kind d = some .data → (∀ port, w.output port ≠ some d) →
      value' d = S.source d)
    (hop : ∀ op o, w.operator op = some o → Unchanged v value w value' op o ∨
      Permutes w value' op o ∧ ∃ order inference, v.operator op = some ⟨.permute order, inference⟩)
    (hkept : ∀ op o, v.operator op = some o → o.operation.type ≠ .permute →
      w.operator op = some o) : Faithful S v₀ value₀ w value' where
  solves := by
    refine ⟨fun port d o hd ho => ?_, hunmade⟩
    rcases hop port.node o ho with hsame | ⟨⟨p, inference, input, rfl, hinput, hsize, hvalue⟩,
      order, inference', hold⟩
    · rw [hsame.makes _ _ hd, h.solves.made _ _ o (hmade _ _ hd) hsame.operator,
        ← funext hsame.reads]
    · obtain ⟨op, i⟩ := port
      obtain rfl : i = 0 := h.single op _ _ hold i d (hmade _ _ hd)
      rw [hvalue d hd]
      exact (permuting_result (by rw [hinput, Option.map_some]) hsize).symm
  single := by
    intro op order inference ho i d hd
    rcases hop op _ ho with hsame | ⟨-, order', inference', hold⟩
    · exact h.single op _ _ hsame.operator i d (hmade _ _ hd)
    · exact h.single op _ _ hold i d (hmade _ _ hd)
  fit := by
    intro op order inference d ho hd
    rcases hop op _ ho with hsame | ⟨⟨p, inference', input, ho', hinput, hsize, -⟩, -⟩
    · have hreads := hsame.reads 0
      rw [hd, Option.map_some] at hreads
      obtain ⟨d', hd', hvalue⟩ := Option.map_eq_some_iff.mp hreads.symm
      rw [← hvalue]
      exact h.fit op order inference d' hsame.operator hd'
    · cases ho'
      obtain rfl := Option.some.inj (hinput.symm.trans hd)
      exact ⟨p.isPerm, hsize.symm⟩
  operators := by
    intro op o hpermute
    rw [← h.operators op o hpermute]
    refine ⟨fun ho => ?_, fun ho => hkept op o ho hpermute⟩
    rcases hop op o ho with hsame | ⟨⟨p, inference, input, rfl, -⟩, -⟩
    · exact hsame.operator
    · exact absurd rfl hpermute
  receives := by
    intro op o ho hpermute i
    rcases hop op o ho with hsame | ⟨⟨p, inference, input, rfl, -⟩, -⟩
    · rw [hsame.reads i, h.receives op o hsame.operator hpermute i]
    · exact absurd rfl hpermute

end Step

/-! ## One replacement -/

namespace PermuteRule

variable {g : Graph α} {p : Plan} {v₀ : View α} {value₀ value : NodeId → Grid β}
  (hg : g.WellFormed) (ha : Accepted g p) (h : Faithful S v₀ value₀ g.view value)

include ha h

/-- The result of the second permute is the input of the first, permuted by the composed order. -/
theorem value_last : ∃ hsize, value p.last = (value p.input).permute p.composed hsize := by
  obtain ⟨order₁, order₂, inference₁, inference₂, q₁, q₂, ho₁, ho₂, hq₁, hq₂, hcomposed⟩ := ha.orders
  obtain rfl := Permutation.ofOrder?_eq_some_iff.mp (axisOrder_eq_ok.mp hq₁)
  obtain rfl := Permutation.ofOrder?_eq_some_iff.mp (axisOrder_eq_ok.mp hq₂)
  obtain ⟨hfirst, hmid⟩ := h.value_permute ho₁ ha.reads_input ha.makes_mid
  obtain ⟨hsecond, hlast⟩ := h.value_permute ho₂ ha.reads_mid ha.makes_last
  have hsize : (value p.input).shape.length = p.composed.size := by
    rw [hfirst, Permutation.size_compose? hcomposed]
  refine ⟨hsize, ?_⟩
  rw [hlast]
  simp only [hmid]
  exact Grid.permute_permute hcomposed hfirst _ hsize

theorem made_by_first {port : OutputPort} {d : NodeId} (hport : port.node = p.first)
    (hd : g.view.output port = some d) : d = p.mid := by
  obtain ⟨_, _, _, _, _, _, ho, -⟩ := ha.orders
  exact h.only_result ho ha.makes_mid hport hd

theorem made_by_second {port : OutputPort} {d : NodeId} (hport : port.node = p.second)
    (hd : g.view.output port = some d) : d = p.last := by
  obtain ⟨_, _, _, _, _, _, -, ho, -⟩ := ha.orders
  exact h.only_result ho ha.makes_last hport hd

omit h
include hg

/-- With its readers moved to a target that holds the same, the last result is not missed. -/
theorem detached_reads {target : NodeId} {value' : NodeId → Grid β}
    (ht : target = p.input ∨ target = p.mid) (htarget : value' target = value p.last)
    {q : InputPort} (hq : q.node ≠ p.second)
    (hsame : ∀ d, g.view.input q = some d → value' d = value d) :
    ((detached g.view p target).input q).map value' = (g.view.input q).map value := by
  obtain ⟨⟨-, -, n₃, n₄⟩, -, ⟨n₈, n₉⟩, -⟩ := ha.distinct hg
  have hne : target ≠ p.second ∧ target ≠ p.last := by
    rcases ht with rfl | rfl
    · exact ⟨n₃, n₄⟩
    · exact ⟨n₈, n₉⟩
  obtain ⟨hsecond, hlast⟩ := hg.view_output_kinds ha.makes_last
  cases hinput : g.view.input q with
  | none => simp [detached, hinput]
  | some d =>
    obtain ⟨hop, hdata⟩ := hg.view_input_kinds hinput
    have hport : q.node ≠ p.last := op_ne_data hop hlast
    by_cases hd : d = p.last
    · subst hd
      have hmoved : (detached g.view p target).input q = some target := by
        simp [detached, hinput, hq, hport, hne]
      rw [hmoved, Option.map_some, Option.map_some, htarget]
    · have hmoved : (detached g.view p target).input q = some d := by
        simp [detached, hinput, hq, hport, hd, (op_ne_data hsecond hdata).symm]
      rw [hmoved, Option.map_some, Option.map_some, hsame d hinput]

theorem detached_output_iff {target : NodeId} {port : OutputPort} {d : NodeId} :
    (detached g.view p target).output port = some d ↔
      port.node ≠ p.second ∧ d ≠ p.last ∧ g.view.output port = some d := by
  obtain ⟨hsecond, hlast⟩ := hg.view_output_kinds ha.makes_last
  simp only [detached, View.erase_output_iff, View.moveReaders_output]
  constructor
  · rintro ⟨-, hd, hport, -, hmade⟩
    exact ⟨hport, hd, hmade⟩
  · rintro ⟨hport, hd, hmade⟩
    obtain ⟨hop, hdata⟩ := hg.view_output_kinds hmade
    exact ⟨op_ne_data hop hlast, hd, hport, (op_ne_data hsecond hdata).symm, hmade⟩

/-- Operators besides permutes are none of the nodes that are changed. -/
theorem ne_of_not_permute {op : NodeId} {o : Operator} (ho : g.operator? op = some o)
    (hpermute : o.operation.type ≠ .permute) :
    op ≠ p.first ∧ op ≠ p.mid ∧ op ≠ p.last ∧ op ≠ p.second := by
  obtain ⟨order₁, order₂, inference₁, inference₂, -, -, ho₁, ho₂, -⟩ := ha.orders
  have hop : g.kind? op = some .op := kind?_eq_op.mpr ⟨o, ho⟩
  refine ⟨?_, op_ne_data hop (hg.view_output_kinds ha.makes_mid).2,
    op_ne_data hop (hg.view_output_kinds ha.makes_last).2, ?_⟩
  · rintro rfl
    cases ho₁.symm.trans ho
    exact hpermute rfl
  · rintro rfl
    cases ho₂.symm.trans ho
    exact hpermute rfl

/-! ### The permutes cancel -/

omit hg ha in
theorem cancelled_node_eq_some {v : View α} {d : NodeId} {n : Node α} :
    (cancelled v p).node d = some n ↔
      (d ≠ p.first ∧ d ≠ p.mid ∧ d ≠ p.last ∧ d ≠ p.second) ∧ v.node d = some n := by
  simp only [cancelled, detached, View.erase_node, View.moveReaders_node, Function.update_apply]
  grind

theorem cancelled_output_iff {port : OutputPort} {d : NodeId} :
    (cancelled g.view p).output port = some d ↔ (port.node ≠ p.first ∧ d ≠ p.mid) ∧
      (port.node ≠ p.second ∧ d ≠ p.last) ∧ g.view.output port = some d := by
  obtain ⟨hfirst, hmid⟩ := hg.view_output_kinds ha.makes_mid
  rw [cancelled, View.erase_output_iff, View.erase_output_iff, detached_output_iff hg ha]
  constructor
  · rintro ⟨hport₁, -, -, hd₁, hport₂, hd₂, hmade⟩
    exact ⟨⟨hport₁, hd₁⟩, ⟨hport₂, hd₂⟩, hmade⟩
  · rintro ⟨⟨hport₁, hd₁⟩, ⟨hport₂, hd₂⟩, hmade⟩
    obtain ⟨hop, hdata⟩ := hg.view_output_kinds hmade
    exact ⟨hport₁, (op_ne_data hfirst hdata).symm, op_ne_data hop hmid, hd₁, hport₂, hd₂, hmade⟩

theorem cancelled_input {q : InputPort} (hop : g.kind? q.node = some .op)
    (hq : q.node ≠ p.first) :
    (cancelled g.view p).input q = (detached g.view p p.input).input q := by
  obtain ⟨hfirst, hmid⟩ := hg.view_output_kinds ha.makes_mid
  have hread : (detached g.view p p.input).input q ≠ some p.first := by
    intro hread
    simp only [detached, View.erase_input_iff, View.moveReaders_input_iff] at hread
    obtain ⟨-, -, -, -, ⟨-, heq⟩ | ⟨-, hread⟩⟩ := hread
    · exact op_ne_data hfirst (hg.view_input_kinds ha.reads_input).2 heq
    · exact op_ne_data hfirst (hg.view_input_kinds hread).2 rfl
  simp only [cancelled, View.erase_input, ha.mid_unread hg q, hq, op_ne_data hop hmid, hread,
    or_self, if_false]

include h

/-- If the permutes cancel, the input of the first holds what the last result held. -/
theorem faithful_cancelled (hidentity : p.composed.isIdentity = true) :
    Faithful S v₀ value₀ (cancelled g.view p) value := by
  have hsame : value p.input = value p.last := by
    obtain ⟨hsize, hvalue⟩ := value_last ha h
    rw [hvalue, Grid.permute_of_isIdentity hidentity]
  refine h.step (fun port d hd => ((cancelled_output_iff hg ha).mp hd).2.2) (fun d hd hunmade => ?_)
    (fun op o ho => .inl ?_) fun op o ho hpermute => ?_
  · obtain ⟨n, hn, hkind⟩ := Option.map_eq_some_iff.mp hd
    obtain ⟨⟨-, hmid, hlast, -⟩, hn⟩ := cancelled_node_eq_some.mp hn
    have hdata : g.view.kind d = some .data := by rw [View.kind, hn, Option.map_some, hkind]
    -- what the two permutes made is gone
    refine h.solves.unmade d hdata fun port hport => hunmade port ?_
    refine (cancelled_output_iff hg ha).mpr ⟨⟨fun heq => ?_, hmid⟩, ⟨fun heq => ?_, hlast⟩, hport⟩
    · exact hmid (made_by_first ha h heq hport)
    · exact hlast (made_by_second ha h heq hport)
  · obtain ⟨n, hn, hpayload⟩ := View.operator_eq_some_iff.mp ho
    obtain ⟨⟨hfirst, -, -, hsecond⟩, hn⟩ := cancelled_node_eq_some.mp hn
    have hold : g.view.operator op = some o := View.operator_eq_some_iff.mpr ⟨n, hn, hpayload⟩
    refine ⟨hold, fun i => ?_, fun i d _ => rfl⟩
    rw [cancelled_input (q := ⟨op, i⟩) hg ha (kind?_eq_op.mpr ⟨o, hold⟩) hfirst]
    exact detached_reads hg ha (.inl rfl) hsame hsecond fun d _ => rfl
  · obtain ⟨n, hn, hpayload⟩ := View.operator_eq_some_iff.mp ho
    exact View.operator_eq_some_iff.mpr
      ⟨n, cancelled_node_eq_some.mpr ⟨ne_of_not_permute hg ha ho hpermute, hn⟩, hpayload⟩

/-! ### The permutes are fused -/

omit h

variable {o : Operator} {c : Content α}

theorem fused_data {d : NodeId} (hd : (fused g.view p o c).kind d = some .data) :
    d ≠ p.last ∧ g.view.kind d = some .data := by
  obtain ⟨n, hn, hkind⟩ := Option.map_eq_some_iff.mp hd
  rcases fused_node_eq_some hn with ⟨-, hop⟩ | ⟨rfl, -⟩ | ⟨-, -, hlast, hold⟩
  · rw [Node.kind, hop] at hkind
    cases hkind
  · obtain ⟨-, -, ⟨-, n₉⟩, -⟩ := ha.distinct hg
    exact ⟨n₉, (hg.view_output_kinds ha.makes_mid).2⟩
  · refine ⟨hlast, ?_⟩
    rw [View.kind, hold, Option.map_some, hkind]

include h

/-- Fusing puts the last result where the one between the permutes was, and permutes once. -/
theorem faithful_fused (ho : g.operator? p.first = some o) :
    Faithful S v₀ value₀ (fused g.view p o c) (update value p.mid (value p.last)) := by
  obtain ⟨⟨n₁, n₂, n₃, n₄⟩, ⟨n₅, n₆, n₇⟩, ⟨n₈, n₉⟩, n₁₀⟩ := ha.distinct hg
  obtain ⟨order, _, inference, _, _, _, hpermute, -⟩ := ha.orders
  obtain rfl := Option.some.inj (hpermute.symm.trans ho)
  have houtput : ∀ {port d},
      (fused g.view p ⟨.permute order, inference⟩ c).output port = some d ↔
        port.node ≠ p.second ∧ d ≠ p.last ∧ g.view.output port = some d :=
    detached_output_iff hg ha
  refine h.step (fun port d hd => (houtput.mp hd).2.2) (fun d hd hunmade => ?_)
    (fun op o ho => ?_) fun op o ho hpermute => ?_
  · obtain ⟨hlast, hdata⟩ := fused_data hg ha hd
    have hmid : d ≠ p.mid := by
      rintro rfl
      exact hunmade _ (houtput.mpr ⟨n₆, n₉, ha.makes_mid⟩)
    rw [Function.update_of_ne hmid]
    refine h.solves.unmade d hdata fun port hport => hunmade port (houtput.mpr ?_)
    exact ⟨fun heq => hlast (made_by_second ha h heq hport), hlast, hport⟩
  · rcases fused_operator ho with ⟨rfl, rfl⟩ | ⟨hfirst, hsecond, hold⟩
    · obtain ⟨hsize, hvalue⟩ := value_last ha h
      have hinput : (fused g.view p ⟨.permute order, inference⟩ c).input ⟨p.first, 0⟩ =
          some p.input := by
        simp [fused, detached, View.setPayload, ha.reads_input, n₃, n₄, n₆, n₇]
      refine .inr ⟨⟨p.composed, inference, p.input, rfl, hinput, ?_⟩, order, inference, hpermute⟩
      rw [Function.update_of_ne n₂]
      refine ⟨hsize, fun d hd => ?_⟩
      obtain rfl := made_by_first ha h rfl (houtput.mp hd).2.2
      rw [Function.update_self, hvalue]
    · refine .inl ⟨hold, fun i => ?_, fun i d hd => ?_⟩
      · refine detached_reads (q := ⟨op, i⟩) hg ha (.inr rfl) (Function.update_self ..) hsecond
          fun d hd => Function.update_of_ne ?_ ..
        -- what is between the permutes was read by the second one only
        rintro rfl
        exact hsecond (congrArg InputPort.node (ha.one_reader _ hd))
      · refine Function.update_of_ne ?_ ..
        rintro rfl
        have hport := hg.view_output_inj (houtput.mp hd).2.2 ha.makes_mid
        exact hfirst (congrArg OutputPort.node hport)
  · obtain ⟨hfirst, hmid, hlast, hsecond⟩ := ne_of_not_permute hg ha ho hpermute
    rw [View.operator, fused_node_other hfirst hmid hsecond hlast]
    exact ho

end PermuteRule

/-! ## Whole runs -/

/-- The graph is where it has come to from `g₀` with the meaning kept. -/
def FaithfulFrom (S : Semantics (Grid β)) (g₀ g : Graph α) : Prop :=
  g.WellFormed ∧ ∃ value, Faithful S g₀.view (S.permuting.evaluate g₀) g.view value

theorem PermuteRule.rule_preserves_faithful (g₀ : Graph α) :
    (rule (α := α)).Preserves (FaithfulFrom S g₀) (FaithfulFrom S g₀) := by
  intro _ hp s m hs hm
  refine runs_planThenCommit (fun planned hplan notes => ?_) (fun _ _ => hs) fun _ _ => hs
  obtain ⟨hg, value, h⟩ := hs
  have ha := plan_accepted hg hp hm hplan
  obtain ⟨_, _, _, _, _, _, ho₁, ho₂, -⟩ := ha.orders
  refine runs_commit hg ha (fun _ _ g' o c ho _ hg' hview => ?_)
    (fun _ hidentity _ g' hg' hview => ?_) (fun hstrands => ?_) fun _ _ hstrands => ?_
  · exact ⟨hg', _, hview ▸ faithful_fused hg ha h ho⟩
  · exact ⟨hg', _, hview ▸ faithful_cancelled hg ha h hidentity⟩
  · exact absurd hstrands (h.not_strands ho₂ ha.makes_last)
  · exact absurd hstrands (h.not_strands ho₁ ha.makes_mid)

theorem PermutesFit.faithful {g : Graph α} (hg : g.WellFormed) (h : PermutesFit S g) :
    Faithful S g.view (S.permuting.evaluate g) g.view (S.permuting.evaluate g) where
  solves := Semantics.solves_evaluate hg
  single := by
    intro op order inference ho i d hd
    refine h.single ⟨op, i⟩ order inference ho ?_
    rw [← view_output_of_op (hg.view_output_kinds hd).1, hd]
    exact Option.some_ne_none d
  fit := by
    intro op order inference d ho hd
    refine h.fit op order inference _ ho ?_
    rw [(Semantics.solves_evaluate hg).received_eq hg (hg.view_input_kinds hd).1, hd, Option.map_some]
  operators := fun _ _ _ => Iff.rfl
  receives := fun _ _ _ _ _ => rfl

/-- However many permutes are fused, the other operators stay, and receive what they received. -/
theorem fused_permutes_keep_received [Scalar α] {g : Graph α} (hg : Reachable g)
    (hfit : PermutesFit S g) (limit : Nat) (notes : List LogEntry) :
    (∀ op o, o.operation.type ≠ .permute →
      ((graphAfter (PermuteRule.rule.run limit) ⟨g, notes⟩).operator? op = some o ↔
        g.operator? op = some o)) ∧
    ∀ op o, g.operator? op = some o → o.operation.type ≠ .permute → ∀ i,
      S.permuting.received (graphAfter (PermuteRule.rule.run limit) ⟨g, notes⟩) ⟨op, i⟩ =
        S.permuting.received g ⟨op, i⟩ := by
  have hg := hg.wellFormed
  have hrun := Rule.keeps_run (fun _ h => h) (PermuteRule.rule_preserves_faithful (S := S) g) limit
    ⟨g, notes⟩ ⟨hg, _, hfit.faithful hg⟩
  obtain ⟨hg', value, h⟩ := hrun.graphAfter
  generalize graphAfter (PermuteRule.rule.run limit) ⟨g, notes⟩ = g' at hg' h ⊢
  refine ⟨h.operators, fun op o ho hpermute i => ?_⟩
  have ho' : g'.operator? op = some o := (h.operators op o hpermute).mpr ho
  have hop : g.kind? op = some .op := kind?_eq_op.mpr ⟨o, ho⟩
  have hop' : g'.kind? op = some .op := kind?_eq_op.mpr ⟨o, ho'⟩
  calc S.permuting.received g' ⟨op, i⟩
      = (g'.view.input ⟨op, i⟩).map value := h.solves.received_eq hg' hop'
    _ = (g.view.input ⟨op, i⟩).map (S.permuting.evaluate g) := h.receives op o ho' hpermute i
    _ = S.permuting.received g ⟨op, i⟩ :=
      ((Semantics.solves_evaluate hg).received_eq hg hop).symm

/-- Two permutes that fuse, and two that cancel, on the way to the ports of one operator. -/
def turnedCommands : List (Command Float) :=
  [.addOperator "x" .parameter, .addOperator "first" (.permute [1, 2, 0]),
    .addOperator "second" (.permute [0, 2, 1]), .addOperator "turn" (.permute [1, 2, 0]),
    .addOperator "back" (.permute [2, 0, 1]), .addOperator "out" .output,
    .link ⟨0, 0⟩ ⟨1, 0⟩, .link ⟨1, 0⟩ ⟨2, 0⟩, .link ⟨2, 0⟩ ⟨5, 0⟩,
    .link ⟨0, 0⟩ ⟨3, 0⟩, .link ⟨3, 0⟩ ⟨4, 0⟩, .link ⟨4, 0⟩ ⟨5, 1⟩]

/-- Everything but a permute makes a grid whose entries are their indices. -/
def indices : Semantics (Grid (List Nat)) where
  result := fun _ _ _ _ => .tabulate [2, 3, 4] id
  source := fun _ => .tabulate [2, 3, 4] id

/-- Three of the four permutes go; the output still receives the grid with its first two axes
swapped, and at the second port the grid as it is. -/
theorem turnedCommands_kept :
    Reachable (runCommands .nchw turnedCommands) ∧
    PermutesFit indices (runCommands .nchw turnedCommands) ∧
    ((graphAfter (PermuteRule.rule.run 10) ⟨runCommands .nchw turnedCommands, []⟩).ids.filter
      (· < 6)) = [0, 1, 5] ∧
    ((indices.permuting.received (graphAfter (PermuteRule.rule.run 10)
        ⟨runCommands .nchw turnedCommands, []⟩) ⟨5, 0⟩).map fun t => (t.shape, t.entry [2, 1, 3])) =
      some ([3, 2, 4], some [1, 2, 3]) ∧
    ((indices.permuting.received (graphAfter (PermuteRule.rule.run 10)
        ⟨runCommands .nchw turnedCommands, []⟩) ⟨5, 1⟩).map fun t => (t.shape, t.entry [1, 2, 3])) =
      some ([2, 3, 4], some [1, 2, 3]) := by
  have hfit : PermutesFit indices (runCommands .nchw turnedCommands) := by decide +kernel
  have hout : ((runCommands .nchw turnedCommands).operator? 5).map (·.operation.type) =
      some .output := by
    decide +kernel
  obtain ⟨o, ho, htype⟩ := Option.map_eq_some_iff.mp hout
  have hkept := (fused_permutes_keep_received ⟨_, _, rfl⟩ hfit 10 []).2 5 o ho (by simp [htype])
  refine ⟨⟨_, _, rfl⟩, hfit, by decide +kernel, ?_, ?_⟩
  · rw [hkept 0]
    decide +kernel
  · rw [hkept 1]
    decide +kernel

end TensorGraph
