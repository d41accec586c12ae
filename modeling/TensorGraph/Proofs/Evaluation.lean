/-
  What the data nodes of a graph hold.

  A `Semantics` says what each operator makes of what it reads, and what the data nodes hold that
  nothing makes.  `evaluate` follows the producers back.  The steps that it is given are enough
  because a node never needs one behind it in the topological order.

  The values of a graph are the one solution of the equations of its operators: `evaluate` is a
  solution (`solves_evaluate`), and there is no other (`Solves.unique`).  So a rewrite keeps what
  operators receive if some solution of the new graph gives them what they received before.

  Nothing is said about the values themselves: they may be tensors, grids of exact numbers or terms,
  and the operators may make of them what they like, but the same each time.
-/
import TensorGraph.Proofs.Graph.View

namespace TensorGraph

open TensorGraph.Graph

/-- What operators make, and what data without a producer holds. -/
structure Semantics (V : Type) where
  /-- What an operator makes at an output port, from its operation and what it reads at each of its
  input ports. -/
  result : NodeId → Operation → (Nat → Option V) → Nat → V
  source : NodeId → V

namespace Semantics

variable {V α : Type} (S : Semantics V)

/-- What a data node holds, if its value needs at most so many producers in a row. -/
def evaluateIn (g : Graph α) : Nat → NodeId → V
  | 0, data => S.source data
  | steps + 1, data =>
    match g.producer? data with
    | none => S.source data
    | some port =>
      match g.operator? port.node with
      | none => S.source data
      | some o =>
        S.result port.node o.operation
          (fun i => (g.feeding? ⟨port.node, i⟩).map (evaluateIn g steps)) port.index

/-- What a data node holds. -/
def evaluate (g : Graph α) : NodeId → V :=
  S.evaluateIn g g.nodes.length

/-- What an operator receives at an input port. -/
def received (g : Graph α) (port : InputPort) : Option V :=
  (g.feeding? port).map (S.evaluate g)

/-- The values satisfy the equations of the operators. -/
structure Solves (v : View α) (value : NodeId → V) : Prop where
  made : ∀ port data o, v.output port = some data → v.operator port.node = some o →
    value data = S.result port.node o.operation (fun i => (v.input ⟨port.node, i⟩).map value)
      port.index
  unmade : ∀ data, v.kind data = some .data → (∀ port, v.output port ≠ some data) →
    value data = S.source data

variable {S} {g : Graph α} (hg : g.WellFormed)
include hg

/-- What a producer reads comes before what it makes. -/
theorem read_before {port : OutputPort} {data d : NodeId} {i : Nat}
    (hmade : g.view.output port = some data) (hread : g.view.input ⟨port.node, i⟩ = some d) :
    g.kind? d = some .data ∧ g.topologicalOrder.idxOf d < g.topologicalOrder.idxOf data := by
  have hrank := hg.ranked_view.mpr hg.ranked_topologicalOrder
  refine ⟨(hg.view_input_kinds hread).2, ?_⟩
  exact Nat.lt_trans (hrank.1 _ _ hread) (hrank.2 _ _ hmade)

/-- With enough steps for the position of a node, more of them change nothing. -/
theorem evaluateIn_stable : ∀ (n m : Nat) {data : NodeId}, g.kind? data = some .data →
    g.topologicalOrder.idxOf data < n → g.topologicalOrder.idxOf data < m →
    S.evaluateIn g n data = S.evaluateIn g m data := by
  intro n
  induction n with
  | zero => intro m data _ hn; omega
  | succ n ih =>
    intro m data hdata hn hm
    obtain ⟨m, rfl⟩ : ∃ k, m = k + 1 := ⟨m - 1, by omega⟩
    rw [evaluateIn, evaluateIn]
    split
    · rfl
    · rename_i port hport
      split
      · rfl
      · have hmade := (hg.producer?_eq_some_iff hdata).mp hport
        congr 1
        funext i
        rw [← view_input_of_op (p := ⟨port.node, i⟩) (hg.view_output_kinds hmade).1]
        refine Option.map_congr fun d hd => ?_
        obtain ⟨hkind, hbefore⟩ := read_before hg hmade hd
        exact ih m hkind (by omega) (by omega)

theorem idxOf_lt_length {data : NodeId} {k : Kind} (hdata : g.kind? data = some k) :
    g.topologicalOrder.idxOf data < g.nodes.length := by
  have hlength : g.topologicalOrder.length = g.nodes.length := by
    rw [hg.topologicalOrder_perm.length_eq, ids, List.length_map]
  rw [← hlength, List.idxOf_lt_length_iff, hg.mem_topologicalOrder, hasNode, Option.isSome_iff_ne_none]
  exact View.node_ne_none_of_kind (v := g.view) hdata

/-- The values of a graph solve its equations. -/
theorem solves_evaluate : S.Solves g.view (S.evaluate g) where
  made := by
    intro port data o hmade ho
    obtain ⟨hop, hdata⟩ := hg.view_output_kinds hmade
    have hlast := idxOf_lt_length hg hdata
    obtain ⟨steps, hsteps⟩ : ∃ k, g.nodes.length = k + 1 := ⟨g.nodes.length - 1, by omega⟩
    rw [evaluate, hsteps, evaluateIn, (hg.producer?_eq_some_iff hdata).mpr hmade]
    dsimp only
    rw [show g.operator? port.node = some o from ho]
    dsimp only
    congr 1
    funext i
    rw [← view_input_of_op (p := ⟨port.node, i⟩) hop]
    refine Option.map_congr fun d hd => ?_
    obtain ⟨hkind, hbefore⟩ := read_before hg hmade hd
    exact evaluateIn_stable hg _ _ hkind (by omega) (by omega)
  unmade := by
    intro data hdata hunmade
    have hnone : g.producer? data = none := Option.eq_none_iff_forall_ne_some.mpr fun port hport =>
      hunmade port ((hg.producer?_eq_some_iff hdata).mp hport)
    rw [evaluate]
    cases g.nodes.length with
    | zero => rfl
    | succ steps => rw [evaluateIn, hnone]

/-- Two solutions agree at every data node. -/
theorem Solves.unique {value value' : NodeId → V} (h : S.Solves g.view value)
    (h' : S.Solves g.view value') {data : NodeId} (hdata : g.kind? data = some .data) :
    value data = value' data := by
  -- by induction on the position of the node, as its producer reads earlier ones
  have hall : ∀ n data, g.topologicalOrder.idxOf data < n → g.kind? data = some .data →
      value data = value' data := by
    intro n
    induction n with
    | zero => intro data hn; omega
    | succ n ih =>
      intro data hn hdata
      by_cases hunmade : ∀ port, g.view.output port ≠ some data
      · rw [h.unmade data hdata hunmade, h'.unmade data hdata hunmade]
      · obtain ⟨port, hmade⟩ : ∃ port, g.view.output port = some data := by simpa using hunmade
        obtain ⟨o, ho⟩ := kind?_eq_op.mp (hg.view_output_kinds hmade).1
        rw [h.made port data o hmade ho, h'.made port data o hmade ho]
        congr 1
        funext i
        refine Option.map_congr fun d hd => ?_
        obtain ⟨hkind, hbefore⟩ := read_before hg hmade hd
        exact ih d (by omega) hkind
  exact hall _ data (Nat.lt_succ_self _) hdata

/-- What is received can be read off any solution. -/
theorem Solves.received_eq {value : NodeId → V} (h : S.Solves g.view value) {port : InputPort}
    (hop : g.kind? port.node = some .op) :
    S.received g port = (g.view.input port).map value := by
  rw [received, view_input_of_op hop]
  refine Option.map_congr fun d hd => ?_
  rw [← view_input_of_op hop] at hd
  exact (solves_evaluate hg).unique hg h (hg.view_input_kinds hd).2

end Semantics

end TensorGraph
