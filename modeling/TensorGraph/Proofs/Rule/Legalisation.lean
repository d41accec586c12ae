/-
  Wrapping tiles keeps the meaning of a graph and makes its tiles legal.

  A tile repeats what it reads and a reshape reads it in row-major order at another shape; the other
  operators may be anything.  As long as stored shapes are true and tiles have one output, wrapping
  a tile changes what the tile itself receives and nothing else: the reshape in front of it appends
  a unit axis, the tile makes what it made with such an axis, and the reshape behind it takes it
  away.

  The invariant of a run is `Legalised`.  It speaks of the offers so far: the tiles that were
  accepted are `Wrapped`, the other operators are `Untouched`, and a tile that was declined did not
  need to be wrapped.  That a tile is not wrapped twice, and that wrapping one does not disturb
  those that are wrapped already, follows from their ranks.
-/
import TensorGraph.Proofs.Evaluation
import TensorGraph.Proofs.Reshape
import TensorGraph.Proofs.Rule.Offers
import TensorGraph.Proofs.Rule.Shapes

namespace TensorGraph

open Edit TensorGraph.Graph
open Function (update)

variable {α β : Type} {S : Semantics (Grid β)}

/-! ## Tiles and reshapes as operations on grids -/

/-- What a tile or a reshape makes at its first output, if its axis or its dimensions fit what it
reads. -/
def tiled? (op : NodeId) (operation : Operation) (inputs : Nat → Option (Grid β)) (port : Nat) :
    Option (Grid β) :=
  match operation, port with
  | .tile axis tiles, 0 => (inputs 0).bind fun t => t.tile? axis tiles
  | .reshape dims, 0 => (inputs 0).bind fun t => t.reshape? op dims
  | _, _ => none

/-- Tiles repeat, reshapes keep the elements in order, and all the rest is up to `S`. -/
def Semantics.tiling (S : Semantics (Grid β)) : Semantics (Grid β) where
  result := fun op operation inputs port =>
    (tiled? op operation inputs port).getD (S.result op operation inputs port)
  source := S.source

/-- A tile repeats its operand along an axis. -/
theorem tiling_tile {op : NodeId} {axis tiles : Nat} {inputs : Nat → Option (Grid β)} {t : Grid β}
    (hinput : inputs 0 = some t) (h : axis < t.shape.length) :
    S.tiling.result op (.tile axis tiles) inputs 0 = t.tile axis tiles h := by
  simp [Semantics.tiling, tiled?, hinput, Grid.tile?, h]

/-- A reshape lays out its operand in another shape. -/
theorem tiling_reshapeTo {op : NodeId} {shape : Shape} {inputs : Nat → Option (Grid β)} {t : Grid β}
    (hinput : inputs 0 = some t) (hdims : ∀ d ∈ shape, d < 2 ^ 63)
    (hprod : shape.prod = t.shape.prod)
    (hzero : ∀ i : Nat, shape[i]? = some 0 → t.shape[i]? = some 0) :
    S.tiling.result op (.reshapeTo shape) inputs 0 = t.reshape shape hprod := by
  have hresolve : Shape.resolve? op t.shape (shape.map Int64.ofNat) = some shape :=
    Shape.resolve?_ofNat hdims hprod hzero
  simp [Semantics.tiling, Operation.reshapeTo, tiled?, hinput, Grid.reshape?, hresolve, hprod]

section UnitAxis

variable {op : NodeId} {shape : Shape} {inputs : Nat → Option (Grid β)} {t : Grid β}
  (hshape : t.shape = shape) (hsmall : ∀ d ∈ shape, d < 2 ^ 63)
include hshape hsmall

/-- A reshape to one dimension more appends the dimension. -/
theorem tiling_append_one (hinput : inputs 0 = some t) :
    S.tiling.result op (.reshapeTo (shape ++ [1])) inputs 0 = t.appendOne := by
  subst hshape
  exact tiling_reshapeTo hinput (Shape.dims_append_one hsmall) (Grid.prod_append_one _)
    fun _ => getElem?_append_one_eq_zero.mp

/-- A reshape to one dimension less takes it away again. -/
theorem tiling_remove_one (hinput : inputs 0 = some t.appendOne) :
    S.tiling.result op (.reshapeTo shape) inputs 0 = t := by
  subst hshape
  rw [tiling_reshapeTo hinput hsmall (Grid.prod_append_one _).symm
    fun _ => getElem?_append_one_eq_zero.mpr]
  exact Grid.reshape_appendOne _

end UnitAxis

/-- The resolved shape of what an output port makes, if it makes anything. -/
def View.making (v : View α) (p : OutputPort) : Option (Option Shape) :=
  (v.output p).map v.shape

/-- The ranks of what an operator reads at its first input and makes at its first output are known,
and both are `rank`. -/
def HasRank (v : View α) (op : NodeId) (rank : Nat) : Prop :=
  ∃ inShape outShape, v.reading ⟨op, 0⟩ = some (some inShape) ∧
    v.making ⟨op, 0⟩ = some (some outShape) ∧ inShape.length = rank ∧ outShape.length = rank

/-- The rank of a tile can be read off what it reads and makes. -/
theorem hasRank_congr {v w : View α} {op : NodeId} {rank : Nat}
    (hreading : w.reading ⟨op, 0⟩ = v.reading ⟨op, 0⟩)
    (hmaking : w.making ⟨op, 0⟩ = v.making ⟨op, 0⟩) : HasRank w op rank ↔ HasRank v op rank := by
  unfold HasRank
  rw [hreading, hmaking]

/-- Known shapes are those of the data and have dimensions below `2 ^ 63`, and tiles have no output
besides the first. -/
structure TilesFit (S : Semantics (Grid β)) (g : Graph α) : Prop where
  shaped : ∀ data shape, g.view.shape data = some shape →
    (S.tiling.evaluate g data).shape = shape ∧ ∀ d ∈ shape, d < 2 ^ 63
  single : ∀ port o, g.operator? port.node = some o → o.operation.type = .tile →
    g.result? port ≠ none → port.index = 0

instance (S : Semantics (Grid β)) (g : Graph α) : Decidable (TilesFit S g) :=
  decidable_of_iff ((∀ data ∈ g.ids, ∀ shape ∈ g.view.shape data,
      (S.tiling.evaluate g data).shape = shape ∧ ∀ d ∈ shape, d < 2 ^ 63) ∧
    ∀ op ∈ g.ids, ∀ o ∈ g.operator? op, o.operation.type = .tile →
      ∀ e ∈ g.outEdges op, e.srcPort = 0) <| by
    constructor
    · rintro ⟨hshaped, hsingle⟩
      refine ⟨fun data shape hshape => ?_, fun port o ho htype hresult => ?_⟩
      · obtain ⟨content, hcontent, -⟩ := Option.bind_eq_some_iff.mp hshape
        obtain ⟨n, hn, -⟩ := Option.bind_eq_some_iff.mp hcontent
        exact hshaped data (mem_ids_of_node? hn) shape hshape
      · obtain ⟨d, hd⟩ := Option.ne_none_iff_exists'.mp hresult
        obtain ⟨e, he, -⟩ := Option.map_eq_some_iff.mp hd
        obtain ⟨hmem, hport⟩ := mem_of_edgeOutOf? he
        obtain ⟨n, hn, -⟩ := Option.bind_eq_some_iff.mp ho
        rw [← hport]
        exact hsingle port.node (mem_ids_of_node? hn) o ho htype e hmem
    · rintro ⟨hshaped, hsingle⟩
      refine ⟨fun data _ shape hshape => hshaped data shape hshape, fun op _ o ho htype e he => ?_⟩
      refine hsingle ⟨op, e.srcPort⟩ o ho htype fun hnone => ?_
      exact result?_ne_none_of_mem he hnone

/-! ## What has become of the operators -/

/-- The operator receives what it received, and the shapes around it are known as they were. -/
structure Untouched (v : View α) (value : NodeId → Grid β) (w : View α) (value' : NodeId → Grid β)
    (op : NodeId) : Prop where
  receives : ∀ i, (w.input ⟨op, i⟩).map value' = (v.input ⟨op, i⟩).map value
  reading : ∀ i, w.reading ⟨op, i⟩ = v.reading ⟨op, i⟩
  making : ∀ i, w.making ⟨op, i⟩ = v.making ⟨op, i⟩

/-- What is untouched twice is untouched. -/
theorem Untouched.trans {u v w : View α} {value value' value'' : NodeId → Grid β} {op : NodeId}
    (h : Untouched u value v value' op) (h' : Untouched v value' w value'' op) :
    Untouched u value w value'' op :=
  ⟨fun i => (h'.receives i).trans (h.receives i), fun i => (h'.reading i).trans (h.reading i),
    fun i => (h'.making i).trans (h.making i)⟩

/-- The operator is a tile that reads and makes data of rank four, and a reshape that `v₀` does not
have is the only reader of its result. -/
structure Wrapped (v₀ v : View α) (op : NodeId) : Prop where
  tile : ∃ axis tiles inference, v.operator op = some ⟨.tile axis tiles, inference⟩
  rank : HasRank v op 4
  behind : ∃ result after dims inference, v.output ⟨op, 0⟩ = some result ∧ v₀.node after = none ∧
    v.operator after = some ⟨.reshape dims, inference⟩ ∧
    ∀ q, v.input q = some result ↔ q = ⟨after, 0⟩

/-- Where `v` has come to from `v₀` with the given offers. -/
structure Legalised (S : Semantics (Grid β)) (v₀ : View α) (value₀ : NodeId → Grid β)
    (offers : List Offer) (v : View α) (value : NodeId → Grid β) : Prop where
  solves : S.tiling.Solves v value
  shaped : ∀ d s, v.shape d = some s → (value d).shape = s ∧ ∀ n ∈ s, n < 2 ^ 63
  single : ∀ op axis tiles inference, v.operator op = some ⟨.tile axis tiles, inference⟩ →
    ∀ i d, v.output ⟨op, i⟩ = some d → i = 0
  live : ∀ id, v₀.node id ≠ none → v.node id ≠ none
  operators : ∀ op o, v₀.operator op = some o → v.operator op = some o
  tiles : ∀ op axis tiles inference, v.operator op = some ⟨.tile axis tiles, inference⟩ →
    v₀.operator op = some ⟨.tile axis tiles, inference⟩
  untouched : ∀ op o, v₀.operator op = some o → ⟨[op], true⟩ ∉ offers →
    Untouched v₀ value₀ v value op
  wrapped : ∀ op, ⟨[op], true⟩ ∈ offers → Wrapped v₀ v op
  declined : ∀ op axis tiles inference, ⟨[op], false⟩ ∈ offers → ⟨[op], true⟩ ∉ offers →
    v₀.operator op = some ⟨.tile axis tiles, inference⟩ → HasRank v₀ op 3 → axis + 1 = 3

/-! ## One tile is wrapped -/

namespace TileRule

/-- What the data holds once the tile is wrapped. -/
def wrappedValue (value : NodeId → Grid β) (p : Plan) (input : NodeId) (w : Wrapping α) :
    NodeId → Grid β :=
  update (update (update value w.beforeData.id (value input).appendOne) p.result
    (value p.result).appendOne) w.afterData.id (value p.result)

section Step

variable {g : Graph α} {p : Plan} {input : NodeId} {c : Content α} {w : Wrapping α}
  {value : NodeId → Grid β}

section Value

variable (hw : w.Fresh p g.view)
include hw

/-- All old data but the result keeps its value. -/
theorem wrappedValue_old (value : NodeId → Grid β) (input : NodeId) {d : NodeId}
    (hd : g.view.node d ≠ none) (hne : d ≠ p.result) :
    wrappedValue value p input w d = value d := by
  obtain ⟨-, u₂, -, u₄⟩ := hw.unused
  have h₂ : d ≠ w.beforeData.id := fun h => hd (h ▸ u₂)
  have h₄ : d ≠ w.afterData.id := fun h => hd (h ▸ u₄)
  simp [wrappedValue, hne, h₂, h₄]

/-- The values of the new data, and of the result, which has a dimension more. -/
theorem wrappedValue_new (value : NodeId → Grid β) (input : NodeId)
    (hresult : g.view.node p.result ≠ none) :
    wrappedValue value p input w w.beforeData.id = (value input).appendOne ∧
    wrappedValue value p input w p.result = (value p.result).appendOne ∧
    wrappedValue value p input w w.afterData.id = value p.result := by
  obtain ⟨-, u₂, -, u₄⟩ := hw.unused
  have h₂ : p.result ≠ w.beforeData.id := fun h => hresult (h ▸ u₂)
  have h₄ : p.result ≠ w.afterData.id := fun h => hresult (h ▸ u₄)
  have hdata := hw.distinct.2.2.2.2.1.symm
  simp [wrappedValue, h₂.symm, h₄, hdata]

end Value

/-- The reshapes make the new data, and all other data is made where it was. -/
theorem wrapped_output_cases {q : OutputPort} {d : NodeId}
    (hq : (wrapped g.view p input c w).output q = some d) :
    (q = ⟨w.before.id, 0⟩ ∧ d = w.beforeData.id) ∨ (q = ⟨w.after.id, 0⟩ ∧ d = w.afterData.id) ∨
      g.view.output q = some d := by
  simp only [wrapped, Function.update_apply] at hq
  split at hq
  · rename_i hafter
    exact .inr (.inl ⟨hafter, (Option.some.inj hq).symm⟩)
  · split at hq
    · rename_i hbefore
      exact .inl ⟨hbefore, (Option.some.inj hq).symm⟩
    · exact .inr (.inr hq)

/-- The three operators read what they should, the readers of the tile read what is behind the
second reshape, and all other ports read what they did. -/
theorem wrapped_input_cases {q : InputPort} {d : NodeId}
    (hq : (wrapped g.view p input c w).input q = some d) :
    d = w.beforeData.id ∨ (q = ⟨w.before.id, 0⟩ ∧ d = input) ∨
      (q = ⟨w.after.id, 0⟩ ∧ d = p.result) ∨ d = w.afterData.id ∨
      (d ≠ p.result ∧ g.view.input q = some d) := by
  simp only [wrapped] at hq
  split at hq
  · exact .inl (Option.some.inj hq).symm
  split at hq
  · rename_i hbefore
    exact .inr (.inl ⟨hbefore, (Option.some.inj hq).symm⟩)
  split at hq
  · rename_i hafter
    exact .inr (.inr (.inl ⟨hafter, (Option.some.inj hq).symm⟩))
  split at hq
  · exact .inr (.inr (.inr (.inl (Option.some.inj hq).symm)))
  · rename_i hother
    exact .inr (.inr (.inr (.inr ⟨fun h => hother (h ▸ hq), hq⟩)))

section Ports

variable (hw : w.Fresh p g.view)
include hw

/-- Data is new, the result of the tile, or other data that is old. -/
theorem wrapped_data_cases (hresult : g.view.node p.result ≠ none) {d : NodeId}
    (hd : (wrapped g.view p input c w).kind d = some .data) :
    d = w.beforeData.id ∨ d = p.result ∨ d = w.afterData.id ∨
      d ≠ p.result ∧ g.view.kind d = some .data := by
  obtain ⟨n₁, -, n₃, -⟩ := wrapped_node_new hw input c hresult
  by_cases h₁ : d = w.before.id
  · rw [View.kind, h₁, n₁, Option.map_some, Node.kind, hw.before] at hd
    cases hd
  by_cases h₂ : d = w.beforeData.id
  · exact .inl h₂
  by_cases h₃ : d = w.after.id
  · rw [View.kind, h₃, n₃, Option.map_some, Node.kind, hw.after] at hd
    cases hd
  by_cases h₄ : d = w.afterData.id
  · exact .inr (.inr (.inl h₄))
  by_cases h₅ : d = p.result
  · exact .inr (.inl h₅)
  · refine .inr (.inr (.inr ⟨h₅, ?_⟩))
    simpa only [View.kind, wrapped, Function.update_apply, h₁, h₂, h₃, h₄, h₅, if_false] using hd

/-- Where an old operator reads the result of the tile it now reads what is behind the second
reshape. -/
theorem wrapped_input_old {q : InputPort} (hlive : g.view.node q.node ≠ none)
    (hq : q ≠ ⟨p.tile, 0⟩) :
    (wrapped g.view p input c w).input q =
      if g.view.input q = some p.result then some w.afterData.id else g.view.input q := by
  obtain ⟨u₁, -, u₃, -⟩ := hw.unused
  have hbefore : q ≠ ⟨w.before.id, 0⟩ := fun h => hlive (by rw [h]; exact u₁)
  have hafter : q ≠ ⟨w.after.id, 0⟩ := fun h => hlive (by rw [h]; exact u₃)
  simp [wrapped, hq, hbefore, hafter]

/-- Old operators make what they made. -/
theorem wrapped_output_old {q : OutputPort} (hlive : g.view.node q.node ≠ none) :
    (wrapped g.view p input c w).output q = g.view.output q := by
  obtain ⟨u₁, -, u₃, -⟩ := hw.unused
  have hbefore : q ≠ ⟨w.before.id, 0⟩ := fun h => hlive (by rw [h]; exact u₁)
  have hafter : q ≠ ⟨w.after.id, 0⟩ := fun h => hlive (by rw [h]; exact u₃)
  simp [wrapped, hbefore, hafter]

/-- All old data but the result keeps its shape. -/
theorem wrapped_shape_old {d : NodeId} (hd : g.view.node d ≠ none) (hne : d ≠ p.result) :
    (wrapped g.view p input c w).shape d = g.view.shape d := by
  rw [View.shape, View.content, wrapped_node_old hw input c hd hne]
  rfl

/-- The shapes of the new data, and of the result. -/
theorem wrapped_shape_new (input : NodeId) (hc : g.content? p.result = some c) :
    (wrapped g.view p input c w).shape w.beforeData.id = some (p.inShape ++ [1]) ∧
    (wrapped g.view p input c w).shape p.result = some (p.outShape ++ [1]) ∧
    (wrapped g.view p input c w).shape w.afterData.id = some p.outShape := by
  obtain ⟨hbefore, hresult, hafter⟩ := wrapped_contents hw input c hc
  rw [View.shape_of_content hbefore, View.shape_of_content hresult, View.shape_of_content hafter]
  exact ⟨rfl, rfl, rfl⟩

end Ports

/-- The plan has the shape of the operand. -/
theorem Accepted.shape_input (ha : Accepted g p input) : g.view.shape input = some p.inShape := by
  obtain ⟨c, hc, hshape⟩ := ha.before
  rw [View.shape_of_content (v := g.view) hc, hshape]

/-- The plan has the shape of the result. -/
theorem Accepted.shape_result (ha : Accepted g p input) :
    g.view.shape p.result = some p.outShape := by
  obtain ⟨c, hc, hshape⟩ := ha.after
  rw [View.shape_of_content (v := g.view) hc, hshape]

variable (hg : g.WellFormed) (ha : Accepted g p input) (hw : w.Fresh p g.view)
include hg ha hw

/-- Around the other operators shapes are known as before: the second reshape gives back the shape
of the result. -/
theorem wrapped_known (hc : g.content? p.result = some c) {op : NodeId}
    (hlive : g.view.node op ≠ none) (hop : op ≠ p.tile) :
    (∀ i, (wrapped g.view p input c w).reading ⟨op, i⟩ = g.view.reading ⟨op, i⟩) ∧
      ∀ i, (wrapped g.view p input c w).making ⟨op, i⟩ = g.view.making ⟨op, i⟩ := by
  constructor
  · intro i
    unfold View.reading
    rw [wrapped_input_old hw (q := ⟨op, i⟩) hlive fun h => hop (congrArg InputPort.node h)]
    split
    · rename_i hq
      rw [hq, Option.map_some, Option.map_some, (wrapped_shape_new hw _ hc).2.2, ha.shape_result]
    · rename_i hq
      refine Option.map_congr fun d hd => wrapped_shape_old hw (hg.live_of_input hd).2 ?_
      rintro rfl
      exact hq hd
  · intro i
    unfold View.making
    rw [wrapped_output_old hw (q := ⟨op, i⟩) hlive]
    refine Option.map_congr fun d hd => wrapped_shape_old hw (hg.live_of_output hd).2 ?_
    rintro rfl
    exact hop (congrArg OutputPort.node (hg.view_output_inj hd ha.makes))

/-- Wrapping one tile touches no other operator. -/
theorem wrapped_untouched (hc : g.content? p.result = some c) {op : NodeId}
    (hlive : g.view.node op ≠ none) (hop : op ≠ p.tile) :
    Untouched g.view value (wrapped g.view p input c w) (wrappedValue value p input w) op := by
  obtain ⟨hreading, hmaking⟩ := wrapped_known hg ha hw hc hlive hop
  refine ⟨fun i => ?_, hreading, hmaking⟩
  rw [wrapped_input_old hw (q := ⟨op, i⟩) hlive fun h => hop (congrArg InputPort.node h)]
  split
  · rename_i hq
    rw [hq, Option.map_some, Option.map_some,
      (wrappedValue_new hw _ _ (hg.live_of_output ha.makes).2).2.2]
  · rename_i hq
    refine Option.map_congr fun d hd => wrappedValue_old hw _ _ (hg.live_of_input hd).2 ?_
    rintro rfl
    exact hq hd

/-- What the tile and the new reshapes make. -/
theorem wrapped_made :
    (wrapped g.view p input c w).output ⟨w.before.id, 0⟩ = some w.beforeData.id ∧
    (wrapped g.view p input c w).output ⟨p.tile, 0⟩ = some p.result ∧
    (wrapped g.view p input c w).output ⟨w.after.id, 0⟩ = some w.afterData.id := by
  refine ⟨?_, ?_, ?_⟩
  · simp [wrapped, hw.distinct.2.1.symm]
  · rw [wrapped_output_old hw (q := ⟨p.tile, 0⟩) (hg.live_of_output ha.makes).1, ha.makes]
  · simp [wrapped]

/-- What the tile and the new reshapes read. -/
theorem wrapped_read :
    (wrapped g.view p input c w).input ⟨w.before.id, 0⟩ = some input ∧
    (wrapped g.view p input c w).input ⟨p.tile, 0⟩ = some w.beforeData.id ∧
    (wrapped g.view p input c w).input ⟨w.after.id, 0⟩ = some p.result := by
  have htile := (hg.live_of_input ha.reads).1
  obtain ⟨u₁, -, u₃, -⟩ := hw.unused
  have hbefore : w.before.id ≠ p.tile := fun h => htile (h ▸ u₁)
  have hafter : w.after.id ≠ p.tile := fun h => htile (h ▸ u₃)
  simp [wrapped, hbefore, hafter, hw.distinct.2.1]

/-- Old operators stay. -/
theorem wrapped_operator_old {op : NodeId} (hop : g.view.kind op = some .op) :
    (wrapped g.view p input c w).operator op = g.view.operator op := by
  rw [View.operator, wrapped_node_old hw input c (View.node_ne_none_of_kind hop)
    (op_ne_data hop (hg.view_output_kinds ha.makes).2)]
  rfl

variable {v₀ : View α} {value₀ : NodeId → Grid β} {offers : List Offer}
  (h : Legalised S v₀ value₀ offers g.view value)
include h

omit hg hw in
/-- The tile does with one more axis what it did without. -/
theorem tile_appendOne {o : Operator} (ho : g.operator? p.tile = some o)
    {inputs : Nat → Option (Grid β)} (hinputs : inputs 0 = some (value input).appendOne) :
    S.tiling.result p.tile o.operation inputs 0 = (value p.result).appendOne := by
  obtain ⟨axis, tiles, inference, ho', hlast⟩ := ha.operator
  obtain rfl := Option.some.inj (ho.symm.trans ho')
  have haxis : axis < (value input).shape.length := by
    rw [(h.shaped input _ ha.shape_input).1]
    omega
  have haxis' : axis < (value input).appendOne.shape.length := by
    rw [Grid.shape_appendOne, List.length_append]
    omega
  have hresult : value p.result = (value input).tile axis tiles haxis := by
    rw [h.solves.made _ _ _ ha.makes ho]
    exact tiling_tile (by rw [ha.reads, Option.map_some]) haxis
  calc S.tiling.result p.tile (.tile axis tiles) inputs 0
      = (value input).appendOne.tile axis tiles haxis' := tiling_tile hinputs haxis'
    _ = ((value input).tile axis tiles haxis).appendOne := Grid.tile_append_one haxis haxis'
    _ = (value p.result).appendOne := by rw [hresult]

/-- The values of the wrapped graph solve its equations. -/
theorem solves_wrapped (hc : g.content? p.result = some c) :
    S.tiling.Solves (wrapped g.view p input c w) (wrappedValue value p input w) := by
  obtain ⟨htile, hinput⟩ := hg.live_of_input ha.reads
  have hresult := (hg.live_of_output ha.makes).2
  obtain ⟨hvalueBefore, hvalueResult, hvalueAfter⟩ :=
    wrappedValue_new hw value input hresult
  have hvalueInput := wrappedValue_old hw value input hinput (ha.input_ne_result hg)
  obtain ⟨hin, hinSmall⟩ := h.shaped input _ ha.shape_input
  obtain ⟨hout, houtSmall⟩ := h.shaped p.result _ ha.shape_result
  obtain ⟨hreadBefore, hreadTile, hreadAfter⟩ := wrapped_read (c := c) hg ha hw
  obtain ⟨hmadeBefore, hmadeTile, hmadeAfter⟩ := wrapped_made (c := c) hg ha hw
  obtain ⟨hnodeBefore, -, hnodeAfter, -⟩ := wrapped_node_new hw input c hresult
  refine ⟨fun port d o hd ho => ?_, fun d hd hunmade => ?_⟩
  · rcases wrapped_output_cases hd with ⟨rfl, rfl⟩ | ⟨rfl, rfl⟩ | hold
    · -- the first reshape appends an axis
      rw [View.operator, hnodeBefore, Option.bind_some, Node.operator?, hw.before] at ho
      obtain rfl := Option.some.inj ho
      rw [hvalueBefore]
      refine (tiling_append_one hin hinSmall ?_).symm
      rw [hreadBefore, Option.map_some, hvalueInput]
    · -- the second one takes it away
      rw [View.operator, hnodeAfter, Option.bind_some, Node.operator?, hw.after] at ho
      obtain rfl := Option.some.inj ho
      rw [hvalueAfter]
      refine (tiling_remove_one hout houtSmall ?_).symm
      rw [hreadAfter, Option.map_some, hvalueResult]
    · obtain ⟨hop, hdata⟩ := hg.view_output_kinds hold
      rw [wrapped_operator_old hg ha hw hop] at ho
      by_cases hport : port.node = p.tile
      · obtain rfl : port = ⟨p.tile, 0⟩ := by
          obtain ⟨op, i⟩ := port
          subst hport
          obtain ⟨axis, tiles, inference, ho', -⟩ := ha.operator
          rw [h.single _ _ _ _ ho' i d hold]
        obtain rfl := Option.some.inj (hold.symm.trans ha.makes)
        rw [hvalueResult]
        refine (tile_appendOne ha h ho ?_).symm
        rw [hreadTile, Option.map_some, hvalueBefore]
      · have hne : d ≠ p.result := by
          rintro rfl
          exact hport (congrArg OutputPort.node (hg.view_output_inj hold ha.makes))
        have hlive := hg.live_of_output hold
        rw [wrappedValue_old hw _ _ hlive.2 hne, h.solves.made port d o hold ho]
        congr 1
        funext i
        exact ((wrapped_untouched hg ha hw hc hlive.1 hport).receives i).symm
  · rcases wrapped_data_cases hw hresult hd with rfl | rfl | rfl | ⟨hne, hdata⟩
    · exact absurd hmadeBefore (hunmade _)
    · exact absurd hmadeTile (hunmade _)
    · exact absurd hmadeAfter (hunmade _)
    · rw [wrappedValue_old hw _ _ (View.node_ne_none_of_kind hdata) hne]
      refine h.solves.unmade d hdata fun port hport => hunmade port ?_
      rwa [wrapped_output_old hw (hg.live_of_output hport).1]

/-- Appending an axis keeps the shapes true. -/
theorem shaped_wrapped (hc : g.content? p.result = some c) {d : NodeId} {s : Shape}
    (hd : (wrapped g.view p input c w).shape d = some s) :
    (wrappedValue value p input w d).shape = s ∧ ∀ n ∈ s, n < 2 ^ 63 := by
  have hresult := (hg.live_of_output ha.makes).2
  obtain ⟨hvalueBefore, hvalueResult, hvalueAfter⟩ :=
    wrappedValue_new hw value input hresult
  obtain ⟨hshapeBefore, hshapeResult, hshapeAfter⟩ := wrapped_shape_new hw input hc
  obtain ⟨hin, hinSmall⟩ := h.shaped input _ ha.shape_input
  obtain ⟨hout, houtSmall⟩ := h.shaped p.result _ ha.shape_result
  obtain ⟨content, hcontent, -⟩ := Option.bind_eq_some_iff.mp hd
  rcases wrapped_data_cases hw hresult (View.kind_of_content hcontent) with
    rfl | rfl | rfl | ⟨hne, hdata⟩
  · obtain rfl := Option.some.inj (hd.symm.trans hshapeBefore)
    rw [hvalueBefore, Grid.shape_appendOne, hin]
    exact ⟨rfl, Shape.dims_append_one hinSmall⟩
  · obtain rfl := Option.some.inj (hd.symm.trans hshapeResult)
    rw [hvalueResult, Grid.shape_appendOne, hout]
    exact ⟨rfl, Shape.dims_append_one houtSmall⟩
  · obtain rfl := Option.some.inj (hd.symm.trans hshapeAfter)
    rw [hvalueAfter]
    exact ⟨hout, houtSmall⟩
  · have hlive := View.node_ne_none_of_kind hdata
    rw [wrappedValue_old hw _ _ hlive hne]
    rw [wrapped_shape_old hw hlive hne] at hd
    exact h.shaped d s hd

/-- The tile is wrapped now. -/
theorem wrapped_tile (hc : g.content? p.result = some c) :
    Wrapped v₀ (wrapped g.view p input c w) p.tile := by
  have hresult := (hg.live_of_output ha.makes).2
  obtain ⟨-, u₂, u₃, u₄⟩ := hw.unused
  obtain ⟨-, hreadTile, hreadAfter⟩ := wrapped_read (c := c) hg ha hw
  obtain ⟨-, hmadeTile, -⟩ := wrapped_made (c := c) hg ha hw
  obtain ⟨hshapeBefore, hshapeResult, -⟩ := wrapped_shape_new hw input hc
  obtain ⟨-, -, hnodeAfter, -⟩ := wrapped_node_new hw input c hresult
  obtain ⟨hinRank, houtRank⟩ := ha.ranks
  obtain ⟨axis, tiles, inference, ho, -⟩ := ha.operator
  have ho' := wrapped_operator_old (c := c) hg ha hw (kind?_eq_op.mpr ⟨_, ho⟩)
  refine ⟨⟨axis, tiles, inference, ho'.trans ho⟩,
    ⟨p.inShape ++ [1], p.outShape ++ [1], ?_, ?_, ?_, ?_⟩,
    p.result, w.after.id, p.outShape.map Int64.ofNat, Inference.ofOperation? (.reshapeTo p.outShape),
    hmadeTile, ?_, ?_, fun q => ⟨fun hq => ?_, ?_⟩⟩
  · rw [View.reading_of_input hreadTile, hshapeBefore]
  · rw [View.making, hmadeTile, Option.map_some, hshapeResult]
  · rw [List.length_append, hinRank, List.length_singleton]
  · rw [List.length_append, houtRank, List.length_singleton]
  · exact not_not.mp fun hold => h.live _ hold u₃
  · rw [View.operator, hnodeAfter, Option.bind_some, Node.operator?, hw.after]
    rfl
  · rcases wrapped_input_cases hq with heq | ⟨-, heq⟩ | ⟨rfl, -⟩ | heq | ⟨hne, -⟩
    · exact absurd (heq ▸ u₂) hresult
    · exact absurd heq.symm (ha.input_ne_result hg)
    · rfl
    · exact absurd (heq ▸ u₄) hresult
    · exact absurd rfl hne
  · rintro rfl
    exact hreadAfter

omit hg hw h in
/-- The tile to wrap is none that is wrapped: it reads data of rank three. -/
theorem ne_tile_of_wrapped {op : NodeId} (hop : Wrapped v₀ g.view op) : op ≠ p.tile := by
  rintro rfl
  obtain ⟨inShape, outShape, hreading, -, hrank, -⟩ := hop.rank
  rw [View.reading_of_input ha.reads, ha.shape_input] at hreading
  obtain rfl := Option.some.inj (Option.some.inj hreading)
  have := ha.ranks.1
  omega

omit h in
/-- What was wrapped before still is: its data has rank four, so it is none that changes. -/
theorem wrapped_again (hc : g.content? p.result = some c) {op : NodeId}
    (hop : Wrapped v₀ g.view op) : Wrapped v₀ (wrapped g.view p input c w) op := by
  have hne := ne_tile_of_wrapped ha hop
  obtain ⟨⟨axis, tiles, inference', htile⟩, hrank, result, after, dims, inference, hmade, hnew, ho,
    hreaders⟩ := hop
  obtain ⟨hlive, hresult⟩ := hg.live_of_output hmade
  obtain ⟨hreading, hmaking⟩ := wrapped_known hg ha hw hc hlive hne
  obtain ⟨-, u₂, -, u₄⟩ := hw.unused
  -- the ranks tell its result from the data around the tile
  have hdata : result ≠ input ∧ result ≠ p.result := by
    obtain ⟨-, outShape, -, hmaking, -, hfour⟩ := hrank
    rw [View.making, hmade, Option.map_some] at hmaking
    have hshape := Option.some.inj hmaking
    obtain ⟨hin, hout⟩ := ha.ranks
    constructor
    · rintro rfl
      obtain rfl := Option.some.inj (hshape.symm.trans ha.shape_input)
      omega
    · rintro rfl
      obtain rfl := Option.some.inj (hshape.symm.trans ha.shape_result)
      omega
  have hoperator : ∀ {op o}, g.view.operator op = some o →
      (wrapped g.view p input c w).operator op = some o := fun ho => by
    rw [wrapped_operator_old hg ha hw (kind?_eq_op.mpr ⟨_, ho⟩), ho]
  refine ⟨⟨axis, tiles, inference', hoperator htile⟩,
    (hasRank_congr (hreading 0) (hmaking 0)).mpr hrank, result, after, dims, inference, ?_, hnew,
    hoperator ho, fun q => ⟨fun hq => ?_, ?_⟩⟩
  · rw [wrapped_output_old hw (q := ⟨op, 0⟩) hlive, hmade]
  · rcases wrapped_input_cases hq with heq | ⟨-, heq⟩ | ⟨-, heq⟩ | heq | ⟨-, hread⟩
    · exact absurd (heq ▸ u₂) hresult
    · exact absurd heq hdata.1
    · exact absurd heq hdata.2
    · exact absurd (heq ▸ u₄) hresult
    · exact (hreaders q).mp hread
  · rintro rfl
    have hread := (hreaders _).mpr rfl
    rw [wrapped_input_old hw (q := ⟨after, 0⟩) (hg.live_of_input hread).1, if_neg, hread]
    · rw [hread]
      exact fun heq => hdata.2 (Option.some.inj heq)
    · intro heq
      rw [heq, ha.reads] at hread
      exact hdata.1 (Option.some.inj hread).symm

/-- Wrapping a tile keeps the invariant. -/
theorem legalised_wrapped (hc : g.content? p.result = some c) :
    Legalised S v₀ value₀ (⟨[p.tile], true⟩ :: offers) (wrapped g.view p input c w)
      (wrappedValue value p input w) := by
  have hresult := (hg.live_of_output ha.makes).2
  have hold : ∀ op axis tiles inference,
      (wrapped g.view p input c w).operator op = some ⟨.tile axis tiles, inference⟩ →
        g.view.operator op = some ⟨.tile axis tiles, inference⟩ := by
    intro op axis tiles inference ho
    rcases wrapped_operator hw input c hresult ho with ⟨-, heq⟩ | ⟨-, heq⟩ | hold
    · cases heq
    · cases heq
    · exact hold
  refine ⟨solves_wrapped hg ha hw h hc, fun d s hd => shaped_wrapped hg ha hw h hc hd,
    fun op axis tiles inference ho i d hd => ?_, fun id hid => ?_, fun op o ho => ?_,
    fun op axis tiles inference ho => h.tiles op axis tiles inference (hold _ _ _ _ ho),
    fun op o ho hoffers => ?_, fun op hop => ?_, fun op axis tiles inference hop hoffers => ?_⟩
  · have ho := hold _ _ _ _ ho
    rw [wrapped_output_old hw (q := ⟨op, i⟩) (View.node_ne_none_of_operator ho)] at hd
    exact h.single op axis tiles inference ho i d hd
  · by_cases heq : id = p.result
    · subst heq
      exact View.node_ne_none_of_kind
        (View.kind_of_content (wrapped_contents hw input c hc).2.1)
    · rw [wrapped_node_old hw input c (h.live id hid) heq]
      exact h.live id hid
  · have ho := h.operators op o ho
    rw [wrapped_operator_old hg ha hw (kind?_eq_op.mpr ⟨_, ho⟩), ho]
  · rw [List.mem_cons, not_or] at hoffers
    have hlive := View.node_ne_none_of_operator (h.operators op o ho)
    refine (h.untouched op o ho hoffers.2).trans (wrapped_untouched hg ha hw hc hlive ?_)
    rintro rfl
    exact hoffers.1 rfl
  · rcases List.mem_cons.mp hop with heq | hop
    · cases heq
      exact wrapped_tile hg ha hw h hc
    · exact wrapped_again hg ha hw hc (h.wrapped op hop)
  · rw [List.mem_cons, not_or] at hoffers
    refine h.declined op axis tiles inference ?_ hoffers.2
    exact (List.mem_cons.mp hop).resolve_left (by simp)

end Step

/-! ## The other tiles -/

/-- A tile that is declined tiles the last axis, or the ranks around it are others. -/
theorem plan_declined {g : Graph α} {m : Match} {note : Option String}
    (h : plan m g = .error (.decline note)) {tile : NodeId} (hm : m.get "tile" = .ok tile)
    {axis tiles : Nat} {inference : Option Inference}
    (ho : g.operator? tile = some ⟨.tile axis tiles, inference⟩) (hrank : HasRank g.view tile 3) :
    axis + 1 = 3 := by
  obtain ⟨inShape, outShape, hreading, hmaking, hin, hout⟩ := hrank
  obtain ⟨input, hinput, hinShape⟩ := Option.map_eq_some_iff.mp hreading
  obtain ⟨result, hresult, houtShape⟩ := Option.map_eq_some_iff.mp hmaking
  obtain ⟨before, hbefore, hknown⟩ := Option.bind_eq_some_iff.mp hinShape
  obtain ⟨after, hafter, hknown'⟩ := Option.bind_eq_some_iff.mp houtShape
  have hop := kind?_eq_op.mpr ⟨_, ho⟩
  rw [view_input_of_op hop] at hinput
  rw [view_output_of_op hop] at hresult
  rw [plan] at h
  obtain ⟨tile', htile, h⟩ := planning_bind_eq_decline.mp h
  obtain rfl := Except.ok.inj (hm.symm.trans htile)
  obtain ⟨o, ho', h⟩ := planning_bind_eq_decline.mp h
  obtain rfl := Option.some.inj (ho.symm.trans (operator_eq_ok.mp ho'))
  obtain ⟨input', hinput', h⟩ := planning_bind_eq_decline.mp h
  obtain rfl := Option.some.inj (hinput.symm.trans (operand_eq_ok.mp hinput'))
  rw [hresult] at h
  obtain ⟨before', hbefore', h⟩ := planning_bind_eq_decline.mp h
  obtain rfl := Option.some.inj (hbefore.symm.trans (content_eq_ok.mp hbefore'))
  obtain ⟨after', hafter', h⟩ := planning_bind_eq_decline.mp h
  obtain rfl := Option.some.inj (hafter.symm.trans (content_eq_ok.mp hafter'))
  rw [hknown, hknown'] at h
  dsimp only at h
  rw [hin, hout] at h
  split at h
  · rename_i hothers
    exact absurd hothers (by decide)
  split at h
  · cases h
  split at h
  · rename_i hlast
    exact hlast
  · obtain ⟨n, -, h⟩ := planning_bind_eq_decline.mp h
    cases h

/-- Declining a tile keeps the invariant. -/
theorem legalised_declined {g : Graph α} {v₀ : View α} {value₀ value : NodeId → Grid β}
    {offers : List Offer} (h : Legalised S v₀ value₀ offers g.view value) {m : Match}
    {note : Option String} (hplan : plan m g = .error (.decline note)) {tile : NodeId}
    (hm : m.get "tile" = .ok tile) :
    Legalised S v₀ value₀ (⟨[tile], false⟩ :: offers) g.view value := by
  have haccepted : ∀ op, (⟨[op], true⟩ : Offer) ∈ ⟨[tile], false⟩ :: offers →
      ⟨[op], true⟩ ∈ offers := fun op hop => (List.mem_cons.mp hop).resolve_left (by simp)
  refine ⟨h.solves, h.shaped, h.single, h.live, h.operators, h.tiles, fun op o ho hnot => ?_,
    fun op hop => h.wrapped op (haccepted op hop), fun op axis tiles inference hop hnot ho hrank => ?_⟩
  · exact h.untouched op o ho fun hold => hnot (List.mem_cons_of_mem _ hold)
  · have hnot : ⟨[op], true⟩ ∉ offers := fun hold => hnot (List.mem_cons_of_mem _ hold)
    rcases List.mem_cons.mp hop with heq | hop
    · -- the ranks around the tile are those of the start
      cases heq
      have huntouched := h.untouched tile _ ho hnot
      exact plan_declined hplan hm (h.operators _ _ ho)
        ((hasRank_congr (huntouched.reading 0) (huntouched.making 0)).mpr hrank)
    · exact h.declined op axis tiles inference hop hnot ho hrank

/-! ## Whole runs -/

def tileDescription : PatternDescription :=
  ⟨[⟨"tile", .operator .tile⟩], []⟩

/-- A match names one tile. -/
theorem nodes_of_fits {g : Graph α} {m : Match} (h : m.Fits tileDescription g) :
    ∃ tile, m.get "tile" = .ok tile ∧ m.nodes = [tile] := by
  obtain ⟨bindings⟩ := m
  have hroles : bindings.map (·.1) = ["tile"] := h.roles
  obtain ⟨⟨name, tile⟩, rest, rfl, rfl, hrest⟩ := List.map_eq_cons_iff.mp hroles
  obtain rfl := List.map_eq_nil_iff.mp hrest
  exact ⟨tile, rfl, rfl⟩

/-- Every tile is a match. -/
theorem fits_tile {g : Graph α} {tile axis tiles : Nat} {inference : Option Inference}
    (ho : g.operator? tile = some ⟨.tile axis tiles, inference⟩) :
    Match.Fits ⟨[("tile", tile)]⟩ tileDescription g := by
  obtain ⟨n, hn, hpayload⟩ := View.operator_eq_some_iff (v := g.view).mp ho
  refine ⟨rfl, List.nodup_singleton tile, fun role hrole => ?_, fun e he => by cases he⟩
  obtain rfl := List.mem_singleton.mp hrole
  refine ⟨tile, n, rfl, hn, ?_⟩
  simp [Predicate.holds, Predicate.operator, Check.holds, Node.kind, Node.opcode?, Node.operator?,
    hpayload, Operation.type]

end TileRule

/-- The graph is where it has come to from `g₀` with the given offers. -/
def LegalisedFrom (S : Semantics (Grid β)) (g₀ : Graph α) (offers : List Offer) (g : Graph α) :
    Prop :=
  g.WellFormed ∧ ∃ value, Legalised S g₀.view (S.tiling.evaluate g₀) offers g.view value

/-- An offer legalises its tile or declines it. -/
theorem TileRule.runs_replace {g₀ : Graph α} {pat : Pattern} (hpat : pattern = .ok pat)
    (offers : List Offer) (s : Session α) (m : Match) (hs : LegalisedFrom S g₀ offers s.graph)
    (hm : m ∈ pat.allMatches s.graph) :
    Runs (replace m) s (fun replaced => LegalisedFrom S g₀ (⟨m.nodes, replaced⟩ :: offers))
      fun _ => True := by
  obtain ⟨hg, value, h⟩ := hs
  obtain ⟨tile, htile, hnodes⟩ := nodes_of_fits ((Pattern.mem_allMatches_iff hg hpat).mp hm)
  rw [hnodes]
  refine runs_planThenCommit (fun planned hplan notes => ?_) (fun note hplan => ?_)
    fun _ _ => trivial
  · obtain ⟨hget, input, ha⟩ := plan_eq_ok hplan
    obtain rfl := Except.ok.inj (htile.symm.trans hget)
    refine runs_commit hg ha fun g' c w hc hw hg' hview =>
      ⟨hg', wrappedValue value planned input w, ?_⟩
    rw [hview]
    exact legalised_wrapped hg ha hw h hc
  · exact ⟨hg, value, legalised_declined h hplan htile⟩

/-- Before any offer everything is as it was. -/
theorem TilesFit.legalised {g : Graph α} (hg : g.WellFormed) (h : TilesFit S g) :
    Legalised S g.view (S.tiling.evaluate g) [] g.view (S.tiling.evaluate g) where
  solves := Semantics.solves_evaluate hg
  shaped := h.shaped
  single := by
    intro op axis tiles inference ho i d hd
    refine h.single ⟨op, i⟩ _ ho rfl ?_
    rw [← view_output_of_op (hg.view_output_kinds hd).1, hd]
    exact Option.some_ne_none d
  live := fun _ hid => hid
  operators := fun _ _ ho => ho
  tiles := fun _ _ _ _ ho => ho
  untouched := fun _ _ _ _ => ⟨fun _ => rfl, fun _ => rfl, fun _ => rfl⟩
  wrapped := fun _ hop => absurd hop List.not_mem_nil
  declined := fun _ _ _ _ hop => absurd hop List.not_mem_nil

/-- If the run succeeds, all that matches in the end has been offered. -/
theorem TileRule.runs_rule [Scalar α] {g : Graph α} (hg : g.WellFormed) (hfit : TilesFit S g)
    {limit : Nat} {notes : List LogEntry} :
    Runs (rule.run limit) ⟨g, notes⟩ (fun outcome g' =>
      LegalisedFrom S g outcome.offers.reverse g' ∧
        ∀ m, Match.Fits m tileDescription g' → ∃ o ∈ outcome.offers, o.nodes = m.nodes)
      fun _ => True := by
  refine runs_bind (runs_attempt (fun pat hpat notes => ?_) fun _ _ => trivial)
  refine runs_bind ((Rule.runs_offerRound (fun _ _ _ => trivial) (runs_replace hpat)
    (s := ⟨g, notes⟩) ⟨hg, _, hfit.legalised hg⟩).imp (fun recorded g' h notes => runs_pure ?_)
    fun _ hE => hE)
  obtain ⟨hlegalised, hnone⟩ := h
  refine ⟨hlegalised, fun m hm => ?_⟩
  have hskip := skip_of_firstMatch?_eq_none hlegalised.1 hpat hnone hm
  simpa using hskip

/-- A tile that kernels accept: it is the tile it was, what it reads and makes has rank four, known
and in fact, and a new reshape is the only reader of its result. -/
structure LegalTile (S : Semantics (Grid β)) (g g' : Graph α) (tile : NodeId) : Prop where
  operator : ∃ axis tiles inference, g.operator? tile = some ⟨.tile axis tiles, inference⟩ ∧
    g'.operator? tile = some ⟨.tile axis tiles, inference⟩
  rank : HasRank g'.view tile 4
  reads : ∃ t, S.tiling.received g' ⟨tile, 0⟩ = some t ∧ t.shape.length = 4
  makes : ∃ result, g'.result? ⟨tile, 0⟩ = some result ∧
    (S.tiling.evaluate g' result).shape.length = 4 ∧
    ∃ after dims inference, g.node? after = none ∧
      g'.operator? after = some ⟨.reshape dims, inference⟩ ∧
      ∀ q, q ∈ g'.readers result ↔ q = ⟨after, 0⟩

/-- A tile that was legalised is legal at the end. -/
theorem Legalised.legalTile {g g' : Graph α} (hg' : g'.WellFormed) {offers : List Offer}
    {value : NodeId → Grid β}
    (h : Legalised S g.view (S.tiling.evaluate g) offers g'.view value) {tile : NodeId}
    (htile : ⟨[tile], true⟩ ∈ offers) : LegalTile S g g' tile := by
  obtain ⟨⟨axis, tiles, inference, ho⟩, hrank, result, after, dims, inference', hmade, hnew, hafter,
    hreaders⟩ := h.wrapped tile htile
  obtain ⟨hop, hdata⟩ := hg'.view_output_kinds hmade
  have hknown := hrank
  obtain ⟨inShape, outShape, hreading, hmaking, hin, hout⟩ := hknown
  refine ⟨⟨axis, tiles, inference, h.tiles _ _ _ _ ho, ho⟩, hrank, ?_, result, ?_, ?_, after, dims,
    inference', hnew, hafter, fun q => ?_⟩
  · obtain ⟨input, hinput, hshape⟩ := Option.map_eq_some_iff.mp hreading
    refine ⟨value input, ?_, ?_⟩
    · rw [h.solves.received_eq hg' hop, hinput, Option.map_some]
    · rw [(h.shaped input _ hshape).1, hin]
  · rw [← view_output_of_op hop, hmade]
  · rw [View.making, hmade, Option.map_some] at hmaking
    rw [(Semantics.solves_evaluate hg').unique hg' h.solves hdata,
      (h.shaped result _ (Option.some.inj hmaking)).1, hout]
  · rw [hg'.mem_readers_iff hdata, hreaders q]

/-- Wrapping tiles changes what the wrapped tiles receive and nothing else.  The wrapped tiles are
legal, nothing is removed, and no tile is left that should have been wrapped. -/
theorem run_legalises_tiles [Scalar α] {g : Graph α} (hg : Reachable g) (hfit : TilesFit S g)
    {limit : Nat} {notes : List LogEntry} {outcome : Outcome} {s : Session α}
    (hrun : TileRule.rule.run limit ⟨g, notes⟩ = .ok outcome s) :
    (∀ id, g.node? id ≠ none → s.graph.node? id ≠ none) ∧
    (∀ op o, g.operator? op = some o → ⟨[op], true⟩ ∉ outcome.offers →
      s.graph.operator? op = some o ∧
        ∀ i, S.tiling.received s.graph ⟨op, i⟩ = S.tiling.received g ⟨op, i⟩) ∧
    (∀ tile, ⟨[tile], true⟩ ∈ outcome.offers → LegalTile S g s.graph tile) ∧
    ∀ op axis tiles inference, s.graph.operator? op = some ⟨.tile axis tiles, inference⟩ →
      HasRank s.graph.view op 3 → axis + 1 = 3 := by
  have hg := hg.wellFormed
  obtain ⟨⟨hg', value, h⟩, hoffered⟩ := (TileRule.runs_rule hg hfit).of_ok hrun
  refine ⟨h.live, fun op o ho hnot => ?_, fun tile htile => ?_,
    fun op axis tiles inference ho hrank => ?_⟩
  · have ho' := h.operators op o ho
    refine ⟨ho', fun i => ?_⟩
    have huntouched := h.untouched op o ho (by rwa [List.mem_reverse])
    calc S.tiling.received s.graph ⟨op, i⟩
        = (s.graph.view.input ⟨op, i⟩).map value :=
          h.solves.received_eq hg' (kind?_eq_op.mpr ⟨o, ho'⟩)
      _ = (g.view.input ⟨op, i⟩).map (S.tiling.evaluate g) := huntouched.receives i
      _ = S.tiling.received g ⟨op, i⟩ :=
          ((Semantics.solves_evaluate hg).received_eq hg (kind?_eq_op.mpr ⟨o, ho⟩)).symm
  · exact h.legalTile hg' (List.mem_reverse.mpr htile)
  · have hnot : ⟨[op], true⟩ ∉ outcome.offers.reverse := by
      intro hop
      obtain ⟨inShape, -, hreading, -, hthree, -⟩ := hrank
      obtain ⟨inShape', -, hreading', -, hfour, -⟩ := (h.wrapped op hop).rank
      obtain rfl := Option.some.inj (Option.some.inj (hreading.symm.trans hreading'))
      omega
    have ho₀ := h.tiles op axis tiles inference ho
    have huntouched := h.untouched op _ ho₀ hnot
    obtain ⟨o, hmem, hnodes⟩ := hoffered _ (TileRule.fits_tile ho)
    refine h.declined op axis tiles inference ?_ hnot ho₀
      ((hasRank_congr (huntouched.reading 0) (huntouched.making 0)).mp hrank)
    obtain ⟨nodes, replaced⟩ := o
    obtain rfl : nodes = [op] := hnodes
    cases replaced with
    | false => exact List.mem_reverse.mpr hmem
    | true => exact absurd (List.mem_reverse.mpr hmem) hnot

/-- Two tiles in a row, and one of the last axis, which all have an output as a reader. -/
def tiledCommands : List (Command Float) :=
  [.addOperator "x" .parameter, .addOperator "first" (.tile 0 2), .addOperator "second" (.tile 1 3),
    .addOperator "last" (.tile 2 2), .addOperator "out" .output,
    .link ⟨0, 0⟩ ⟨1, 0⟩, .link ⟨1, 0⟩ ⟨2, 0⟩, .link ⟨2, 0⟩ ⟨4, 0⟩, .link ⟨1, 0⟩ ⟨4, 1⟩,
    .link ⟨0, 0⟩ ⟨3, 0⟩, .link ⟨3, 0⟩ ⟨4, 2⟩,
    .modifyContent 5 fun c => { c with shape := some [2, 2, 3] }, .inferAll]

/-- Everything but tiles and reshapes makes a grid whose entries are their indices. -/
def cells : Semantics (Grid (List Nat)) where
  result := fun _ _ _ _ => .tabulate [2, 2, 3] id
  source := fun _ => .tabulate [2, 2, 3] id

/-- Two of the three tiles are wrapped; the output receives what it received. -/
theorem tiledCommands_legal :
    Reachable (runCommands .nchw tiledCommands) ∧
    TilesFit cells (runCommands .nchw tiledCommands) ∧
    ∃ outcome s, TileRule.rule.run 10 ⟨runCommands .nchw tiledCommands, []⟩ = .ok outcome s ∧
      outcome.offers = [⟨[1], true⟩, ⟨[3], false⟩, ⟨[2], true⟩] ∧
      LegalTile cells (runCommands .nchw tiledCommands) s.graph 2 ∧
      ((cells.tiling.received s.graph ⟨4, 0⟩).map fun t => (t.shape, t.entry [3, 4, 2])) =
        some ([4, 6, 3], some [1, 0, 2]) := by
  have hfit : TilesFit cells (runCommands .nchw tiledCommands) := by decide +kernel
  have hoffers : (match TileRule.rule.run 10 ⟨runCommands .nchw tiledCommands, []⟩ with
      | .ok outcome _ => decide (outcome.offers = [⟨[1], true⟩, ⟨[3], false⟩, ⟨[2], true⟩])
      | .error _ _ => false) = true := by
    decide +kernel
  split at hoffers
  case h_2 => cases hoffers
  rename_i outcome s hrun
  have hoffers := of_decide_eq_true hoffers
  obtain ⟨-, hkept, hlegal, -⟩ := run_legalises_tiles ⟨_, _, rfl⟩ hfit hrun
  have hout : ((runCommands .nchw tiledCommands).operator? 4).isSome := by decide +kernel
  obtain ⟨o, ho⟩ := Option.isSome_iff_exists.mp hout
  refine ⟨⟨_, _, rfl⟩, hfit, outcome, s, hrun, hoffers, hlegal 2 ?_, ?_⟩
  · rw [hoffers]
    decide
  · rw [(hkept 4 o ho (by rw [hoffers]; decide)).2 0]
    decide +kernel

end TensorGraph
