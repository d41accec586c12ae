/-
  The rules keep the shapes of a graph consistent.

  For each rule, the graph that an accepted commit leaves is compared with the one before: the
  operators that the rule does not touch read and write the shapes they did, and the others are
  settled again.

  Each section has the same course.  The plan has compared shapes (`Measured`, where it has), so the
  shapes around the match are known; lemmas say which operators and which content are there after
  the commit (`wrapped_operator`, `fused_content`, `copied_node_eq_some`); and `Kept.step`, or its
  cases for single edits, gives the result: `kept_wrapped` for tiles, `kept_cancelled` and
  `kept_fused` for permutes, `kept_fused` for multiplications, and `runs_commit_kept` for slices.
-/
import TensorGraph.Proofs.Rule.Multiplier
import TensorGraph.Proofs.Rule.Permute
import TensorGraph.Proofs.Rule.Slice
import TensorGraph.Proofs.Rule.Tile
import TensorGraph.Proofs.Shaped

namespace TensorGraph

open Edit TensorGraph.Graph
open Function (update)

variable {α : Type} {v₀ : View α} {g : Graph α}

/-! ## Tiles -/

namespace TileRule

variable {p : Plan} {input : NodeId} {c : Content α} {w : Wrapping α}

section Wrapped

variable {v : View α} (hw : w.Fresh p v) (input : NodeId) (c : Content α)
include hw

/-- Wrapping a tile leaves all nodes but its result as they are. -/
theorem wrapped_node_old {d : NodeId} (hd : v.node d ≠ none) (hresult : d ≠ p.result) :
    (wrapped v p input c w).node d = v.node d := by
  obtain ⟨h₁, h₂, h₃, h₄⟩ := hw.unused
  have hne : d ≠ w.before.id ∧ d ≠ w.beforeData.id ∧ d ≠ w.after.id ∧ d ≠ w.afterData.id :=
    ⟨fun h => hd (h ▸ h₁), fun h => hd (h ▸ h₂), fun h => hd (h ▸ h₃), fun h => hd (h ▸ h₄)⟩
  simp [wrapped, hresult, hne]

/-- The four new nodes, as long as the result of the tile is an old one. -/
theorem wrapped_node_new (hresult : v.node p.result ≠ none) :
    (wrapped v p input c w).node w.before.id = some w.before ∧
    (wrapped v p input c w).node w.beforeData.id = some w.beforeData ∧
    (wrapped v p input c w).node w.after.id = some w.after ∧
    (wrapped v p input c w).node w.afterData.id = some w.afterData := by
  obtain ⟨h₁, h₂, h₃, h₄⟩ := hw.unused
  obtain ⟨n₁, n₂, n₃, n₄, n₅, n₆⟩ := hw.distinct
  have hne : w.before.id ≠ p.result ∧ w.beforeData.id ≠ p.result ∧ w.after.id ≠ p.result ∧
      w.afterData.id ≠ p.result :=
    ⟨fun h => hresult (h ▸ h₁), fun h => hresult (h ▸ h₂), fun h => hresult (h ▸ h₃),
      fun h => hresult (h ▸ h₄)⟩
  simp [wrapped, hne, n₁.symm, n₂.symm, n₃.symm, n₄.symm, n₅.symm, n₆.symm]

/-- The new data, and what becomes of the result of the tile. -/
theorem wrapped_contents (hc : v.content p.result = some c) :
    (wrapped v p input c w).content w.beforeData.id =
      some ⟨some (p.inShape ++ [1]), none, p.inType⟩ ∧
    (wrapped v p input c w).content p.result =
      some { c with shape := some (p.outShape ++ [1]) } ∧
    (wrapped v p input c w).content w.afterData.id = some ⟨some p.outShape, none, p.outType⟩ := by
  obtain ⟨n, hn, -⟩ := View.content_eq_some_iff.mp hc
  have hresult : v.node p.result ≠ none := by
    rw [hn]
    exact Option.some_ne_none n
  obtain ⟨-, n₂, -, n₄⟩ := wrapped_node_new hw input c hresult
  refine ⟨?_, ?_, ?_⟩
  · rw [View.content, n₂, Option.bind_some, Node.content?, hw.beforeData]
  · simp [View.content, wrapped, hn, Node.content?]
  · rw [View.content, n₄, Option.bind_some, Node.content?, hw.afterData]

/-- A node is one of the new ones, the result of the tile or an old one. -/
theorem wrapped_node_eq_some {d : NodeId} {n : Node α} (hresult : v.node p.result ≠ none)
    (h : (wrapped v p input c w).node d = some n) :
    (d = w.before.id ∧ n = w.before) ∨ n = w.beforeData ∨ (d = w.after.id ∧ n = w.after) ∨
      n = w.afterData ∨ n.payload = .data { c with shape := some (p.outShape ++ [1]) } ∨
      v.node d = some n := by
  obtain ⟨n₁, n₂, n₃, n₄⟩ := wrapped_node_new hw input c hresult
  by_cases h₁ : d = w.before.id
  · rw [h₁, n₁] at h
    exact .inl ⟨h₁, (Option.some.inj h).symm⟩
  by_cases h₂ : d = w.beforeData.id
  · rw [h₂, n₂] at h
    exact .inr (.inl (Option.some.inj h).symm)
  by_cases h₃ : d = w.after.id
  · rw [h₃, n₃] at h
    exact .inr (.inr (.inl ⟨h₃, (Option.some.inj h).symm⟩))
  by_cases h₄ : d = w.afterData.id
  · rw [h₄, n₄] at h
    exact .inr (.inr (.inr (.inl (Option.some.inj h).symm)))
  by_cases h₅ : d = p.result
  · simp only [wrapped, h₅, Function.update_self] at h
    obtain ⟨n', -, rfl⟩ := Option.map_eq_some_iff.mp h
    exact .inr (.inr (.inr (.inr (.inl rfl))))
  · simp only [wrapped, Function.update_apply, h₁, h₂, h₃, h₄, h₅, if_false] at h
    exact .inr (.inr (.inr (.inr (.inr h))))

/-- Old data is made where it was. -/
theorem wrapped_output {q : OutputPort} {d : NodeId} (hlive : v.node d ≠ none)
    (hq : (wrapped v p input c w).output q = some d) : v.output q = some d := by
  obtain ⟨-, u₂, -, u₄⟩ := hw.unused
  simp only [wrapped, Function.update_apply] at hq
  split at hq
  · exact absurd (Option.some.inj hq ▸ u₄) hlive
  · split at hq
    · exact absurd (Option.some.inj hq ▸ u₂) hlive
    · exact hq

/-- The operators of a wrapped tile are two reshapes and those that were there. -/
theorem wrapped_operator {op : NodeId} {o : Operator} (hresult : v.node p.result ≠ none)
    (h : (wrapped v p input c w).operator op = some o) :
    (op = w.before.id ∧ o = .ofOperation (.reshapeTo (p.inShape ++ [1]))) ∨
      (op = w.after.id ∧ o = .ofOperation (.reshapeTo p.outShape)) ∨ v.operator op = some o := by
  obtain ⟨n, hn, ho⟩ := View.operator_eq_some_iff.mp h
  rcases wrapped_node_eq_some hw input c hresult hn with
    ⟨hop, rfl⟩ | rfl | ⟨hop, rfl⟩ | rfl | hdata | hold
  · cases hw.before.symm.trans ho
    exact .inl ⟨hop, rfl⟩
  · cases hw.beforeData.symm.trans ho
  · cases hw.after.symm.trans ho
    exact .inr (.inl ⟨hop, rfl⟩)
  · cases hw.afterData.symm.trans ho
  · cases hdata.symm.trans ho
  · exact .inr (.inr (View.operator_eq_some_iff.mpr ⟨n, hold, ho⟩))

/-- The new data has no value, and neither has the result of the tile. -/
theorem wrapped_content {d : NodeId} {c' : Content α} (hresult : v.node p.result ≠ none)
    (hvalue : c.value = none) (h : (wrapped v p input c w).content d = some c') :
    c'.value = none ∨ v.content d = some c' := by
  obtain ⟨n, hn, hc⟩ := View.content_eq_some_iff.mp h
  rcases wrapped_node_eq_some hw input c hresult hn with
    ⟨-, rfl⟩ | rfl | ⟨-, rfl⟩ | rfl | hdata | hold
  · cases hw.before.symm.trans hc
  · cases hw.beforeData.symm.trans hc
    exact .inl rfl
  · cases hw.after.symm.trans hc
  · cases hw.afterData.symm.trans hc
    exact .inl rfl
  · cases hdata.symm.trans hc
    exact .inl hvalue
  · exact .inr (View.content_eq_some_iff.mpr ⟨n, hold, hc⟩)

end Wrapped

/-- What consistency says about the shapes in an accepted plan. -/
structure Measured (g : Graph α) (p : Plan) (input : NodeId) (c : Content α)
    (axis tiles : Nat) (inference : Option Inference) : Prop where
  operator : g.operator? p.tile = some ⟨.tile axis tiles, inference⟩
  default : inference = some .tile
  shape : g.view.shape input = some p.inShape
  axis : ∃ dim, p.inShape[axis]? = some dim ∧ dim * tiles < wordLimit ∧
    p.outShape = p.inShape.set axis (dim * tiles)
  stored : c.shape = some p.outShape
  value : c.value = none
  fits : p.inShape.Fits ∧ p.outShape.Fits

/-- A tile that is accepted has shapes that fit its axis. -/
theorem Accepted.measured (ha : Accepted g p input) (h : Kept v₀ g.view)
    (hc : g.content? p.result = some c) :
    ∃ axis tiles inference, Measured g p input c axis tiles inference := by
  obtain ⟨axis, tiles, inference, ho, -⟩ := ha.operator
  obtain ⟨before, hbefore, hin⟩ := ha.before
  obtain ⟨after, hafter, hout⟩ := ha.after
  obtain rfl : c = after := Option.some.inj (hc.symm.trans hafter)
  have hlegal := h.legal p.tile _ ho
  have hshape : g.view.shape input = some p.inShape :=
    Option.bind_eq_some_iff.mpr ⟨before, hbefore, hin⟩
  have hreading : g.view.reading ⟨p.tile, 0⟩ = some (some p.inShape) := by
    rw [View.reading_of_input ha.reads, hshape]
  have hwriting : g.view.writing ⟨p.tile, 0⟩ = some c.shape := View.writing_of_output ha.makes hc
  obtain ⟨s, ⟨inShape, dim, hinShape, hdim, hlt, rfl⟩, hstores⟩ := hlegal.settled
  obtain rfl : p.inShape = inShape := Option.some.inj (Option.some.inj (hreading.symm.trans hinShape))
  have hstored : c.shape = some (p.inShape.set axis (dim * tiles)) := hstores _ hwriting
  have houtShape : p.outShape = p.inShape.set axis (dim * tiles) := by
    rw [Content.knownShape, hstored] at hout
    exact (Option.some.inj hout).symm
  rw [← houtShape] at hstored
  refine ⟨axis, tiles, inference, ho, hlegal.default, hshape, ⟨dim, hdim, hlt, houtShape⟩, hstored,
    ?_, (hlegal.fits rfl).1 _ hreading, (hlegal.fits rfl).2 _ (hwriting.trans (congrArg some hstored))⟩
  exact h.valued.value_eq_none hc ha.makes ho (by simp)

section Seen

variable {axis tiles : Nat} {inference : Option Inference} (hg : g.WellFormed)
  (ha : Accepted g p input) (hw : w.Fresh p g.view)
include hg ha hw

/-- The three operators read and write what a wrapped tile should. -/
theorem wrapped_ports (hm : Measured g p input c axis tiles inference)
    (hc : g.content? p.result = some c) :
    ((wrapped g.view p input c w).reading ⟨w.before.id, 0⟩ = some (some p.inShape) ∧
      (wrapped g.view p input c w).writing ⟨w.before.id, 0⟩ = some (some (p.inShape ++ [1]))) ∧
    ((wrapped g.view p input c w).reading ⟨p.tile, 0⟩ = some (some (p.inShape ++ [1])) ∧
      (wrapped g.view p input c w).writing ⟨p.tile, 0⟩ = some (some (p.outShape ++ [1]))) ∧
    ((wrapped g.view p input c w).reading ⟨w.after.id, 0⟩ = some (some (p.outShape ++ [1])) ∧
      (wrapped g.view p input c w).writing ⟨w.after.id, 0⟩ = some (some p.outShape)) := by
  obtain ⟨htile, hinput⟩ := hg.live_of_input ha.reads
  obtain ⟨u₁, -, u₃, -⟩ := hw.unused
  have hbefore : w.before.id ≠ p.tile := fun h => htile (h ▸ u₁)
  have hafter : w.after.id ≠ p.tile := fun h => htile (h ▸ u₃)
  have hops := hw.distinct.2.1
  obtain ⟨hbeforeContent, hresultContent, hafterContent⟩ := wrapped_contents hw input c hc
  have hinputShape : (wrapped g.view p input c w).shape input = some p.inShape := by
    rw [← hm.shape, View.shape, View.content, wrapped_node_old hw _ _ hinput (ha.input_ne_result hg)]
    rfl
  refine ⟨⟨?_, ?_⟩, ⟨?_, ?_⟩, ?_, ?_⟩
  · rw [View.reading_of_input (d := input) (by simp [wrapped, hbefore]), hinputShape]
  · exact View.writing_of_output (by simp [wrapped, hops.symm]) hbeforeContent
  · rw [View.reading_of_input (d := w.beforeData.id) (by simp [wrapped]),
      View.shape_of_content hbeforeContent]
    rfl
  · exact View.writing_of_output
      (by simp [wrapped, hbefore.symm, hafter.symm, ha.makes]) hresultContent
  · rw [View.reading_of_input (d := p.result) (by simp [wrapped, hafter, hops]),
      View.shape_of_content hresultContent]
    rfl
  · exact View.writing_of_output (by simp [wrapped]) hafterContent

/-- The tile sees one more axis, behind the one that it repeats. -/
theorem legal_wrapped_tile (hm : Measured g p input c axis tiles inference)
    (hc : g.content? p.result = some c) :
    Legal (wrapped g.view p input c w) p.tile ⟨.tile axis tiles, inference⟩ := by
  obtain ⟨-, ⟨hreading, hwriting⟩, -⟩ := wrapped_ports hg ha hw hm hc
  obtain ⟨dim, hdim, hlt, hout⟩ := hm.axis
  have haxis : axis < p.inShape.length := (List.getElem?_eq_some_iff.mp hdim).1
  refine ⟨hm.default, ⟨p.outShape ++ [1], ⟨p.inShape ++ [1], dim, hreading, ?_, hlt, ?_⟩, ?_⟩,
    fun _ => ⟨fun s hs => ?_, fun s hs => ?_⟩⟩
  · rw [List.getElem?_append_left haxis, hdim]
  · rw [hout, List.set_append_left _ _ haxis]
  · rw [hwriting]
    exact stores_some _
  · obtain rfl := Option.some.inj (Option.some.inj (hreading.symm.trans hs))
    exact hm.fits.1.append_one
  · obtain rfl := Option.some.inj (Option.some.inj (hwriting.symm.trans hs))
    exact hm.fits.2.append_one

/-- The other operators see no change. -/
theorem wrapped_seen (hm : Measured g p input c axis tiles inference)
    (hc : g.content? p.result = some c) {op : NodeId} (hlive : g.view.node op ≠ none)
    (hop : op ≠ p.tile) :
    (∀ i, (wrapped g.view p input c w).reading ⟨op, i⟩ = g.view.reading ⟨op, i⟩) ∧
      (wrapped g.view p input c w).writing ⟨op, 0⟩ = g.view.writing ⟨op, 0⟩ := by
  obtain ⟨u₁, -, u₃, -⟩ := hw.unused
  have hbefore : op ≠ w.before.id := fun h => hlive (h ▸ u₁)
  have hafter : op ≠ w.after.id := fun h => hlive (h ▸ u₃)
  have hold : ∀ {d}, g.view.node d ≠ none → d ≠ p.result →
      (wrapped g.view p input c w).content d = g.view.content d := fun hd hne =>
    congrArg (Option.bind · Node.content?) (wrapped_node_old hw input c hd hne)
  refine ⟨fun i => ?_, ?_⟩
  · by_cases hq : g.view.input ⟨op, i⟩ = some p.result
    · -- the readers of the tile read the same shape behind the second reshape
      obtain ⟨-, -, hcontent⟩ := wrapped_contents hw input c hc
      rw [View.reading_of_input hq, View.shape_of_content (v := g.view) hc, Content.knownShape,
        hm.stored,
        View.reading_of_input (d := w.afterData.id) (by simp [wrapped, hop, hbefore, hafter, hq]),
        View.shape_of_content hcontent]
      rfl
    · refine reading_congr (by simp [wrapped, hop, hbefore, hafter, hq]) fun d hd => ?_
      exact hold (hg.live_of_input hd).2 fun h => hq (h ▸ hd)
  · refine writing_congr (by simp [wrapped, hbefore, hafter]) fun d hd => ?_
    refine hold (hg.live_of_output hd).2 ?_
    rintro rfl
    exact hop (congrArg OutputPort.node (hg.view_output_inj hd ha.makes))

end Seen

/-- Wrapping a tile keeps what is known about shapes. -/
theorem kept_wrapped (hg : g.WellFormed) (ha : Accepted g p input) (h : Kept v₀ g.view)
    (hc : g.content? p.result = some c) (hw : w.Fresh p g.view) :
    Kept v₀ (wrapped g.view p input c w) := by
  obtain ⟨axis, tiles, inference, hm⟩ := ha.measured h hc
  obtain ⟨hbefore, -, hafter⟩ := wrapped_ports hg ha hw hm hc
  have hresult := (hg.live_of_output ha.makes).2
  refine h.step (fun op o ho => ?_) (h.valued.step (fun d c' value hc' hvalue => ?_)
    (fun q d hq hold => ?_) fun q d inference _ hconst => ?_)
  · rcases wrapped_operator hw input c hresult ho with ⟨rfl, rfl⟩ | ⟨rfl, rfl⟩ | hold
    · refine .inr (Legal.inner rfl ⟨p.inShape ++ [1], ⟨p.inShape, hbefore.1, ?_⟩, ?_⟩ ?_)
      · exact resolveReshape_append_one hm.fits.1
      · rw [hbefore.2]
        exact stores_some _
      · simp [Operator.ofOperation, Operation.reshapeTo, Operation.type]
    · refine .inr (Legal.inner rfl ⟨p.outShape, ⟨p.outShape ++ [1], hafter.1, ?_⟩, ?_⟩ ?_)
      · exact resolveReshape_remove_one hm.fits.2
      · rw [hafter.2]
        exact stores_some _
      · simp [Operator.ofOperation, Operation.reshapeTo, Operation.type]
    · have hlive := View.node_ne_none_of_operator hold
      by_cases hop : op = p.tile
      · subst hop
        obtain rfl := Option.some.inj (hold.symm.trans hm.operator)
        exact .inr ⟨legal_wrapped_tile hg ha hw hm hc, by simp [AtBoundary, Operation.type]⟩
      · obtain ⟨hreading, hwriting⟩ := wrapped_seen hg ha hw hm hc hlive hop
        exact .inl ⟨hold, hreading, (h.legal op o hold).congr hreading hwriting⟩
  · rcases wrapped_content hw input c hresult hm.value hc' with hnone | hold
    · rw [hnone] at hvalue
      cases hvalue
    · exact hold
  · obtain ⟨c', hc'⟩ := Option.ne_none_iff_exists'.mp hold
    exact wrapped_output hw input c (View.node_ne_none_of_kind (View.kind_of_content hc')) hq
  · rw [View.operator, wrapped_node_old hw input c (View.node_ne_none_of_operator hconst)
      (op_ne_data (kind?_eq_op.mpr ⟨_, hconst⟩) (hg.view_output_kinds ha.makes).2)]
    exact hconst

end TileRule

/-! ## Permutes -/

namespace PermuteRule

variable {p : Plan}

/-- What consistency says about the shapes in an accepted plan. -/
structure Measured (g : Graph α) (p : Plan) (inShape outShape : Shape) : Prop where
  input : g.view.shape p.input = some inShape
  last : g.view.shape p.last = some outShape
  lastShape : p.lastShape = some outShape
  composed : p.composed.permute? inShape = some outShape

/-- A settled permute, the shape it reads and the one it writes. -/
theorem permute_shapes {v : View α} {op input result : NodeId} {order : List Nat}
    {inference : Option Inference} {c : Content α} {q : Permutation} (h : Shaped v)
    (ho : v.operator op = some ⟨.permute order, inference⟩) (hq : axisOrder op order = .ok q)
    (hreads : v.input ⟨op, 0⟩ = some input) (hmakes : v.output ⟨op, 0⟩ = some result)
    (hc : v.content result = some c) :
    ∃ s t, v.shape input = some s ∧ q.permute? s = some t ∧ c.shape = some t ∧
      v.shape result = some t := by
  obtain ⟨t, ⟨s, q', hreading, hq', ht⟩, hstores⟩ := (h.legal op _ ho).settled
  obtain rfl := Option.some.inj ((axisOrder_eq_ok.mp hq).symm.trans hq')
  have hshape : v.shape input = some s :=
    Option.some.inj ((View.reading_of_input hreads).symm.trans hreading)
  have hstored : c.shape = some t := hstores _ (View.writing_of_output hmakes hc)
  refine ⟨s, t, hshape, ht, hstored, ?_⟩
  rw [View.shape_of_content hc, Content.knownShape, hstored]
  rfl

/-- Permutes that are accepted have shapes that fit their orders. -/
theorem Accepted.measured (hg : g.WellFormed) (ha : Accepted g p) (h : Shaped g.view) :
    ∃ inShape outShape, Measured g p inShape outShape := by
  obtain ⟨order₁, order₂, inference₁, inference₂, q₁, q₂, ho₁, ho₂, hq₁, hq₂, hcomposed⟩ := ha.orders
  obtain ⟨last, hlast, hlastShape⟩ := ha.last
  obtain ⟨mid, hmid⟩ := kind?_eq_data.mp (hg.view_output_kinds ha.makes_mid).2
  obtain ⟨s, t, hs, ht, -, hmidShape⟩ :=
    permute_shapes h ho₁ hq₁ ha.reads_input ha.makes_mid hmid
  obtain ⟨t', u, ht', hu, hstored, hlastResolved⟩ :=
    permute_shapes h ho₂ hq₂ ha.reads_mid ha.makes_last hlast
  obtain rfl : t = t' := Option.some.inj (hmidShape.symm.trans ht')
  exact ⟨s, u, hs, hlastResolved, hlastShape ▸ hstored,
    Permutation.permute?_compose? hcomposed ht hu⟩

/-- Cancelling permutes keeps what is known about shapes. -/
theorem kept_cancelled (hg : g.WellFormed) (ha : Accepted g p) (h : Kept v₀ g.view)
    (hidentity : p.composed.isIdentity = true) : Kept v₀ (cancelled g.view p) := by
  obtain ⟨s, t, hm⟩ := ha.measured hg h.toShaped
  obtain ⟨⟨-, -, -, n₄⟩, -⟩ := ha.distinct hg
  have hsame : g.view.shape p.input = g.view.shape p.last := by
    rw [hm.input, hm.last, Permutation.permute?_of_isIdentity hidentity hm.composed]
  have hmoved : ∀ {q d}, (g.view.moveReaders p.last p.input).input q = some d →
      g.kind? d = some .data ∧ d ≠ p.last := fun {q d} hq => by
    rcases View.moveReaders_input_iff.mp hq with ⟨-, rfl⟩ | ⟨hlast, hq⟩
    · exact ⟨(hg.view_input_kinds ha.reads_input).2, n₄⟩
    · exact ⟨(hg.view_input_kinds hq).2, hlast⟩
  obtain ⟨hfirst, -⟩ := hg.view_output_kinds ha.makes_mid
  obtain ⟨hsecond, -⟩ := hg.view_output_kinds ha.makes_last
  have h₁ := h.moveReaders hsame
  have h₂ : Kept v₀ ((g.view.moveReaders p.last p.input).erase p.second) := by
    refine h₁.erase (fun q hq => ?_) fun q o hq _ => ?_
    · exact op_ne_data hsecond (hmoved hq).1 rfl
    · exact absurd rfl (op_ne_data hsecond (hg.view_output_kinds hq).2)
  have h₃ : Kept v₀ (detached g.view p p.input) := by
    refine h₂.erase (fun q hq => ?_) fun q o hq _ => ?_
    · exact (hmoved (View.erase_input_iff.mp hq).2.2).2 rfl
    · obtain ⟨hnode, -, hq⟩ := View.erase_output_iff.mp hq
      exact absurd (congrArg OutputPort.node (hg.view_output_inj hq ha.makes_last)) hnode
  have h₄ : Kept v₀ ((detached g.view p p.input).erase p.mid) := by
    refine h₃.erase (ha.mid_unread hg) fun q o hq ho => ?_
    simp only [detached, View.erase_output_iff] at hq
    obtain rfl := hg.view_output_inj hq.2.2.2.2 ha.makes_mid
    obtain ⟨order, _, inference, _, _, _, hpermute, -⟩ := ha.orders
    have hold := (erase_operator_eq_some (erase_operator_eq_some ho).2).2
    obtain rfl := Option.some.inj (hpermute.symm.trans hold)
    simp
  refine h₄.erase (fun q hq => ?_) fun q o hq _ => ?_
  · simp only [detached, View.erase_input_iff] at hq
    exact op_ne_data hfirst (hmoved hq.2.2.2.2.2.2).1 rfl
  · simp only [detached, View.erase_output_iff] at hq
    exact absurd rfl (op_ne_data hfirst (hg.view_output_kinds hq.2.2.2.2.2.2).2)

section Fused

variable {v : View α} {o : Operator} {c : Content α}

/-- The nodes besides the four that fusing touches. -/
theorem fused_node_other {d : NodeId} (hfirst : d ≠ p.first) (hmid : d ≠ p.mid)
    (hsecond : d ≠ p.second) (hlast : d ≠ p.last) : (fused v p o c).node d = v.node d := by
  simp [fused, detached, View.setPayload, hfirst, hmid, hsecond, hlast]

/-- A node is the fused permute, its result or an old one. -/
theorem fused_node_eq_some {d : NodeId} {n : Node α} (h : (fused v p o c).node d = some n) :
    (d = p.first ∧ n.payload = .op { o with operation := .permute p.composed.order }) ∨
      (d = p.mid ∧ n.payload = .data { c with shape := p.lastShape }) ∨
      (d ≠ p.first ∧ d ≠ p.second ∧ d ≠ p.last ∧ v.node d = some n) := by
  by_cases hmid : d = p.mid
  · rw [hmid, fused, View.setPayload, View.setNode_node, Function.update_self] at h
    obtain ⟨n', -, rfl⟩ := Option.map_eq_some_iff.mp h
    exact .inr (.inl ⟨hmid, rfl⟩)
  rw [fused, View.setPayload, View.setNode_node, Function.update_of_ne hmid] at h
  by_cases hfirst : d = p.first
  · rw [hfirst, View.setPayload, View.setNode_node, Function.update_self] at h
    obtain ⟨n', -, rfl⟩ := Option.map_eq_some_iff.mp h
    exact .inl ⟨hfirst, rfl⟩
  rw [View.setPayload, View.setNode_node, Function.update_of_ne hfirst] at h
  simp only [detached, View.erase_node, View.moveReaders_node, Function.update_apply] at h
  split at h
  · cases h
  · rename_i hlast
    split at h
    · cases h
    · rename_i hsecond
      exact .inr (.inr ⟨hfirst, hsecond, hlast, h⟩)

/-- The operators after two permutes are joined. -/
theorem fused_operator {op : NodeId} {o' : Operator} (h : (fused v p o c).operator op = some o') :
    (op = p.first ∧ o' = { o with operation := .permute p.composed.order }) ∨
      (op ≠ p.first ∧ op ≠ p.second ∧ v.operator op = some o') := by
  obtain ⟨n, hn, ho⟩ := View.operator_eq_some_iff.mp h
  rcases fused_node_eq_some hn with ⟨hop, hfused⟩ | ⟨-, hdata⟩ | ⟨hfirst, hsecond, -, hold⟩
  · cases hfused.symm.trans ho
    exact .inl ⟨hop, rfl⟩
  · cases hdata.symm.trans ho
  · exact .inr ⟨hfirst, hsecond, View.operator_eq_some_iff.mpr ⟨n, hold, ho⟩⟩

/-- The content after two permutes are joined. -/
theorem fused_content {d : NodeId} {c' : Content α} (h : (fused v p o c).content d = some c') :
    c' = { c with shape := p.lastShape } ∨ v.content d = some c' := by
  obtain ⟨n, hn, hc⟩ := View.content_eq_some_iff.mp h
  rcases fused_node_eq_some hn with ⟨-, hfused⟩ | ⟨-, hdata⟩ | ⟨-, -, -, hold⟩
  · cases hfused.symm.trans hc
  · cases hdata.symm.trans hc
    exact .inl rfl
  · exact .inr (View.content_eq_some_iff.mpr ⟨n, hold, hc⟩)

variable (hg : g.WellFormed) (ha : Accepted g p)
include hg ha

/-- The data in between gets the last shape. -/
theorem fused_content_mid (hc : g.content? p.mid = some c) :
    (fused g.view p o c).content p.mid = some { c with shape := p.lastShape } := by
  obtain ⟨-, ⟨n₅, -, -⟩, ⟨n₈, n₉⟩, -⟩ := ha.distinct hg
  obtain ⟨n, hn, -⟩ := Option.bind_eq_some_iff.mp hc
  simp [fused, detached, View.content, View.setPayload, n₅.symm, n₈, n₉,
    show g.view.node p.mid = some n from hn, Node.content?]

/-- Every port that stays reads the shape that it read. -/
theorem fused_reading {inShape outShape : Shape} (hm : Measured g p inShape outShape)
    (hc : g.content? p.mid = some c) {q : InputPort} (hq : q.node ≠ p.second) :
    (fused g.view p o c).reading q = g.view.reading q := by
  obtain ⟨-, -, ⟨n₈, n₉⟩, -⟩ := ha.distinct hg
  cases hinput : g.view.input q with
  | none =>
    have hnone : (fused g.view p o c).input q = none := by
      simp [fused, detached, View.setPayload, hinput]
    rw [View.reading, hnone, View.reading, hinput]
    rfl
  | some d =>
    obtain ⟨hop, hdata⟩ := hg.view_input_kinds hinput
    have hlast : q.node ≠ p.last := op_ne_data hop (hg.view_output_kinds ha.makes_last).2
    by_cases hd : d = p.last
    · subst hd
      have hmoved : (fused g.view p o c).input q = some p.mid := by
        simp [fused, detached, View.setPayload, hinput, hq, hlast, n₈, n₉]
      rw [View.reading_of_input hinput, hm.last, View.reading_of_input hmoved,
        View.shape_of_content (fused_content_mid hg ha hc), Content.knownShape, hm.lastShape]
      rfl
    · have hfirst : d ≠ p.first := (op_ne_data (hg.view_output_kinds ha.makes_mid).1 hdata).symm
      have hsecond : d ≠ p.second := (op_ne_data (hg.view_output_kinds ha.makes_last).1 hdata).symm
      -- what is between the permutes was read by the second one only
      have hmid : d ≠ p.mid := by
        rintro rfl
        exact hq (congrArg InputPort.node (ha.one_reader q hinput))
      refine reading_congr ?_ fun e he => ?_
      · simp [fused, detached, View.setPayload, hinput, hq, hlast, hd, hsecond]
      · obtain rfl := Option.some.inj (hinput.symm.trans he)
        exact congrArg (Option.bind · Node.content?) (fused_node_other hfirst hmid hsecond hd)

/-- Every other operator makes the shape that it made. -/
theorem fused_writing {op : NodeId} (hfirst : op ≠ p.first) (hsecond : op ≠ p.second)
    (hlive : g.kind? op = some .op) :
    (fused g.view p o c).writing ⟨op, 0⟩ = g.view.writing ⟨op, 0⟩ := by
  obtain ⟨hop₁, -⟩ := hg.view_output_kinds ha.makes_mid
  obtain ⟨hop₂, hlastData⟩ := hg.view_output_kinds ha.makes_last
  have hother : ∀ {d}, g.view.output ⟨op, 0⟩ = some d →
      d ≠ p.first ∧ d ≠ p.mid ∧ d ≠ p.second ∧ d ≠ p.last := by
    intro d hd
    have hdata := (hg.view_output_kinds hd).2
    refine ⟨(op_ne_data hop₁ hdata).symm, ?_, (op_ne_data hop₂ hdata).symm, ?_⟩
    · rintro rfl
      exact hfirst (congrArg OutputPort.node (hg.view_output_inj hd ha.makes_mid))
    · rintro rfl
      exact hsecond (congrArg OutputPort.node (hg.view_output_inj hd ha.makes_last))
  refine writing_congr ?_ fun d hd => ?_
  · cases houtput : g.view.output ⟨op, 0⟩ with
    | none => simp [fused, detached, View.setPayload, houtput]
    | some d =>
      obtain ⟨-, -, hd₂, hd₃⟩ := hother houtput
      simp [fused, detached, View.setPayload, houtput, hsecond, op_ne_data hlive hlastData, hd₂, hd₃]
  · obtain ⟨h₁, h₂, h₃, h₄⟩ := hother hd
    exact congrArg (Option.bind · Node.content?) (fused_node_other h₁ h₂ h₃ h₄)

/-- Joining permutes keeps what is known about shapes. -/
theorem kept_fused (h : Kept v₀ g.view) (ho : g.operator? p.first = some o)
    (hc : g.content? p.mid = some c) : Kept v₀ (fused g.view p o c) := by
  obtain ⟨s, t, hm⟩ := ha.measured hg h.toShaped
  obtain ⟨-, ⟨n₅, n₆, n₇⟩, ⟨n₈, n₉⟩, -⟩ := ha.distinct hg
  obtain ⟨order, _, inference, _, _, _, hpermute, -⟩ := ha.orders
  obtain rfl := Option.some.inj (hpermute.symm.trans ho)
  have hvalueless : c.value = none := h.valued.value_eq_none hc ha.makes_mid ho (by simp)
  have hmade : ∀ {q d}, (fused g.view p ⟨.permute order, inference⟩ c).output q = some d →
      q.node ≠ p.last ∧ q.node ≠ p.second ∧ g.view.output q = some d := fun {q d} hq => by
    have hq' : (detached g.view p p.mid).output q = some d := hq
    simp only [detached, View.erase_output_iff] at hq'
    exact ⟨hq'.1, hq'.2.2.1, hq'.2.2.2.2⟩
  refine h.step (fun op o' ho' => ?_) (h.valued.step (fun d c' value hc' hvalue => ?_)
    (fun q d hq _ => ?_) fun q d inference' hq hconst => ?_)
  · rcases fused_operator ho' with ⟨rfl, rfl⟩ | ⟨hfirst, hsecond, hold⟩
    · have hmakes : (fused g.view p ⟨.permute order, inference⟩ c).output ⟨p.first, 0⟩ =
          some p.mid := by
        simp [fused, detached, View.setPayload, ha.makes_mid, n₆, n₇, n₈, n₉]
      refine .inr (Legal.inner (h.legal _ _ ho).default
        ⟨t, ⟨s, p.composed, ?_, ?_, hm.composed⟩, ?_⟩ (by simp [Operation.type]))
      · exact (fused_reading (q := ⟨p.first, 0⟩) hg ha hm hc n₆).trans
          ((View.reading_of_input ha.reads_input).trans (congrArg some hm.input))
      · exact Permutation.ofOrder?_eq_some_iff.mpr rfl
      · rw [View.writing_of_output hmakes (fused_content_mid hg ha hc), hm.lastShape]
        exact stores_some t
    · have hreading : ∀ i, (fused g.view p ⟨.permute order, inference⟩ c).reading ⟨op, i⟩ =
          g.view.reading ⟨op, i⟩ := fun i => fused_reading hg ha hm hc hsecond
      exact .inl ⟨hold, hreading, (h.legal op o' hold).congr hreading
        (fused_writing hg ha hfirst hsecond (kind?_eq_op.mpr ⟨o', hold⟩))⟩
  · rcases fused_content hc' with rfl | hold
    · rw [show ({ c with shape := p.lastShape } : Content α).value = none from hvalueless] at hvalue
      cases hvalue
    · exact hold
  · exact (hmade hq).2.2
  · obtain ⟨hlast, hsecond, hq⟩ := hmade hq
    have hfirst : q.node ≠ p.first := fun heq => by
      rw [heq] at hconst
      cases ho.symm.trans hconst
    have hmid : q.node ≠ p.mid :=
      op_ne_data (hg.view_output_kinds hq).1 (hg.view_output_kinds ha.makes_mid).2
    rw [View.operator, fused_node_other hfirst hmid hsecond hlast]
    exact hconst

end Fused

end PermuteRule

/-! ## Multiplications -/

namespace MultiplierRule

/-- New thresholds keep what is known about shapes, if nothing reads their shape. -/
theorem kept_stored {v : View α} {values : List (NodeId × Tensor α)} (h : Kept v₀ v)
    (hvalues : ∀ t ∈ values, (∃ c old, v.content t.1 = some c ∧ c.value = some old) ∧
      ∀ q, v.input q = some t.1 →
        ∃ o, v.operator q.node = some o ∧ Indifferent o.operation q.index) :
    Kept v₀ (stored v values) := by
  induction values generalizing v with
  | nil => exact h
  | cons t values ih =>
    obtain ⟨⟨⟨c, old, hc, hold⟩, hreaders⟩, hrest⟩ := List.forall_mem_cons.mp hvalues
    refine ih (h.store hc hold hreaders) fun t' ht' => ?_
    obtain ⟨⟨c', old', hc', hold'⟩, hreaders'⟩ := hrest t' ht'
    refine ⟨?_, by simpa using hreaders'⟩
    by_cases hsame : t'.1 = t.1
    · rw [hsame]
      exact ⟨_, t.2, View.store_content_self hc, rfl⟩
    · rw [View.store_content_of_ne hsame]
      exact ⟨c', old', hc', hold'⟩

variable {p : Plan α} {tensor multiplier : NodeId} {shape : Shape}

/-- The product has the shape of the tensor: the multiplier does not enlarge it. -/
theorem Accepted.shape_product (ha : Accepted g p tensor multiplier shape) (hg : g.WellFormed)
    (h : Shaped g.view) : g.view.shape p.product = some shape := by
  obtain ⟨inference, ho⟩ := ha.mul
  obtain ⟨product, hproduct⟩ := kind?_eq_data.mp (hg.view_output_kinds ha.makes).2
  obtain ⟨c, hc, hshape⟩ := ha.tensor
  obtain ⟨c', value, hc', hvalue, habsorbs⟩ := ha.multiplier
  have htensor : g.view.reading ⟨p.mul, p.tensorPort⟩ = some (some shape) := by
    rw [View.reading_of_input ha.takes_tensor, View.shape_of_content (v := g.view) hc, hshape]
  have hmultiplier : g.view.reading ⟨p.mul, 1 - p.tensorPort⟩ = some (some value.shape) := by
    rw [View.reading_of_input ha.takes_multiplier, View.shape_of_content (v := g.view) hc',
      (h.valued _ c' value hc' hvalue).1]
  obtain ⟨t, ⟨l, r, hl, hr, hbroadcast⟩, hstores⟩ := (h.legal p.mul _ ho).settled
  have hstored : product.shape = some t := hstores _ (View.writing_of_output ha.makes hproduct)
  have hkept : shape.broadcast? value.shape = some shape := by
    simpa [Shape.absorbs] using habsorbs
  have ht : t = shape := by
    obtain hport | hport : p.tensorPort = 0 ∨ p.tensorPort = 1 := by
      have := ha.port
      omega
    · rw [hport] at htensor hmultiplier
      obtain rfl : l = shape := Option.some.inj (Option.some.inj (hl.symm.trans htensor))
      obtain rfl : r = value.shape := Option.some.inj (Option.some.inj (hr.symm.trans hmultiplier))
      exact Option.some.inj (hbroadcast.symm.trans hkept)
    · rw [hport] at htensor hmultiplier
      obtain rfl : l = value.shape := Option.some.inj (Option.some.inj (hl.symm.trans hmultiplier))
      obtain rfl : r = shape := Option.some.inj (Option.some.inj (hr.symm.trans htensor))
      rw [Shape.broadcast?_comm] at hbroadcast
      exact Option.some.inj (hbroadcast.symm.trans hkept)
  rw [View.shape_of_content (v := g.view) hproduct, Content.knownShape, hstored, ht]
  rfl

/-- The values that are replaced are those of thresholds. -/
theorem Accepted.not_threshold (ha : Accepted g p tensor multiplier shape) {q : InputPort}
    {d : NodeId} (hq : g.view.input q = some d) (hport : q.node ≠ p.quantize ∨ q.index = 0) :
    ∀ t ∈ p.thresholds, d ≠ t.1 := by
  rintro t ht rfl
  obtain ⟨port, hmem, -, hone, -⟩ := ha.thresholds t ht
  rw [hone q hq] at hport
  rcases hport with hnode | hindex
  · exact hnode rfl
  · rw [show port = 0 from hindex] at hmem
    exact absurd hmem (by decide)

/-- The edits in an order in which each of them keeps the shapes: once the multiplication is gone,
the quantisation may read the tensor. -/
theorem fused_eq {v : View α} (hne : p.mul ≠ p.quantize) (htensor : tensor ≠ p.mul) :
    fused v p tensor = ((((stored v p.thresholds).erase p.mul).unplug ⟨p.quantize, 0⟩).feed tensor
      ⟨p.quantize, 0⟩).erase p.product := by
  have hinput : ((switched v p tensor).erase p.mul).input =
      ((((stored v p.thresholds).erase p.mul).unplug ⟨p.quantize, 0⟩).feed tensor
        ⟨p.quantize, 0⟩).input := by
    funext q
    simp only [switched, View.erase_input, View.feed_input, View.unplug_input,
      Function.update_apply]
    by_cases hq : q = ⟨p.quantize, 0⟩
    · simp [hq, hne.symm, htensor]
    · by_cases hq' : q = ⟨p.mul, p.tensorPort⟩ <;> simp [hq, hq', hne]
  exact congrArg (fun u : View α => u.erase p.product) (View.ext_of_iff rfl
    (fun q d => by rw [hinput]) fun q d => Iff.rfl)

/-- Folding a multiplier keeps what is known about shapes. -/
theorem kept_fused (hg : g.WellFormed) (ha : Accepted g p tensor multiplier shape)
    (h : Kept v₀ g.view) : Kept v₀ (fused g.view p tensor) := by
  obtain ⟨hmul, hproduct⟩ := hg.view_output_kinds ha.makes
  obtain ⟨-, htensor⟩ := hg.view_input_kinds ha.takes_tensor
  have hne := ha.mul_ne_quantize hg
  have htensorMul : tensor ≠ p.mul := (op_ne_data hmul htensor).symm
  -- the new thresholds are read at ports whose shape does not matter
  have h₁ : Kept v₀ (stored g.view p.thresholds) := by
    refine kept_stored h fun t ht => ?_
    obtain ⟨port, hport, -, hone, hvalue⟩ := ha.thresholds t ht
    refine ⟨hvalue, fun q hq => ?_⟩
    obtain ⟨levels, inference, ho⟩ := ha.quantize
    rw [hone q hq]
    refine ⟨_, ho, .inl ⟨levels, rfl, ?_⟩⟩
    rintro rfl
    exact absurd hport (by decide)
  have h₂ : Kept v₀ ((stored g.view p.thresholds).erase p.mul) := by
    refine h₁.erase (fun q hq => ?_) fun q o hq _ => ?_
    · rw [stored_input] at hq
      exact op_ne_data hmul (hg.view_input_kinds hq).2 rfl
    · rw [stored_output] at hq
      exact absurd rfl (op_ne_data hmul (hg.view_output_kinds hq).2)
  have hshape : ∀ {d}, d ≠ p.mul → (∀ t ∈ p.thresholds, d ≠ t.1) →
      ((stored g.view p.thresholds).erase p.mul).shape d = g.view.shape d := fun hd hnot => by
    rw [View.shape, View.erase_content_of_ne hd, View.content, stored_node_of_not_mem hnot]
    rfl
  have h₃ : Kept v₀ ((((stored g.view p.thresholds).erase p.mul).unplug ⟨p.quantize, 0⟩).feed tensor
      ⟨p.quantize, 0⟩) := by
    refine h₂.refeed ?_
    obtain ⟨c, hc, hknown⟩ := ha.tensor
    have hreads : ((stored g.view p.thresholds).erase p.mul).input ⟨p.quantize, 0⟩ =
        some p.product :=
      View.erase_input_iff.mpr ⟨hne.symm, (op_ne_data hmul hproduct).symm, by
        rw [stored_input]
        exact ha.reads⟩
    rw [View.reading_of_input hreads,
      hshape (op_ne_data hmul hproduct).symm (ha.not_threshold ha.reads (.inr rfl)),
      hshape htensorMul (ha.not_threshold ha.takes_tensor (.inl hne)),
      ha.shape_product hg h.toShaped, View.shape_of_content (v := g.view) hc, hknown]
  rw [fused_eq hne htensorMul]
  refine h₃.erase (fun q hq => ?_) fun q o hq _ => ?_
  · by_cases hport : q = ⟨p.quantize, 0⟩
    · subst hport
      rw [View.feed_input, Function.update_self] at hq
      exact ha.tensor_ne_product hg (Option.some.inj hq)
    · rw [View.feed_input, Function.update_of_ne hport, View.unplug_input,
        Function.update_of_ne hport, View.erase_input_iff, stored_input] at hq
      exact hport (ha.one_reader q hq.2.2)
  · obtain ⟨hnode, -, hq⟩ := View.erase_output_iff.mp hq
    rw [stored_output] at hq
    exact absurd (congrArg OutputPort.node (hg.view_output_inj hq ha.makes)) hnode

end MultiplierRule

/-! ## Slices -/

namespace SliceRule

/-- The node is a slice. -/
def IsSlice (v : View α) (slice : NodeId) : Prop :=
  ∃ masks inference, v.operator slice = some ⟨.stridedSlice masks, inference⟩

variable {v : View α} {slice : NodeId} {b : Bound α} {constant copy : Node α}

/-- A slice is legal whatever it reads and writes, and is not at the boundary. -/
theorem legal_slice {masks : SliceMasks} {inference : Option Inference} (hdefault : inference = none) :
    Legal v slice ⟨.stridedSlice masks, inference⟩ ∧ ¬ AtBoundary (.stridedSlice masks) :=
  Legal.inner hdefault trivial (by simp [Operation.type])

/-- Other masks keep what is known about shapes. -/
theorem kept_masks {old masks : SliceMasks} {inference : Option Inference} (h : Kept v₀ v)
    (ho : v.operator slice = some ⟨.stridedSlice old, inference⟩) :
    Kept v₀ (v.setPayload slice (.op ⟨.stridedSlice masks, inference⟩)) := by
  have hcontent : (v.setPayload slice (.op ⟨.stridedSlice masks, inference⟩)).content = v.content :=
    View.setPayload_content ho
  refine h.step (fun op o ho' => ?_) (h.valued.step (fun d c value hc _ => hcontent ▸ hc)
    (fun _ _ hq _ => hq) fun q d inference' _ hconst => ?_)
  · rw [View.setPayload_operator ho, Function.update_apply] at ho'
    split at ho'
    · rename_i hop
      obtain rfl := Option.some.inj ho'
      exact .inr (legal_slice (h.legal _ _ ho).default)
    · have hreading : ∀ i, (v.setPayload slice (.op ⟨.stridedSlice masks, inference⟩)).reading
          ⟨op, i⟩ = v.reading ⟨op, i⟩ := fun i => reading_congr rfl fun d _ => congrFun hcontent d
      exact .inl ⟨ho', hreading, (h.legal op o ho').congr hreading
        (writing_congr rfl fun d _ => congrFun hcontent d)⟩
  · have hne : q.node ≠ slice := fun heq => by
      rw [heq] at hconst
      cases ho.symm.trans hconst
    rw [View.setPayload_operator ho, Function.update_of_ne hne, hconst]

section Copied

/-- The nodes after a bound is copied. -/
theorem copied_node_eq_some {d : NodeId} {n : Node α}
    (h : (copied g.view slice b constant copy).node d = some n) :
    (d = constant.id ∧ n = constant) ∨ (d = copy.id ∧ n = copy) ∨ g.view.node d = some n := by
  simp only [copied, View.feed_node, View.unplug_node, View.produce_node, View.setNode_node,
    Function.update_apply] at h
  split at h
  · rename_i hcopy
    exact .inr (.inl ⟨hcopy, (Option.some.inj h).symm⟩)
  · split at h
    · rename_i hconstant
      exact .inl ⟨hconstant, (Option.some.inj h).symm⟩
    · exact .inr (.inr h)

variable (hcopies : Copies g.view b constant copy)
include hcopies

theorem copied_node_old {d : NodeId} (hd : g.view.node d ≠ none) :
    (copied g.view slice b constant copy).node d = g.view.node d := by
  have hconstant : d ≠ constant.id := fun heq => hd (heq ▸ hcopies.constant_unused)
  have hcopy : d ≠ copy.id := fun heq => hd (heq ▸ hcopies.copy_unused)
  simp [copied, hconstant, hcopy]

/-- The operators after a bound is copied. -/
theorem copied_operator {op : NodeId} {o : Operator}
    (ho : (copied g.view slice b constant copy).operator op = some o) :
    (op = constant.id ∧ o = .ofOperation .const) ∨ g.view.operator op = some o := by
  obtain ⟨n, hn, hpayload⟩ := View.operator_eq_some_iff.mp ho
  rcases copied_node_eq_some hn with ⟨hop, rfl⟩ | ⟨-, rfl⟩ | hold
  · cases hcopies.constant.symm.trans hpayload
    exact .inl ⟨hop, rfl⟩
  · cases hcopies.copy.symm.trans hpayload
  · exact .inr (View.operator_eq_some_iff.mpr ⟨n, hold, hpayload⟩)

/-- The content after a bound is copied. -/
theorem copied_content {d : NodeId} {c : Content α}
    (hc : (copied g.view slice b constant copy).content d = some c) :
    (d = copy.id ∧ c = .constant b.value) ∨ g.view.content d = some c := by
  obtain ⟨n, hn, hpayload⟩ := View.content_eq_some_iff.mp hc
  rcases copied_node_eq_some hn with ⟨-, rfl⟩ | ⟨hd, rfl⟩ | hold
  · cases hcopies.constant.symm.trans hpayload
  · cases hcopies.copy.symm.trans hpayload
    exact .inl ⟨hd, rfl⟩
  · exact .inr (View.content_eq_some_iff.mpr ⟨n, hold, hpayload⟩)

/-- Operators besides the slice see no change. -/
theorem copied_seen (hg : g.WellFormed) {op : NodeId} (hlive : g.view.node op ≠ none)
    (hop : op ≠ slice) :
    (∀ i, (copied g.view slice b constant copy).reading ⟨op, i⟩ = g.view.reading ⟨op, i⟩) ∧
      (copied g.view slice b constant copy).writing ⟨op, 0⟩ = g.view.writing ⟨op, 0⟩ := by
  have hconstant : op ≠ constant.id := fun heq => hlive (heq ▸ hcopies.constant_unused)
  have hold : ∀ {d}, g.view.node d ≠ none →
      (copied g.view slice b constant copy).content d = g.view.content d := fun hd =>
    congrArg (Option.bind · Node.content?) (copied_node_old hcopies hd)
  exact ⟨fun i => reading_congr (by simp [copied, hop]) fun d hd => hold (hg.live_of_input hd).2,
    writing_congr (by simp [copied, hconstant]) fun d hd => hold (hg.live_of_output hd).2⟩

/-- Copying a bound keeps what is known about shapes. -/
theorem kept_copied (hg : g.WellFormed) (h : Kept v₀ g.view) (hslice : IsSlice g.view slice) :
    Kept v₀ (copied g.view slice b constant copy) := by
  obtain ⟨masks, inference, hslice⟩ := hslice
  have hconst : (copied g.view slice b constant copy).operator constant.id =
      some (.ofOperation .const) := by
    simp [View.operator, copied, hcopies.distinct.symm, Node.operator?, hcopies.constant]
  refine h.step (fun op o ho => ?_) fun d c value hc hvalue => ?_
  · rcases copied_operator hcopies ho with ⟨rfl, rfl⟩ | hold
    · have hcontent : (copied g.view slice b constant copy).content copy.id =
          some (.constant b.value) := by
        simp [View.content, copied, Node.content?, hcopies.copy]
      refine .inr (Legal.inner rfl ⟨b.value.shape, ?_⟩ (by simp [Operator.ofOperation, Operation.type]))
      exact View.writing_of_output (by simp [copied]) hcontent
    · by_cases hop : op = slice
      · subst hop
        obtain rfl := Option.some.inj (hslice.symm.trans hold)
        exact .inr (legal_slice (h.legal _ _ hslice).default)
      · obtain ⟨hreading, hwriting⟩ :=
          copied_seen hcopies hg (View.node_ne_none_of_operator hold) hop
        exact .inl ⟨hold, hreading, (h.legal op o hold).congr hreading hwriting⟩
  · have hmade : ∀ q, (copied g.view slice b constant copy).output q = some d →
        (q = ⟨constant.id, 0⟩ ∧ d = copy.id) ∨ g.view.output q = some d := fun q hq => by
      simp only [copied, View.feed_output, View.unplug_output, View.produce_output,
        View.setNode_output, Function.update_apply] at hq
      split at hq
      · rename_i hport
        exact .inl ⟨hport, (Option.some.inj hq).symm⟩
      · exact .inr hq
    rcases copied_content hcopies hc with ⟨rfl, rfl⟩ | hold
    · cases hvalue
      refine ⟨rfl, fun q hq => ?_⟩
      rcases hmade q hq with ⟨rfl, -⟩ | hq
      · exact ⟨_, hconst⟩
      · exact absurd hcopies.copy_unused (hg.live_of_output hq).2
    · obtain ⟨hshape, hfrom⟩ := h.valued d c value hold hvalue
      refine ⟨hshape, fun q hq => ?_⟩
      rcases hmade q hq with ⟨rfl, -⟩ | hq
      · exact ⟨_, hconst⟩
      · obtain ⟨inference', ho⟩ := hfrom q hq
        refine ⟨inference', ?_⟩
        rw [View.operator, copied_node_old hcopies (hg.live_of_output hq).1]
        exact ho

end Copied

/-- Rewriting a slice keeps what is known about shapes. -/
theorem runs_commit_kept {p : Plan α} {notes : List LogEntry} {E : Graph α → Prop}
    (hg : g.WellFormed) (ha : Accepted g p) (h : Kept v₀ g.view) :
    Runs (commit p) ⟨g, notes⟩ (fun _ g' => g'.WellFormed ∧ Kept v₀ g'.view) E := by
  refine (runs_commit (I := fun v => Kept v₀ v ∧ IsSlice v p.slice) hg ha (fun o ho => ?_)
    (fun g₁ b _ hI hb hone => ?_) fun g₁ b constant copy hg₁ hI hb hcopies => ?_).imp
    (fun _ _ hI => ⟨hI.1, hI.2.1⟩) fun _ hE => hE
  · obtain ⟨masks, inference, hslice⟩ := ha.operator
    obtain rfl := Option.some.inj (hslice.symm.trans ho)
    refine ⟨kept_masks h ho, p.masks, inference, ?_⟩
    rw [View.setPayload_operator (v := g.view) ho, Function.update_self]
  · obtain ⟨hkept, masks, inference, hslice⟩ := hI
    obtain ⟨-, c, value, hc, hvalue, -⟩ := hb
    refine ⟨hkept.store hc hvalue fun q hq => ?_, masks, inference, ?_⟩
    · rw [hone q hq]
      exact ⟨_, hslice, .inr ⟨masks, rfl⟩⟩
    · rw [View.store_operator, hslice]
  · obtain ⟨hkept, masks, inference, hslice⟩ := hI
    refine ⟨kept_copied hcopies hg₁ hkept ⟨masks, inference, hslice⟩, masks, inference, ?_⟩
    rw [View.operator, copied_node_old hcopies (hg₁.live_of_input hb.1).1]
    exact hslice

end SliceRule

end TensorGraph
