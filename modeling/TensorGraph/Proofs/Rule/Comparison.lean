/-
  A fused multiplication keeps the comparison.

  Over exact numbers a quantisation of two levels compares each element with a point of its input
  range: a fixed part `t` of the way from the lower end to the upper one.  `x * f` is above that
  point exactly if `x` is above the point divided by `f`, or below it if `f` is negative, and
  folding divides the point by `f` (`Levels.cut_fold`).  So with the folded levels the quantisation
  gives for `x` what it gave for `x * f` (`Compares.fold`).

  An accepted replacement stores the folded thresholds where the old ones were, and the quantisation
  reads them there as it read the old ones, by broadcasting.

  `levels?` reads the thresholds of a quantisation off a graph, before and after
  (`Replaces.constant?`), and `fused_multiplier_keeps_comparison` joins the two halves.  The numbers
  are exact, since rounding can move a product across the point it is compared with.
-/
import TensorGraph.Proofs.Reachable
import TensorGraph.Proofs.Rule.Shapes
import Mathlib.Algebra.Field.Rat
import Mathlib.Algebra.Order.Field.Basic
import Mathlib.Algebra.Order.Ring.Rat
import Mathlib.Tactic.Ring

namespace TensorGraph

open Edit TensorGraph.Graph

/-! ## Exact numbers -/

/-- Exact numbers: nothing is rounded. -/
instance : Scalar ℚ where
  div := fun x y => x / y
  isZero := fun x => decide (x = 0)
  isNegative := fun x => decide (x < 0)
  single := id
  ofInteger := fun n => n.toInt

/-- The tensor of a constant has its elements. -/
theorem floats_of_toTensor {c : Constant ℚ} {type : ElementType} {t : Tensor ℚ}
    (h : MultiplierRule.toTensor c type = .ok t) : t.floats = .ok c.values ∧ t.shape = c.shape := by
  obtain ⟨expected, -, h⟩ := except_bind_eq_ok.mp h
  dsimp only at h
  split at h
  · cases h
  · split at h
    · cases h
      exact ⟨rfl, rfl⟩
    · cases h
      refine ⟨?_, rfl⟩
      show Except.ok (c.values.map id) = _
      rw [List.map_id]
    · cases h

/-! ## Comparing -/

/-- The point of the input range that values are compared with. -/
def Levels.cut (l : Levels ℚ) (t : ℚ) : ℚ :=
  (1 - t) * l.minIn + t * l.maxIn

/-- A quantisation of two levels gives the upper output value above the point and the lower one
below it.  At the point it may give anything. -/
structure Compares (t : ℚ) (quantise : Levels ℚ → ℚ → ℚ) : Prop where
  above : ∀ l x, l.cut t < x → quantise l x = l.maxOut
  below : ∀ l x, x < l.cut t → quantise l x = l.minOut

variable {t f x : ℚ} {l : Levels ℚ}

theorem Levels.cut_fold : (l.fold f).cut t = l.cut t / f := by
  show (1 - t) * (l.minIn / f) + t * (l.maxIn / f) = ((1 - t) * l.minIn + t * l.maxIn) / f
  ring

theorem Levels.fold_of_pos (hf : 0 < f) :
    (l.fold f).minOut = l.minOut ∧ (l.fold f).maxOut = l.maxOut := by
  have hnot : ¬ f < 0 := not_lt.mpr hf.le
  simp [Levels.fold, Scalar.isNegative, hnot]

theorem Levels.fold_of_neg (hf : f < 0) :
    (l.fold f).minOut = l.maxOut ∧ (l.fold f).maxOut = l.minOut := by
  simp [Levels.fold, Scalar.isNegative, hf]

/-- The folded levels give for `x` what the levels give for `x` times the factor. -/
theorem Compares.fold {quantise : Levels ℚ → ℚ → ℚ} (h : Compares t quantise) (hf : f ≠ 0)
    (hx : x * f ≠ l.cut t) : quantise (l.fold f) x = quantise l (x * f) := by
  rcases lt_or_gt_of_ne hf with hneg | hpos
  · obtain ⟨hmin, hmax⟩ := Levels.fold_of_neg (l := l) hneg
    rcases lt_or_gt_of_ne hx with hbelow | habove
    · have hcut : (l.fold f).cut t < x := by
        rw [Levels.cut_fold]
        exact (div_lt_iff_of_neg hneg).mpr hbelow
      rw [h.above _ _ hcut, h.below _ _ hbelow, hmax]
    · have hcut : x < (l.fold f).cut t := by
        rw [Levels.cut_fold]
        exact (lt_div_iff_of_neg hneg).mpr habove
      rw [h.below _ _ hcut, h.above _ _ habove, hmin]
  · obtain ⟨hmin, hmax⟩ := Levels.fold_of_pos (l := l) hpos
    rcases lt_or_gt_of_ne hx with hbelow | habove
    · have hcut : x < (l.fold f).cut t := by
        rw [Levels.cut_fold]
        exact (lt_div_iff₀ hpos).mpr hbelow
      rw [h.below _ _ hcut, h.below _ _ hbelow, hmin]
    · have hcut : (l.fold f).cut t < x := by
        rw [Levels.cut_fold]
        exact (div_lt_iff₀ hpos).mpr habove
      rw [h.above _ _ hcut, h.above _ _ habove, hmax]

/-! ## Reading the constants of a graph -/

namespace Graph

variable {α : Type} [Scalar α]

/-- The elements of the constant that an input port reads, with their shape. -/
def constant? (g : Graph α) (port : InputPort) : Option (Constant α) := do
  let data ← g.feeding? port
  let content ← g.content? data
  let value ← content.value
  let values ← value.floats.toOption
  return ⟨values, value.shape⟩

/-- The element of the constant at an input port that is read at an index of a tensor. -/
def element? (g : Graph α) (port : InputPort) (shape : Shape) (index : List Nat) : Option α :=
  (g.constant? port).bind fun c => c.read? shape index

/-- The range and the output values of a quantisation at an index of the tensor that it reads. -/
def levels? (g : Graph α) (quantize : NodeId) (shape : Shape) (index : List Nat) :
    Option (Levels α) := do
  return ⟨← g.element? ⟨quantize, 1⟩ shape index, ← g.element? ⟨quantize, 2⟩ shape index,
    ← g.element? ⟨quantize, 3⟩ shape index, ← g.element? ⟨quantize, 4⟩ shape index⟩

theorem levels?_eq_read? {g : Graph α} {quantize : NodeId} {t : Thresholds α}
    (hminIn : g.constant? ⟨quantize, 1⟩ = some t.minIn)
    (hmaxIn : g.constant? ⟨quantize, 2⟩ = some t.maxIn)
    (hminOut : g.constant? ⟨quantize, 3⟩ = some t.minOut)
    (hmaxOut : g.constant? ⟨quantize, 4⟩ = some t.maxOut) (shape : Shape) (index : List Nat) :
    g.levels? quantize shape index = t.read? shape index := by
  simp only [levels?, element?, hminIn, hmaxIn, hminOut, hmaxOut, Option.bind_some]
  rfl

omit [Scalar α] in
theorem WellFormed.feeding?_of_input {g : Graph α} (hg : g.WellFormed) {port : InputPort}
    {data : NodeId} (h : g.view.input port = some data) : g.feeding? port = some data := by
  rw [← view_input_of_op (hg.view_input_kinds h).1, h]

theorem WellFormed.constant?_eq_some {g : Graph α} (hg : g.WellFormed) {port : InputPort}
    {data : NodeId} {c : Content α} {value : Tensor α} {values : List α}
    (hinput : g.view.input port = some data) (hc : g.content? data = some c)
    (hvalue : c.value = some value) (hvalues : value.floats = .ok values) :
    g.constant? port = some ⟨values, value.shape⟩ := by
  simp [constant?, hg.feeding?_of_input hinput, hc, hvalue, hvalues, Except.toOption]

end Graph

/-! ## Fused graphs -/

/-- Before, the quantisation reads the product that the multiplication makes of the tensor;
afterwards it reads the tensor itself. -/
structure Bypassed {α : Type} (g g' : Graph α) (mul product quantize tensor : NodeId) (port : Nat) :
    Prop where
  port_lt : port < 2
  takes : g.feeding? ⟨mul, port⟩ = some tensor
  makes : g.result? ⟨mul, 0⟩ = some product
  reads : g.feeding? ⟨quantize, 0⟩ = some product
  reads_after : g'.feeding? ⟨quantize, 0⟩ = some tensor

namespace MultiplierRule

variable {α : Type} {g : Graph α} {p : Plan α} {tensor multiplier : NodeId} {shape : Shape}

/-- Of several values none overwrites another. -/
theorem stored_content_of_mem {v : View α} {values : List (NodeId × Tensor α)}
    (hdistinct : (values.map Prod.fst).Nodup) {d : NodeId} {value : Tensor α}
    (hmem : (d, value) ∈ values) {c : Content α} (hc : v.content d = some c) :
    (stored v values).content d =
      some { c with value := some value, shape := some value.shape } := by
  induction values generalizing v with
  | nil => cases hmem
  | cons t values ih =>
    obtain ⟨hfirst, hrest⟩ := List.nodup_cons.mp hdistinct
    rcases List.mem_cons.mp hmem with rfl | hmem
    · have hlater : ∀ t ∈ values, d ≠ t.1 := by
        rintro t ht rfl
        exact hfirst (List.mem_map.mpr ⟨t, ht, rfl⟩)
      show (stored (v.store d value) values).content d = _
      rw [View.content, stored_node_of_not_mem hlater]
      exact View.store_content_self hc
    · have hne : d ≠ t.1 := by
        rintro rfl
        exact hfirst (List.mem_map.mpr ⟨_, hmem, rfl⟩)
      refine ih hrest hmem ?_
      rw [View.store_content_of_ne hne, hc]

theorem fused_node {v : View α} {d : NodeId} (hmul : d ≠ p.mul) (hproduct : d ≠ p.product) :
    (fused v p tensor).node d = (stored v p.thresholds).node d := by
  simp [fused, switched, hmul, hproduct]

section Fused

variable {g' : Graph α} (hg : g.WellFormed) (ha : Accepted g p tensor multiplier shape)
  (hg' : g'.WellFormed) (hview : g'.view = fused g.view p tensor)
include hg ha hview

theorem input_quantize_iff {port : Nat} {d : NodeId} :
    g'.view.input ⟨p.quantize, port⟩ = some d ↔
      (port = 0 ∧ d = tensor) ∨ (port ≠ 0 ∧ g.view.input ⟨p.quantize, port⟩ = some d) := by
  obtain ⟨hmul, hproduct⟩ := hg.view_output_kinds ha.makes
  obtain ⟨hquantize, -⟩ := hg.view_input_kinds ha.reads
  have hne := (ha.mul_ne_quantize hg).symm
  have htensor := (hg.view_input_kinds ha.takes_tensor).2
  rw [hview, fused, View.erase_input_iff, View.erase_input_iff, ha.switched_input_iff hg]
  constructor
  · rintro ⟨-, -, -, -, ⟨hport, rfl⟩ | ⟨hport, -, hread⟩⟩
    · exact .inl ⟨congrArg InputPort.index hport, rfl⟩
    · exact .inr ⟨fun h => hport (h ▸ rfl), hread⟩
  · rintro (⟨rfl, rfl⟩ | ⟨hport, hread⟩)
    · exact ⟨op_ne_data hquantize hproduct, ha.tensor_ne_product hg, hne,
        (op_ne_data hmul htensor).symm, .inl ⟨rfl, rfl⟩⟩
    · have hother : d ≠ p.product := by
        rintro rfl
        exact hport (congrArg InputPort.index (ha.one_reader _ hread))
      refine ⟨op_ne_data hquantize hproduct, hother, hne,
        (op_ne_data hmul (hg.view_input_kinds hread).2).symm, .inr ⟨?_, ?_, hread⟩⟩
      · exact fun h => hport (congrArg InputPort.index h)
      · exact fun h => hne (congrArg InputPort.node h)

theorem operator_quantize : g'.operator? p.quantize = g.operator? p.quantize := by
  obtain ⟨hquantize, hproduct⟩ := hg.view_input_kinds ha.reads
  show g'.view.operator p.quantize = g.view.operator p.quantize
  rw [View.operator, hview, fused_node (ha.mul_ne_quantize hg).symm (op_ne_data hquantize hproduct),
    stored_node_of_not_mem]
  · rfl
  · intro t ht
    obtain ⟨port, -, hread, -⟩ := ha.thresholds t ht
    exact op_ne_data hquantize (hg.view_input_kinds hread).2

theorem shape_tensor : g.view.shape tensor = some shape ∧ g'.view.shape tensor = some shape := by
  obtain ⟨c, hc, hshape⟩ := ha.tensor
  have htensor : tensor ≠ p.mul :=
    (op_ne_data (hg.view_output_kinds ha.makes).1 (hg.view_input_kinds ha.takes_tensor).2).symm
  have hnot := ha.not_threshold ha.takes_tensor (.inl (ha.mul_ne_quantize hg))
  have hc' : g'.view.content tensor = some c := by
    rw [View.content, hview, fused_node htensor (ha.tensor_ne_product hg),
      stored_node_of_not_mem hnot]
    exact hc
  rw [View.shape_of_content hc', View.shape_of_content (v := g.view) hc]
  exact ⟨hshape, hshape⟩

include hg'

theorem bypassed : Bypassed g g' p.mul p.product p.quantize tensor p.tensorPort where
  port_lt := ha.port
  takes := hg.feeding?_of_input ha.takes_tensor
  makes := by rw [← view_output_of_op (hg.view_output_kinds ha.makes).1, ha.makes]
  reads := hg.feeding?_of_input ha.reads
  reads_after :=
    hg'.feeding?_of_input ((input_quantize_iff hg ha hview).mpr (.inl ⟨rfl, rfl⟩))

end Fused

/-- Where the plan replaces a threshold, the old one is read before and the new one afterwards. -/
theorem Replaces.constant? {g : Graph ℚ} {p : Plan ℚ} {g' : Graph ℚ} (hg : g.WellFormed)
    (ha : Accepted g p tensor multiplier shape) (hdistinct : (p.thresholds.map Prod.fst).Nodup)
    (hg' : g'.WellFormed) (hview : g'.view = fused g.view p tensor) {port : Nat} (hport : port ≠ 0)
    {old new : Constant ℚ} (h : Replaces g p port old new) :
    g.constant? ⟨p.quantize, port⟩ = some old ∧ g'.constant? ⟨p.quantize, port⟩ = some new := by
  obtain ⟨data, type, value', hmem, hread, hold, hnew⟩ := h
  obtain ⟨c, value, hc, hvalue, hvalueShape, hfloats⟩ := floatConstant?_eq_ok hold
  obtain ⟨hfloats', hshape'⟩ := floats_of_toTensor hnew
  constructor
  · rw [hg.constant?_eq_some hread hc hvalue hfloats, hvalueShape]
  · have hread' : g'.view.input ⟨p.quantize, port⟩ = some data :=
      (input_quantize_iff hg ha hview).mpr (.inr ⟨hport, hread⟩)
    have hmul : data ≠ p.mul :=
      (op_ne_data (hg.view_output_kinds ha.makes).1 (hg.view_input_kinds hread).2).symm
    have hproduct : data ≠ p.product := fun h =>
      ha.not_threshold ha.reads (.inr rfl) _ hmem h.symm
    have hc' : g'.view.content data =
        some { c with value := some value', shape := some value'.shape } := by
      rw [hview, View.content, fused_node hmul hproduct]
      exact stored_content_of_mem hdistinct hmem hc
    rw [hg'.constant?_eq_some hread' hc' rfl hfloats', hshape']

/-- A replacement that succeeds has had its plan accepted and has fused the multiplication. -/
theorem runs_replace [Scalar α] (hg : g.WellFormed) {pat : Pattern} (hpat : pattern = .ok pat)
    {m : Match} (hm : m ∈ pat.allMatches g) {notes : List LogEntry} :
    Runs (replace m) ⟨g, notes⟩ (fun replaced g' => replaced = true →
      ∃ (p : Plan α) (tensor multiplier : NodeId) (shape : Shape) (factors : Constant α)
        (old new : Thresholds α), Accepted g p tensor multiplier shape ∧
        Folds m g p multiplier shape factors old new ∧ g'.WellFormed ∧
        g'.view = fused g.view p tensor) fun _ => True := by
  refine runs_planThenCommit (fun planned hplan notes => ?_) (fun _ _ h => ?_) fun _ _ => trivial
  · obtain ⟨tensor, multiplier, shape, factors, old, new, ha, hfolds⟩ := plan_folds hg hpat hm hplan
    refine runs_commit hg ha (fun _ g' hg' hview _ => ?_) fun _ _ _ => trivial
    exact ⟨planned, tensor, multiplier, shape, factors, old, new, ha, hfolds, hg', hview⟩
  · cases h

/-- Folding divides by a factor that is not zero, so the folded levels give what the old ones gave
for the product. -/
theorem Folds.compares {g : Graph ℚ} {p : Plan ℚ} {m : Match} {factors : Constant ℚ}
    {old new : Thresholds ℚ} (h : Folds m g p multiplier shape factors old new) {index : List Nat}
    (hindex : shape.Contains index) :
    ∃ factor l, factors.read? shape index = some factor ∧ old.read? shape index = some l ∧
      ∃ l', new.read? shape index = some l' ∧
        ∀ t quantise, Compares t quantise → ∀ value, value * factor ≠ l.cut t →
          quantise l' value = quantise l (value * factor) := by
  have hparts : ∀ part ∈ new.parts, part.shape.broadcast? shape = some shape := by
    intro part hpart
    rw [Shape.broadcast?_comm]
    exact beq_iff_eq.mp (h.absorbed part hpart)
  obtain ⟨factor, l, hmem, hfactor, hold, hnew⟩ := foldMultiplier_read? hindex h.folded hparts
  have hzero : factor ≠ 0 := of_decide_eq_false (h.nonzero factor hmem)
  exact ⟨factor, l, hfactor, hold, _, hnew, fun t quantise hcompares value hvalue =>
    hcompares.fold hzero hvalue⟩

end MultiplierRule

/-- After a replacement the quantisation, still of two levels, reads the tensor, which has the shape
of its product.  At every index its new levels give for the element of any such tensor what the old
ones gave for the product there, unless the product is just the point of comparison. -/
theorem fused_multiplier_keeps_comparison {g : Graph ℚ} (hg : Reachable g) {pat : Pattern}
    (hpat : MultiplierRule.pattern = .ok pat) {m : Match} (hm : m ∈ pat.allMatches g)
    {notes : List LogEntry} {s : Session ℚ}
    (hrun : MultiplierRule.replace m ⟨g, notes⟩ = .ok true s) :
    ∃ mul product quantize tensor port shape,
      (m.get "preop" = .ok mul ∧ m.get "preoped" = .ok product ∧
        m.get "quantize" = .ok quantize) ∧
      Bypassed g s.graph mul product quantize tensor port ∧
      (∃ inference, g.operator? quantize = some ⟨.quantize 2, inference⟩ ∧
        s.graph.operator? quantize = some ⟨.quantize 2, inference⟩) ∧
      (g.view.shape tensor = some shape ∧ s.graph.view.shape tensor = some shape ∧
        ∃ factors, g.constant? ⟨mul, 1 - port⟩ = some factors ∧
          shape.broadcast? factors.shape = some shape) ∧
      ∀ t quantise, Compares t quantise → ∀ x : Grid ℚ, x.shape = shape →
        ∀ index value, x.entry index = some value →
          ∃ factor old new, g.element? ⟨mul, 1 - port⟩ shape index = some factor ∧
            g.levels? quantize shape index = some old ∧
            s.graph.levels? quantize shape index = some new ∧
            (value * factor ≠ old.cut t → quantise new value = quantise old (value * factor)) := by
  have hg := hg.wellFormed
  obtain ⟨p, tensor, multiplier, shape, factors, old, new, ha, hfolds, hg', hview⟩ :=
    (MultiplierRule.runs_replace hg hpat hm).of_ok hrun rfl
  obtain ⟨levels, inference, ho, hlevels⟩ := hfolds.binary
  obtain rfl : levels = 2 := beq_iff_eq.mp hlevels
  obtain ⟨type, hconstant⟩ := hfolds.constant
  obtain ⟨c, value, hc, hvalue, hvalueShape, hfloats⟩ :=
    MultiplierRule.floatConstant?_eq_ok hconstant
  obtain ⟨c', value', hc', hvalue', habsorbs⟩ := ha.multiplier
  obtain rfl := Option.some.inj (hc.symm.trans hc')
  obtain rfl := Option.some.inj (hvalue.symm.trans hvalue')
  have hfactors : g.constant? ⟨p.mul, 1 - p.tensorPort⟩ = some factors := by
    rw [hg.constant?_eq_some ha.takes_multiplier hc hvalue hfloats, hvalueShape]
  obtain ⟨hminIn, hminIn'⟩ := hfolds.minIn.constant? hg ha hfolds.distinct hg' hview (by decide)
  obtain ⟨hmaxIn, hmaxIn'⟩ := hfolds.maxIn.constant? hg ha hfolds.distinct hg' hview (by decide)
  obtain ⟨hminOut, hminOut'⟩ := hfolds.minOut.constant? hg ha hfolds.distinct hg' hview (by decide)
  obtain ⟨hmaxOut, hmaxOut'⟩ := hfolds.maxOut.constant? hg ha hfolds.distinct hg' hview (by decide)
  refine ⟨p.mul, p.product, p.quantize, tensor, p.tensorPort, shape, hfolds.roles,
    MultiplierRule.bypassed hg ha hg' hview, ⟨inference, ho, ?_⟩, ?_, ?_⟩
  · rw [MultiplierRule.operator_quantize hg ha hview, ho]
  · obtain ⟨hshape, hshape'⟩ := MultiplierRule.shape_tensor hg ha hview
    refine ⟨hshape, hshape', factors, hfactors, ?_⟩
    rw [← hvalueShape]
    exact beq_iff_eq.mp habsorbs
  · rintro t quantise hcompares x rfl index value hentry
    have hindex : x.shape.Contains index :=
      (x.defined index).mp (by rw [hentry]; exact Option.some_ne_none value)
    obtain ⟨factor, l, hfactor, hold, l', hnew, h⟩ := hfolds.compares hindex
    refine ⟨factor, l, l', ?_, ?_, ?_, h t quantise hcompares value⟩
    · rw [Graph.element?, hfactors, Option.bind_some, hfactor]
    · rw [Graph.levels?_eq_read? hminIn hmaxIn hminOut hmaxOut, hold]
    · rw [Graph.levels?_eq_read? hminIn' hmaxIn' hminOut' hmaxOut', hnew]

/-- A tensor of shape `[2, 2]` times `2` in one column and `-4` in the other, and thresholds of four
shapes. -/
def scaledCommands : List (Command ℚ) :=
  [.addOperator "x" .parameter, .addOperator "factor" .const, .addOperator "mul" .mul,
    .addOperator "minIn" .const, .addOperator "maxIn" .const, .addOperator "minOut" .const,
    .addOperator "maxOut" .const, .addOperator "quantize" (.quantize 2),
    .link ⟨0, 0⟩ ⟨2, 0⟩, .link ⟨1, 0⟩ ⟨2, 1⟩, .link ⟨2, 0⟩ ⟨7, 0⟩, .link ⟨3, 0⟩ ⟨7, 1⟩,
    .link ⟨4, 0⟩ ⟨7, 2⟩, .link ⟨5, 0⟩ ⟨7, 3⟩, .link ⟨6, 0⟩ ⟨7, 4⟩,
    .modifyContent 8 fun c => { c with shape := some [2, 2] },
    .modifyContent 9 fun _ => .constant ⟨[2], .float64 [2, -4]⟩,
    .modifyContent 11 fun _ => .constant ⟨[], .float64 [1]⟩,
    .modifyContent 12 fun _ => .constant ⟨[2, 1], .float32 [3, 5]⟩,
    .modifyContent 13 fun _ => .constant ⟨[1], .float64 [0]⟩,
    .modifyContent 14 fun _ => .constant ⟨[1, 1], .float32 [1]⟩]

def scaledMatch : Match := ⟨[("preop", 2), ("preoped", 10), ("quantize", 7)]⟩

/-- Where the factor is negative the range turns round and the output values change places. -/
theorem scaledCommands_compared :
    Reachable (runCommands .nchw scaledCommands) ∧
    ∃ pat, MultiplierRule.pattern = .ok pat ∧
      scaledMatch ∈ pat.allMatches (runCommands .nchw scaledCommands) ∧
      ∃ s, MultiplierRule.replace scaledMatch ⟨runCommands .nchw scaledCommands, []⟩ = .ok true s ∧
        s.graph.levels? 7 [2, 2] [1, 1] = some ⟨-1 / 4, -5 / 4, 1, 0⟩ ∧
        ∀ quantise, Compares (1 / 2) quantise →
          quantise ⟨-1 / 4, -5 / 4, 1, 0⟩ 2 = quantise ⟨1, 5, 0, 1⟩ (2 * -4) := by
  have hlevels : (match MultiplierRule.replace scaledMatch
        ⟨runCommands .nchw scaledCommands, []⟩ with
      | .ok replaced s =>
        decide (replaced = true ∧ s.graph.levels? 7 [2, 2] [1, 1] = some ⟨-1 / 4, -5 / 4, 1, 0⟩)
      | .error _ _ => false) = true := by
    decide +kernel
  split at hlevels
  case h_2 => cases hlevels
  rename_i replaced s hrun
  obtain ⟨rfl, hnew⟩ := of_decide_eq_true hlevels
  obtain ⟨pat, hpat, hm⟩ : ∃ pat, MultiplierRule.pattern = .ok pat ∧
      scaledMatch ∈ pat.allMatches (runCommands .nchw scaledCommands) :=
    ⟨_, rfl, by decide +kernel⟩
  refine ⟨⟨_, _, rfl⟩, pat, hpat, hm, s, hrun, hnew, fun quantise hquantise => ?_⟩
  obtain ⟨mul, product, quantize, tensor, port, shape, ⟨hmul, -, hquantize⟩, hbypassed, -,
    ⟨hshape, -, factors, hfactors, -⟩, h⟩ :=
    fused_multiplier_keeps_comparison ⟨_, _, rfl⟩ hpat hm hrun
  obtain rfl : 2 = mul := Except.ok.inj hmul
  obtain rfl : 7 = quantize := Except.ok.inj hquantize
  -- the constant is at the second port, so the tensor is at the first
  obtain rfl : port = 0 := by
    have hnone : ((runCommands .nchw scaledCommands).constant? ⟨2, 0⟩).isNone := by decide +kernel
    have hlt := hbypassed.port_lt
    by_contra hport
    obtain rfl : port = 1 := by omega
    rw [hfactors] at hnone
    cases hnone
  obtain rfl : 8 = tensor := by
    have htensor : (runCommands .nchw scaledCommands).feeding? ⟨2, 0⟩ = some 8 := by decide +kernel
    exact Option.some.inj (htensor.symm.trans hbypassed.takes)
  obtain rfl : [2, 2] = shape := by
    have hstored : (runCommands .nchw scaledCommands).view.shape 8 = some [2, 2] := by
      decide +kernel
    exact Option.some.inj (hstored.symm.trans hshape)
  obtain ⟨factor, old, new, hfactor, hold, hnew', hsame⟩ :=
    h (1 / 2) quantise hquantise (.tabulate [2, 2] fun _ => 2) rfl [1, 1] 2 rfl
  have hfactor' : (runCommands .nchw scaledCommands).element? ⟨2, 1⟩ [2, 2] [1, 1] = some (-4) := by
    decide +kernel
  have hold' : (runCommands .nchw scaledCommands).levels? 7 [2, 2] [1, 1] = some ⟨1, 5, 0, 1⟩ := by
    decide +kernel
  obtain rfl := Option.some.inj (hfactor'.symm.trans hfactor)
  obtain rfl := Option.some.inj (hold'.symm.trans hold)
  obtain rfl := Option.some.inj (hnew.symm.trans hnew')
  exact hsame (by decide +kernel)

end TensorGraph
