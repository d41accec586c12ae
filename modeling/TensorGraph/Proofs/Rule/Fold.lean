/-
  When thresholds can be folded, and what is folded then.

  Folding writes all operands out and combines them by their places in a list.  It gives nothing
  exactly if the shapes have no joins or a list does not have the length that its shape says
  (`answers_foldMultiplier`), as long as the volumes of the joins are words and there is room for
  the operands at the joins that they are written out at (`Storable`).  Otherwise the output values
  have the join of their shapes with that of the multiplier, and a threshold of the input range the
  join of its shape with this one (`Folded`).

  The main statement `foldMultiplier_exact` says both, and what the folded thresholds hold at each
  index; `mixedThresholds` are thresholds of four shapes.  Room is needed even where nothing can be
  folded: the factor is written out before the lengths of all lists have been looked at, and for
  `endlessThresholds` the error comes first.
-/
import TensorGraph.Proofs.Join
import TensorGraph.Proofs.Rule.Comparison

namespace TensorGraph

open Shape (IsJoin)

/-- As far as shapes of the list have joins, the volumes of these are words. -/
def Shape.JoinsFit (shapes : List Shape) : Prop :=
  ∀ part, part ⊆ shapes → ∀ s, IsJoin part s → s.volume < wordLimit

/-- It is enough that all the shapes have a common bound with a small volume. -/
theorem Shape.joinsFit_of_bound {shapes : List Shape} {u : Shape}
    (hu : ∀ t ∈ shapes, t.broadcast? u = some u) (hvolume : u.volume < wordLimit) :
    JoinsFit shapes := by
  intro part hpart s hs
  have hle := volume_le ((hs u).mpr fun t ht => hu t (hpart ht))
  omega

theorem Shape.JoinsFit.volume_lt {shapes : List Shape} (h : JoinsFit shapes) {s : Shape}
    (hs : s ∈ shapes) : s.volume < wordLimit :=
  h [s] (List.cons_subset.mpr ⟨hs, List.nil_subset _⟩) s (isJoin_singleton s)

variable {α : Type}

/-- The shapes of the operands that the new output values depend on. -/
def outputShapes (multiplier : Constant α) (old : Thresholds α) : List Shape :=
  [multiplier.shape, old.minOut.shape, old.maxOut.shape]

/-- The shapes whose joins the operands are written out at: those that the output values depend on,
and these with either end of the input range. -/
def writtenShapes (multiplier : Constant α) (old : Thresholds α) : List (List Shape) :=
  [outputShapes multiplier old, old.minIn.shape :: outputShapes multiplier old,
    old.maxIn.shape :: outputShapes multiplier old]

/-- There is room for the operands wherever they are written out. -/
def Storable (multiplier : Constant α) (old : Thresholds α) : Prop :=
  ∀ part ∈ writtenShapes multiplier old, ∀ s, IsJoin part s → s.prod < capacityLimit

/-- It is enough that all the shapes have a common bound with a volume that there is room for. -/
theorem storable_of_bound {multiplier : Constant α} {old : Thresholds α} {u : Shape}
    (hu : ∀ t ∈ (multiplier :: old.parts).map (·.shape), t.broadcast? u = some u)
    (hvolume : u.volume < capacityLimit) : Storable multiplier old := by
  intro part hpart s hs
  have hsubset : part ⊆ (multiplier :: old.parts).map (·.shape) := by
    simp only [writtenShapes, List.mem_cons, List.not_mem_nil, or_false] at hpart
    rcases hpart with rfl | rfl | rfl <;> simp [outputShapes, Thresholds.parts]
  calc s.prod ≤ s.volume := Shape.prod_le_volume s
    _ ≤ u.volume := Shape.volume_le ((hs u).mpr fun t ht => hu t (hsubset ht))
    _ < capacityLimit := hvolume

/-- The thresholds can be folded: the shapes have joins, and each list has the length that its shape
says. -/
structure Foldable (multiplier : Constant α) (old : Thresholds α) : Prop where
  outputs : ∃ shape, IsJoin (outputShapes multiplier old) shape
  inputs : ∀ shape, IsJoin (outputShapes multiplier old) shape →
    (∃ s, IsJoin [old.minIn.shape, shape] s) ∧ ∃ s, IsJoin [old.maxIn.shape, shape] s
  counted : ∀ c ∈ multiplier :: old.parts, c.values.length = c.shape.prod

variable [Scalar α]

/-- The new threshold is the old one divided by the multiplier: its shape is the join of the old one
with the shape of the output values, and so is each of its elements. -/
structure Divided (multiplier old new : Constant α) (shape : Shape) : Prop where
  join : IsJoin [old.shape, shape] new.shape
  counted : new.values.length = new.shape.prod
  entries : ∀ index, new.shape.Contains index →
    ∃ f x, multiplier.read? new.shape index = some f ∧ old.read? new.shape index = some x ∧
      new.read? new.shape index = some (Scalar.div x f)

/-- The new thresholds are the old ones folded with the multiplier, index by index. -/
structure Folded (multiplier : Constant α) (old new : Thresholds α) (shape : Shape) : Prop where
  join : IsJoin (outputShapes multiplier old) shape
  minOut_shape : new.minOut.shape = shape
  maxOut_shape : new.maxOut.shape = shape
  minOut_counted : new.minOut.values.length = shape.prod
  maxOut_counted : new.maxOut.values.length = shape.prod
  outputs : ∀ index, shape.Contains index →
    ∃ f lo hi, multiplier.read? shape index = some f ∧ old.minOut.read? shape index = some lo ∧
      old.maxOut.read? shape index = some hi ∧
      new.minOut.read? shape index = some (if Scalar.isNegative f then hi else lo) ∧
      new.maxOut.read? shape index = some (if Scalar.isNegative f then lo else hi)
  minIn : Divided multiplier old.minIn new.minIn shape
  maxIn : Divided multiplier old.maxIn new.maxIn shape

/-! ## When there is an answer -/

theorem answers_divide {threshold : Constant α} {factors : List α} {shape : Shape}
    (hcounted : factors.length = shape.prod) (hthreshold : threshold.shape.volume < wordLimit)
    (hshape : shape.volume < wordLimit)
    (hfits : ∀ s, IsJoin [threshold.shape, shape] s →
      s.volume < wordLimit ∧ s.prod < capacityLimit) :
    Answers (divide threshold factors shape) ((∃ s, IsJoin [threshold.shape, shape] s) ∧
      threshold.values.length = threshold.shape.prod) := by
  rw [divide]
  cases hcommon : threshold.shape.broadcast? shape with
  | none => exact answers_failure.congr (by simp [Shape.broadcast?_eq_none_iff.mp hcommon])
  | some common =>
    have hjoin := Shape.broadcast?_eq_some_iff_isJoin.mp hcommon
    obtain ⟨hvolume, hroom⟩ := hfits common hjoin
    refine ((answers_broadcastTo hthreshold hvolume hroom).bind (q := True)
      fun dividends _ => ?_).congr ?_
    · refine ((answers_broadcastTo hshape hvolume hroom).bind (q := True)
        fun divisors _ => answers_pure _).congr ?_
      simp [hjoin.above (t := shape) (by simp), hcounted]
    · simp [hjoin.above (t := threshold.shape) (by simp),
        show ∃ s, IsJoin [threshold.shape, shape] s from ⟨common, hjoin⟩]

section Fold

variable {multiplier : Constant α} {old : Thresholds α}

omit [Scalar α] in
/-- The output values are broadcast in two steps. -/
theorem isJoin_outputShapes {partly shape : Shape}
    (hpartly : multiplier.shape.broadcast? old.minOut.shape = some partly) :
    partly.broadcast? old.maxOut.shape = some shape ↔
      IsJoin (outputShapes multiplier old) shape := by
  have hjoin := Shape.broadcast?_eq_some_iff_isJoin.mp hpartly
  rw [Shape.broadcast?_eq_some_iff_isJoin]
  exact hjoin.flatten [] [old.maxOut.shape]

omit [Scalar α] in
theorem Foldable.of_join {shape : Shape} (hjoin : IsJoin (outputShapes multiplier old) shape)
    (hminIn : ∃ s, IsJoin [old.minIn.shape, shape] s)
    (hmaxIn : ∃ s, IsJoin [old.maxIn.shape, shape] s)
    (hcounted : ∀ c ∈ multiplier :: old.parts, c.values.length = c.shape.prod) :
    Foldable multiplier old where
  outputs := ⟨shape, hjoin⟩
  inputs := by
    intro s hs
    obtain rfl := hs.unique hjoin
    exact ⟨hminIn, hmaxIn⟩
  counted := hcounted

omit [Scalar α] in
/-- The joins are computed by broadcasting. -/
theorem Foldable.of_broadcast {partly shape minIn maxIn : Shape}
    (hpartly : multiplier.shape.broadcast? old.minOut.shape = some partly)
    (hshape : partly.broadcast? old.maxOut.shape = some shape)
    (hminIn : old.minIn.shape.broadcast? shape = some minIn)
    (hmaxIn : old.maxIn.shape.broadcast? shape = some maxIn)
    (hcounted : ∀ c ∈ multiplier :: old.parts, c.values.length = c.shape.prod) :
    Foldable multiplier old :=
  .of_join ((isJoin_outputShapes hpartly).mp hshape)
    ⟨minIn, Shape.broadcast?_eq_some_iff_isJoin.mp hminIn⟩
    ⟨maxIn, Shape.broadcast?_eq_some_iff_isJoin.mp hmaxIn⟩ hcounted

omit [Scalar α] in
/-- With the join of the output shapes at hand, what is left to ask is about single operands. -/
theorem foldable_iff {shape : Shape} (hjoin : IsJoin (outputShapes multiplier old) shape) :
    Foldable multiplier old ↔
      (multiplier.shape.broadcast? shape = some shape ∧
        multiplier.values.length = multiplier.shape.prod) ∧
      (old.minOut.shape.broadcast? shape = some shape ∧
        old.minOut.values.length = old.minOut.shape.prod) ∧
      (old.maxOut.shape.broadcast? shape = some shape ∧
        old.maxOut.values.length = old.maxOut.shape.prod) ∧
      ((∃ s, IsJoin [old.minIn.shape, shape] s) ∧
        old.minIn.values.length = old.minIn.shape.prod) ∧
      (∃ s, IsJoin [old.maxIn.shape, shape] s) ∧
        old.maxIn.values.length = old.maxIn.shape.prod := by
  have habove : ∀ s ∈ outputShapes multiplier old, s.broadcast? shape = some shape :=
    fun s hs => hjoin.above hs
  simp only [outputShapes, List.forall_mem_cons] at habove
  constructor
  · intro h
    have hcounted := h.counted
    simp only [Thresholds.parts, List.forall_mem_cons] at hcounted
    obtain ⟨h₁, h₄, h₅, h₂, h₃, -⟩ := hcounted
    obtain ⟨hjoin₁, hjoin₂⟩ := h.inputs shape hjoin
    exact ⟨⟨habove.1, h₁⟩, ⟨habove.2.1, h₂⟩, ⟨habove.2.2.1, h₃⟩, ⟨hjoin₁, h₄⟩, hjoin₂, h₅⟩
  · rintro ⟨⟨-, h₁⟩, ⟨-, h₂⟩, ⟨-, h₃⟩, ⟨hjoin₁, h₄⟩, hjoin₂, h₅⟩
    refine .of_join hjoin hjoin₁ hjoin₂ ?_
    simp [Thresholds.parts, h₁, h₂, h₃, h₄, h₅]

omit [Scalar α] in
/-- The join of an input shape with that of the output values is one of the joins that fit. -/
theorem input_join_fits (hfits : Shape.JoinsFit ((multiplier :: old.parts).map (·.shape)))
    (hroom : Storable multiplier old) {shape : Shape}
    (hjoin : IsJoin (outputShapes multiplier old) shape) {c : Constant α}
    (hc : c ∈ [old.minIn, old.maxIn]) (s : Shape) (hs : IsJoin [c.shape, shape] s) :
    s.volume < wordLimit ∧ s.prod < capacityLimit := by
  have hall := (hjoin.flatten [c.shape] []).mp hs
  simp only [List.mem_cons, List.not_mem_nil, or_false] at hc
  constructor
  · refine hfits _ ?_ s hall
    rcases hc with rfl | rfl <;> simp [outputShapes, Thresholds.parts]
  · refine hroom _ ?_ s hall
    rcases hc with rfl | rfl <;> simp [writtenShapes]

/-- Folding does not fail, and gives thresholds just if they can be folded. -/
theorem answers_foldMultiplier
    (hfits : Shape.JoinsFit ((multiplier :: old.parts).map (·.shape)))
    (hroom : Storable multiplier old) :
    Answers (foldMultiplier multiplier old) (Foldable multiplier old) := by
  have hvolume : ∀ c ∈ multiplier :: old.parts, c.shape.volume < wordLimit := by
    intro c hc
    exact hfits.volume_lt (List.mem_map.mpr ⟨c, hc, rfl⟩)
  simp only [Thresholds.parts, List.forall_mem_cons, List.not_mem_nil, false_imp_iff, implies_true,
    and_true] at hvolume
  obtain ⟨hmultiplier, hminIn, hmaxIn, hminOut, hmaxOut⟩ := hvolume
  rw [foldMultiplier]
  cases hpartly : multiplier.shape.broadcast? old.minOut.shape with
  | none =>
    refine answers_failure.congr (iff_of_false id fun h => ?_)
    obtain ⟨shape, hshape⟩ := h.outputs
    have habove : ∀ s ∈ outputShapes multiplier old, s.broadcast? shape = some shape :=
      fun s hs => hshape.above hs
    simp only [outputShapes, List.forall_mem_cons] at habove
    obtain ⟨s, hs, -⟩ := Shape.broadcast?_least habove.1 habove.2.1
    cases hpartly.symm.trans hs
  | some partly =>
    dsimp only
    cases hshape : partly.broadcast? old.maxOut.shape with
    | none =>
      refine answers_failure.congr (iff_of_false id fun h => ?_)
      obtain ⟨shape, hjoin⟩ := h.outputs
      cases hshape.symm.trans ((isJoin_outputShapes hpartly).mpr hjoin)
    | some shape =>
      have hjoin := (isJoin_outputShapes hpartly).mp hshape
      have hvolume : shape.volume < wordLimit :=
        hfits _ (by simp [outputShapes, Thresholds.parts]) shape hjoin
      have hstored : shape.prod < capacityLimit :=
        hroom _ (by simp [writtenShapes]) shape hjoin
      have hinputs : ∀ c ∈ [old.minIn, old.maxIn], ∀ s, IsJoin [c.shape, shape] s →
          s.volume < wordLimit ∧ s.prod < capacityLimit :=
        fun c hc => input_join_fits hfits hroom hjoin hc
      refine ((answers_broadcastTo hmultiplier hvolume hstored).bind fun factors hfactors =>
        (answers_broadcastTo hminOut hvolume hstored).bind fun low _ =>
        (answers_broadcastTo hmaxOut hvolume hstored).bind fun high _ =>
        (answers_divide (broadcastTo_eq_some hfactors).2.2.1 hminIn hvolume
          (hinputs _ (by simp))).bind fun minIn _ =>
        (answers_divide (broadcastTo_eq_some hfactors).2.2.1 hmaxIn hvolume
          (hinputs _ (by simp))).bind fun maxIn _ => answers_pure _).congr ?_
      rw [foldable_iff hjoin, and_true]

/-! ## What is folded -/

theorem Divided.of_eq_some {threshold new : Constant α} {shape : Shape} {factors low high : List α}
    (hwritten : WrittenOut multiplier old shape factors low high)
    (h : (divide threshold factors shape).run = .ok (some new)) :
    Divided multiplier threshold new shape := by
  have hdivided := h
  rw [divide] at h
  split at h
  case h_2 => cases h
  rename_i common hcommon
  obtain ⟨dividends, hdividends, h⟩ := optionT_bind_eq_some.mp h
  obtain ⟨divisors, hdivisors, h⟩ := optionT_bind_eq_some.mp h
  cases h
  have hjoin := Shape.broadcast?_eq_some_iff_isJoin.mp hcommon
  refine ⟨hjoin, ?_, fun index hindex => ?_⟩
  · rw [List.length_zipWith, (broadcastTo_eq_some hdividends).2.2.1,
      (broadcastTo_eq_some hdivisors).2.2.1, Nat.min_self]
  · obtain ⟨f, lo, hi, -, hfactor, hf, -⟩ :=
      hwritten.read? hindex (hjoin.above (by simp))
    obtain ⟨x, hx, hquotient⟩ := divide_read? hindex hdivided (Shape.broadcast?_self _) hfactor
    exact ⟨f, x, hf, hx, hquotient⟩

omit [Scalar α] in
theorem WrittenOut.lengths {shape : Shape} {factors low high : List α}
    (h : WrittenOut multiplier old shape factors low high) :
    factors.length = shape.prod ∧ low.length = shape.prod ∧ high.length = shape.prod :=
  ⟨(broadcastTo_eq_some h.factors_eq).2.2.1, (broadcastTo_eq_some h.low_eq).2.2.1,
    (broadcastTo_eq_some h.high_eq).2.2.1⟩

theorem exists_folded {new : Thresholds α}
    (h : (foldMultiplier multiplier old).run = .ok (some new)) :
    ∃ shape, Folded multiplier old new shape := by
  obtain ⟨partly, shape, factors, low, high, ⟨hpartly, hshape⟩, hwritten, hminIn, hmaxIn, hminOut,
    hmaxOut⟩ := foldMultiplier_eq_some h
  obtain ⟨hfactors, hlow, hhigh⟩ := hwritten.lengths
  refine ⟨shape, (isJoin_outputShapes hpartly).mp hshape, ?_, ?_, ?_, ?_, ?_,
    .of_eq_some hwritten hminIn, .of_eq_some hwritten hmaxIn⟩
  · rw [hminOut]
  · rw [hmaxOut]
  · rw [hminOut]
    simp [choose, hfactors, hlow, hhigh]
  · rw [hmaxOut]
    simp [choose, hfactors, hlow, hhigh]
  · intro index hindex
    obtain ⟨f, lo, hi, -, -, hread⟩ := hwritten.read? hindex (Shape.broadcast?_self shape)
    rw [hminOut, hmaxOut]
    exact ⟨f, lo, hi, hread⟩

/-- The new thresholds are read wherever all the operands are. -/
theorem Folded.broadcast? {new : Thresholds α} {shape u : Shape}
    (h : Folded multiplier old new shape)
    (hu : ∀ c ∈ multiplier :: old.parts, c.shape.broadcast? u = some u) :
    ∀ part ∈ new.parts, part.shape.broadcast? u = some u := by
  simp only [Thresholds.parts, List.forall_mem_cons] at hu
  obtain ⟨hmultiplier, hminIn, hmaxIn, hminOut, hmaxOut, -⟩ := hu
  have hshape : shape.broadcast? u = some u :=
    (h.join u).mpr (by simp [outputShapes, hmultiplier, hminOut, hmaxOut])
  have hdivided : ∀ {threshold quotient : Constant α}, Divided multiplier threshold quotient shape →
      threshold.shape.broadcast? u = some u → quotient.shape.broadcast? u = some u :=
    fun hquotient hthreshold => (hquotient.join u).mpr (by simp [hthreshold, hshape])
  simp [Thresholds.parts, hdivided h.minIn hminIn, hdivided h.maxIn hmaxIn, h.minOut_shape,
    h.maxOut_shape, hshape]

/-- What can be folded is folded. -/
theorem Foldable.exists_eq_some (h : Foldable multiplier old)
    (hfits : Shape.JoinsFit ((multiplier :: old.parts).map (·.shape)))
    (hroom : Storable multiplier old) :
    ∃ new, (foldMultiplier multiplier old).run = .ok (some new) := by
  obtain ⟨result, hrun, hresult⟩ := answers_foldMultiplier hfits hroom
  obtain ⟨new, rfl⟩ := Option.ne_none_iff_exists'.mp (hresult.mpr h)
  exact ⟨new, hrun⟩

end Fold

/-- **Folding is exact.**  With room for the operands it does not fail.  It gives nothing just if
the thresholds cannot be folded, and otherwise it folds them index by index. -/
theorem foldMultiplier_exact (multiplier : Constant α) (old : Thresholds α)
    (hfits : Shape.JoinsFit ((multiplier :: old.parts).map (·.shape)))
    (hroom : Storable multiplier old) :
    ∃ result, (foldMultiplier multiplier old).run = .ok result ∧
      (result = none ↔ ¬ Foldable multiplier old) ∧
      ∀ new, result = some new → ∃ shape, Folded multiplier old new shape := by
  obtain ⟨result, hrun, hresult⟩ := answers_foldMultiplier hfits hroom
  refine ⟨result, hrun, ?_, ?_⟩
  · rw [← hresult, not_not]
  · rintro new rfl
    exact exists_folded hrun

/-- A factor for each column and thresholds of four shapes. -/
def columnFactors : Constant ℚ := ⟨[2, -4], [2]⟩

def mixedThresholds : Thresholds ℚ where
  minIn := ⟨[1], []⟩
  maxIn := ⟨[3, 5], [2, 1]⟩
  minOut := ⟨[0], [1]⟩
  maxOut := ⟨[1], [1, 1]⟩

theorem mixedThresholds_foldable :
    Shape.JoinsFit ((columnFactors :: mixedThresholds.parts).map (·.shape)) ∧
      Storable columnFactors mixedThresholds ∧ Foldable columnFactors mixedThresholds := by
  refine ⟨?_, ?_, ?_⟩
  · exact Shape.joinsFit_of_bound (u := [2, 2]) (by decide) (by decide)
  · exact storable_of_bound (u := [2, 2]) (by decide) (by decide)
  · exact .of_broadcast rfl rfl rfl rfl (by decide)

/-- The output values have one row, and the upper end of the range has its two rows.  In the second
column the factor is negative. -/
theorem mixedThresholds_folded :
    Shape.JoinsFit ((columnFactors :: mixedThresholds.parts).map (·.shape)) ∧
    ∃ new, (foldMultiplier columnFactors mixedThresholds).run = .ok (some new) ∧
      new.minOut.shape = [1, 2] ∧ new.minOut.read? [1, 2] [0, 1] = some 1 ∧
      new.maxIn.shape = [2, 2] ∧ new.maxIn.read? [2, 2] [1, 1] = some (5 / -4) := by
  obtain ⟨hfits, hroom, hfoldable⟩ := mixedThresholds_foldable
  obtain ⟨result, hrun, hnone, hfolded⟩ :=
    foldMultiplier_exact columnFactors mixedThresholds hfits hroom
  obtain ⟨new, rfl⟩ := Option.ne_none_iff_exists'.mp fun h => hnone.mp h hfoldable
  obtain ⟨shape, h⟩ := hfolded new rfl
  have hpartly : columnFactors.shape.broadcast? mixedThresholds.minOut.shape = some [2] := rfl
  obtain rfl : shape = [1, 2] := h.join.unique ((isJoin_outputShapes hpartly).mp rfl)
  have hshape : new.maxIn.shape = [2, 2] :=
    h.maxIn.join.unique (Shape.broadcast?_eq_some_iff_isJoin.mp rfl)
  obtain ⟨f, lo, hi, hf, -, hhi, hminOut, -⟩ := h.outputs [0, 1] (by decide)
  obtain ⟨f', x, hf', hx, hquotient⟩ := h.maxIn.entries [1, 1] (by rw [hshape]; decide)
  rw [hshape] at hf' hx hquotient
  -- both factors are that of the second column
  obtain rfl : -4 = f := Option.some.inj (by rw [← hf]; decide +kernel)
  obtain rfl : -4 = f' := Option.some.inj (by rw [← hf']; decide +kernel)
  obtain rfl : 1 = hi := Option.some.inj (by rw [← hhi]; decide +kernel)
  obtain rfl : 5 = x := Option.some.inj (by rw [← hx]; decide +kernel)
  exact ⟨hfits, new, hrun, h.minOut_shape, hminOut, hshape, hquotient⟩

/-- An output value with a shape that there is no room for, and that does not count it. -/
def endlessThresholds : Thresholds ℚ where
  minIn := ⟨[1], [1]⟩
  maxIn := ⟨[3], [1]⟩
  minOut := ⟨[0], [2 ^ 60]⟩
  maxOut := ⟨[1], [1]⟩

/-- The thresholds cannot be folded, but this is not found out: the factor is written out first, and
there is no room for it. -/
theorem endlessThresholds_without_room :
    Shape.JoinsFit ((⟨[2], [1]⟩ :: endlessThresholds.parts).map (·.shape)) ∧
      ¬ Foldable ⟨[2], [1]⟩ endlessThresholds ∧
      (foldMultiplier ⟨[2], [1]⟩ endlessThresholds).run = .error (.overflow .capacity) := by
  refine ⟨Shape.joinsFit_of_bound (u := [2 ^ 60]) (by decide) (by decide), fun hfoldable => ?_, rfl⟩
  exact absurd (hfoldable.counted endlessThresholds.minOut (by simp [Thresholds.parts])) (by decide)

end TensorGraph
