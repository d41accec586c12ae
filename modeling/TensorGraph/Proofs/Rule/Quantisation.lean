/-
  A fused multiplication and the two output values.

  A quantisation of two levels clamps a value to its input range and gives the output value of the
  nearer end.  What counts is how far along the range the clamped value lies, and folding a factor
  into the thresholds does not change that: the value and both ends are divided by the factor
  (`Levels.portion_fold`), and a negative factor turns the range round with the value.

  So with a positive factor the folded levels give for `x` what the levels give for `x` times the
  factor.  With a negative one the output values are swapped on top of that, and the result is that
  of the swapped output values (`Levels.quantise_fold_of_neg`): the other of the two.
-/
import TensorGraph.Proofs.Rule.Fold
import Mathlib.Algebra.Order.Round
import Mathlib.Data.Rat.Floor
import Mathlib.Tactic.Linarith

namespace TensorGraph

namespace Levels

/-! ## Two levels -/

/-- The value, moved to the nearer end if it is outside of the input range.  The ends of the range
may stand in any order. -/
def clamp (l : Levels ℚ) (v : ℚ) : ℚ :=
  max (min l.minIn l.maxIn) (min (max l.minIn l.maxIn) v)

/-- How far along the input range the clamped value lies: nothing at the lower end and all of it,
one, at the upper end. -/
def portion (l : Levels ℚ) (v : ℚ) : ℚ :=
  (l.clamp v - l.minIn) / (l.maxIn - l.minIn)

/-- The result of a quantisation of two levels.  The portion is rounded to the nearest integer, and
this is how many times the difference of the output values is added to the lower one. -/
def quantise (l : Levels ℚ) (v : ℚ) : ℚ :=
  l.minOut + round (l.portion v) * (l.maxOut - l.minOut)

/-- The levels with their output values swapped. -/
def swapped (l : Levels ℚ) : Levels ℚ :=
  { l with minOut := l.maxOut, maxOut := l.minOut }

variable {l : Levels ℚ} {f v x : ℚ}

/-- It does not matter which end is looked at first. -/
theorem clamp_eq_min : l.clamp v = min (max l.minIn l.maxIn) (max (min l.minIn l.maxIn) v) := by
  have hends : max (min l.minIn l.maxIn) (max l.minIn l.maxIn) = max l.minIn l.maxIn :=
    max_eq_right min_le_max
  rw [clamp, max_min_distrib_left, hends]

theorem portion_mem (hrange : l.minIn < l.maxIn) : 0 ≤ l.portion v ∧ l.portion v ≤ 1 := by
  have hwidth : 0 < l.maxIn - l.minIn := sub_pos.mpr hrange
  have hlow : l.minIn ≤ l.clamp v := by
    rw [clamp, min_eq_left hrange.le]
    exact le_max_left _ _
  have hhigh : l.clamp v ≤ l.maxIn := by
    rw [clamp_eq_min, max_eq_right hrange.le]
    exact min_le_left _ _
  constructor
  · exact div_nonneg (sub_nonneg.mpr hlow) hwidth.le
  · rw [portion, div_le_one hwidth]
    exact sub_le_sub_right hhigh _

/-- A portion is rounded to one of the two ends. -/
theorem round_portion (hrange : l.minIn < l.maxIn) :
    round (l.portion v) = 0 ∨ round (l.portion v) = 1 := by
  obtain ⟨hlow, hhigh⟩ := portion_mem (v := v) hrange
  rw [round_eq]
  have hzero : 0 ≤ ⌊l.portion v + 1 / 2⌋ := Int.floor_nonneg.mpr (by linarith)
  have htwo : ⌊l.portion v + 1 / 2⌋ < 2 := Int.floor_lt.mpr (by push_cast; linarith)
  omega

/-- The result is one of the output values. -/
theorem quantise_eq_or (hrange : l.minIn < l.maxIn) :
    l.quantise v = l.minOut ∨ l.quantise v = l.maxOut := by
  rcases round_portion (v := v) hrange with h | h
  · left
    simp [quantise, h]
  · right
    simp [quantise, h]

/-- Swapped output values give the other result. -/
theorem quantise_swapped : l.swapped.quantise v = l.minOut + l.maxOut - l.quantise v := by
  show l.maxOut + round (l.portion v) * (l.minOut - l.maxOut) = _
  rw [quantise]
  ring

theorem quantise_swapped_eq_iff (hrange : l.minIn < l.maxIn) :
    l.swapped.quantise v = l.quantise v ↔ l.minOut = l.maxOut := by
  rw [quantise_swapped]
  rcases quantise_eq_or (v := v) hrange with h | h
  · rw [h, add_sub_cancel_left, eq_comm]
  · rw [h, add_sub_cancel_right]

/-! ## Folding -/

/-- Dividing by a negative factor exchanges the ends of the range, and with them the order in which
they are looked at. -/
theorem clamp_fold (hf : f ≠ 0) : (l.fold f).clamp x = l.clamp (x * f) / f := by
  have hx : x = x * f / f := (mul_div_cancel_right₀ x hf).symm
  show max (min (l.minIn / f) (l.maxIn / f)) (min (max (l.minIn / f) (l.maxIn / f)) x) = _
  rcases lt_or_gt_of_ne hf with hneg | hpos
  · rw [min_div_div_right_of_nonpos hneg.le, max_div_div_right_of_nonpos hneg.le]
    conv_lhs => rw [hx]
    rw [min_div_div_right_of_nonpos hneg.le, max_div_div_right_of_nonpos hneg.le, clamp_eq_min]
  · rw [min_div_div_right hpos.le, max_div_div_right hpos.le]
    conv_lhs => rw [hx]
    rw [min_div_div_right hpos.le, max_div_div_right hpos.le, clamp]

/-- A value lies as far along the folded range as its product along the range. -/
theorem portion_fold (hf : f ≠ 0) : (l.fold f).portion x = l.portion (x * f) := by
  calc (l.fold f).portion x
      = (l.clamp (x * f) / f - l.minIn / f) / (l.maxIn / f - l.minIn / f) := by
        rw [portion, clamp_fold hf]
        rfl
    _ = (l.clamp (x * f) - l.minIn) / f / ((l.maxIn - l.minIn) / f) := by
        rw [div_sub_div_same, div_sub_div_same]
    _ = l.portion (x * f) := div_div_div_cancel_right₀ hf _ _

theorem quantise_fold_of_pos (hf : 0 < f) : (l.fold f).quantise x = l.quantise (x * f) := by
  obtain ⟨hmin, hmax⟩ := fold_of_pos (l := l) hf
  rw [quantise, hmin, hmax, portion_fold hf.ne', quantise]

theorem quantise_fold_of_neg (hf : f < 0) :
    (l.fold f).quantise x = l.swapped.quantise (x * f) := by
  obtain ⟨hmin, hmax⟩ := fold_of_neg (l := l) hf
  rw [quantise, hmin, hmax, portion_fold hf.ne]
  rfl

/-- The folded levels agree with the levels for positive factors only, unless the output values are
the same. -/
theorem quantise_fold_eq_iff (hf : f ≠ 0) (hrange : l.minIn < l.maxIn) :
    (l.fold f).quantise x = l.quantise (x * f) ↔ 0 < f ∨ l.minOut = l.maxOut := by
  rcases lt_or_gt_of_ne hf with hneg | hpos
  · rw [quantise_fold_of_neg hneg, quantise_swapped_eq_iff hrange]
    exact (or_iff_right hneg.not_gt).symm
  · exact iff_of_true (quantise_fold_of_pos hpos) (.inl hpos)

end Levels

/-- At every index the folded thresholds are the old ones folded with the factor there. -/
theorem folded_levels {multiplier : Constant ℚ} {old new : Thresholds ℚ} {u : Shape}
    {index : List Nat} (hrun : (foldMultiplier multiplier old).run = .ok (some new))
    (hu : ∀ c ∈ multiplier :: old.parts, c.shape.broadcast? u = some u) (hindex : u.Contains index) :
    ∃ f l, multiplier.read? u index = some f ∧ old.read? u index = some l ∧
      new.read? u index = some (l.fold f) := by
  obtain ⟨shape, hfolded⟩ := exists_folded hrun
  obtain ⟨f, l, -, hread⟩ := foldMultiplier_read? hindex hrun (hfolded.broadcast? hu)
  exact ⟨f, l, hread⟩

/-- **A folded quantisation agrees for positive factors.**  Thresholds that can be folded are
folded, if there is room for the operands.  Wherever these are read, the quantisation gives for a
value what it gave for the product if the factor there is positive, and otherwise what it would have
given with its output values swapped, which is the same for equal output values only. -/
theorem folded_quantise_eq_iff (multiplier : Constant ℚ) (old : Thresholds ℚ) :
    (Shape.JoinsFit ((multiplier :: old.parts).map (·.shape)) → Storable multiplier old →
      Foldable multiplier old → ∃ new, (foldMultiplier multiplier old).run = .ok (some new)) ∧
    ∀ new, (foldMultiplier multiplier old).run = .ok (some new) →
      ∀ u index, (∀ c ∈ multiplier :: old.parts, c.shape.broadcast? u = some u) →
        u.Contains index →
        ∃ f l l', multiplier.read? u index = some f ∧ old.read? u index = some l ∧
          new.read? u index = some l' ∧
          (f ≠ 0 → l.minIn < l.maxIn → ∀ x,
            (l'.quantise x = l.quantise (x * f) ↔ 0 < f ∨ l.minOut = l.maxOut) ∧
            (f < 0 → l'.quantise x = l.swapped.quantise (x * f))) := by
  constructor
  · intro hfits hroom hfoldable
    exact hfoldable.exists_eq_some hfits hroom
  · intro new hrun u index hu hindex
    obtain ⟨f, l, hf, hl, hfold⟩ := folded_levels hrun hu hindex
    refine ⟨f, l, l.fold f, hf, hl, hfold, fun hne hrange x => ?_⟩
    exact ⟨Levels.quantise_fold_eq_iff hne hrange, Levels.quantise_fold_of_neg⟩

/-- Both columns of the folded thresholds: with the positive factor the result is the same, and with
the negative one it is the other output value. -/
theorem mixedThresholds_quantise :
    Foldable columnFactors mixedThresholds ∧
    ∃ new l l', (foldMultiplier columnFactors mixedThresholds).run = .ok (some new) ∧
      new.read? [2, 2] [0, 0] = some l ∧ l.quantise 2 = Levels.quantise ⟨1, 3, 0, 1⟩ (2 * 2) ∧
      new.read? [2, 2] [0, 1] = some l' ∧
      l'.quantise (-1) = Levels.quantise ⟨1, 3, 1, 0⟩ (-1 * -4) ∧
      l'.quantise (-1) ≠ Levels.quantise ⟨1, 3, 0, 1⟩ (-1 * -4) := by
  obtain ⟨hfits, hroom, hfoldable⟩ := mixedThresholds_foldable
  obtain ⟨hexists, hread⟩ := folded_quantise_eq_iff columnFactors mixedThresholds
  obtain ⟨new, hrun⟩ := hexists hfits hroom hfoldable
  have hu : ∀ c ∈ columnFactors :: mixedThresholds.parts,
      c.shape.broadcast? [2, 2] = some [2, 2] := by decide
  obtain ⟨f, l, l₁, hf, hl, hl₁, hfirst⟩ := hread new hrun [2, 2] [0, 0] hu (by decide)
  obtain ⟨f', l', l₂, hf', hl', hl₂, hsecond⟩ := hread new hrun [2, 2] [0, 1] hu (by decide)
  obtain rfl : 2 = f := Option.some.inj (by rw [← hf]; decide +kernel)
  obtain rfl : -4 = f' := Option.some.inj (by rw [← hf']; decide +kernel)
  obtain rfl : ⟨1, 3, 0, 1⟩ = l := Option.some.inj (by rw [← hl]; decide +kernel)
  obtain rfl : ⟨1, 3, 0, 1⟩ = l' := Option.some.inj (by rw [← hl']; decide +kernel)
  obtain ⟨hfirst, -⟩ := hfirst (by norm_num) (by norm_num) 2
  obtain ⟨hother, hsecond⟩ := hsecond (by norm_num) (by norm_num) (-1)
  refine ⟨hfoldable, new, l₁, l₂, hrun, hl₁, hfirst.mpr (by norm_num), hl₂,
    hsecond (by norm_num), fun h => ?_⟩
  exact absurd (hother.mp h) (by norm_num)

/-- The sign of a number as a bit, in a symmetric range. -/
def signThresholds : Thresholds ℚ where
  minIn := ⟨[-10], [1]⟩
  maxIn := ⟨[10], [1]⟩
  minOut := ⟨[0], [1]⟩
  maxOut := ⟨[1], [1]⟩

/-- With a negative factor the sign is the wrong one.  The product is the lower end of the range,
far from its middle, and the bit for it is zero; the folded thresholds give one. -/
theorem signThresholds_reversed :
    ∃ new l', (foldMultiplier ⟨[-1], [1]⟩ signThresholds).run = .ok (some new) ∧
      signThresholds.read? [1] [0] = some ⟨-10, 10, 0, 1⟩ ∧ new.read? [1] [0] = some l' ∧
      Levels.clamp ⟨-10, 10, 0, 1⟩ (10 * -1) ≠ (-10 + 10) / 2 ∧
      Levels.quantise ⟨-10, 10, 0, 1⟩ (10 * -1) = 0 ∧ l'.quantise 10 = 1 := by
  have hfits : Shape.JoinsFit ((⟨[-1], [1]⟩ :: signThresholds.parts).map (·.shape)) :=
    Shape.joinsFit_of_bound (u := [1]) (by decide) (by decide)
  have hfoldable : Foldable ⟨[-1], [1]⟩ signThresholds :=
    .of_broadcast rfl rfl rfl rfl (by decide)
  have hroom : Storable ⟨[-1], [1]⟩ signThresholds :=
    storable_of_bound (u := [1]) (by decide) (by decide)
  obtain ⟨new, hrun⟩ := hfoldable.exists_eq_some hfits hroom
  have hindex : Shape.Contains [1] [0] := by decide
  obtain ⟨f, l, hf, hl, hfold⟩ := folded_levels hrun (by decide) hindex
  obtain rfl : -1 = f := Option.some.inj (by rw [← hf]; decide +kernel)
  obtain rfl : ⟨-10, 10, 0, 1⟩ = l := Option.some.inj (by rw [← hl]; decide +kernel)
  have hlower : Levels.portion ⟨-10, 10, 0, 1⟩ (10 * -1) = 0 := by
    norm_num [Levels.portion, Levels.clamp]
  have hzero : Levels.quantise ⟨-10, 10, 0, 1⟩ (10 * -1) = 0 := by
    rw [Levels.quantise, hlower, round_zero]
    norm_num
  refine ⟨new, _, hrun, hl, hfold, ?_, ?_, ?_⟩
  · norm_num [Levels.clamp]
  · exact hzero
  · rw [Levels.quantise_fold_of_neg (by norm_num), Levels.quantise_swapped, hzero]
    norm_num

end TensorGraph
