/-
  Folding a multiplier, element by element.

  A constant is read at an index of any shape that it broadcasts to.  Writing it out at a larger
  shape does not change what is read (`read?_of_broadcastTo`), so the folded thresholds can be read
  off the old ones: at each index the input range is divided by the factor there, and the output
  values are swapped if it is negative.

  `Levels` are the four numbers at one index, and `Levels.fold` is folding for them.  The code works
  on whole constants: it broadcasts all of them to shapes in common (`WrittenOut`), combines the
  lists of elements by place, and swaps the output values by the sign of the factor.
  `foldMultiplier_read?` says that, read at an index, the result is the fold of what the operands
  give there.
-/
import TensorGraph.Rule.Threshold
import TensorGraph.Proofs.Broadcast

namespace TensorGraph

variable {α : Type}

/-! ## Reading constants -/

/-- The parts of thresholds. -/
def Thresholds.parts (t : Thresholds α) : List (Constant α) :=
  [t.minIn, t.maxIn, t.minOut, t.maxOut]

/-- The element of a constant that is read at an index of a tensor of the given shape; nothing
unless the constant broadcasts to this shape. -/
def Constant.read? (c : Constant α) (shape : Shape) (index : List Nat) : Option α :=
  if c.shape.broadcast? shape = some shape then
    c.values[c.shape.position (c.shape.project index)]?
  else none

/-- A quantisation at one element: its input range and its output values. -/
structure Levels (α : Type) where
  minIn : α
  maxIn : α
  minOut : α
  maxOut : α
deriving DecidableEq

/-- The thresholds that are read at an index. -/
def Thresholds.read? (t : Thresholds α) (shape : Shape) (index : List Nat) : Option (Levels α) := do
  return ⟨← t.minIn.read? shape index, ← t.maxIn.read? shape index, ← t.minOut.read? shape index,
    ← t.maxOut.read? shape index⟩

theorem Thresholds.read?_eq_some_iff {t : Thresholds α} {shape : Shape} {index : List Nat}
    {l : Levels α} :
    t.read? shape index = some l ↔ t.minIn.read? shape index = some l.minIn ∧
      t.maxIn.read? shape index = some l.maxIn ∧ t.minOut.read? shape index = some l.minOut ∧
      t.maxOut.read? shape index = some l.maxOut := by
  obtain ⟨a, b, c, d⟩ := l
  simp [Thresholds.read?, Option.bind_eq_some_iff]

/-- A constant that has been broadcast is read as before, and has an element at every index. -/
theorem read?_of_broadcastTo {c : Constant α} {out : List α} {target u : Shape} {index : List Nat}
    (h : (broadcastTo c.values c.shape target).run = .ok (some out))
    (hu : target.broadcast? u = some u) (hindex : u.Contains index) :
    ∃ x, x ∈ c.values ∧ c.read? u index = some x ∧
      out[target.position (target.project index)]? = some x := by
  obtain ⟨hbroadcast, hlength, -, hentries⟩ := broadcastTo_eq_some h
  have hproject := Shape.project_project hbroadcast hu hindex
  have hinside := Shape.contains_project hbroadcast (Shape.contains_project hu hindex)
  rw [hproject] at hinside
  have hlt : c.shape.position (c.shape.project index) < c.values.length :=
    hlength ▸ Shape.position_lt hinside
  have hread := List.getElem?_eq_getElem hlt
  refine ⟨_, List.getElem_mem hlt, ?_, ?_⟩
  · rw [Constant.read?, if_pos (Shape.broadcast?_trans hbroadcast hu), hread]
  · rw [hentries _ (Shape.contains_project hu hindex), hproject, hread]

/-! ## Folding -/

variable [Scalar α]

/-- The levels that do for `x` what the given ones do for `x` times the factor. -/
def Levels.fold (l : Levels α) (factor : α) : Levels α where
  minIn := Scalar.div l.minIn factor
  maxIn := Scalar.div l.maxIn factor
  minOut := if Scalar.isNegative factor then l.maxOut else l.minOut
  maxOut := if Scalar.isNegative factor then l.minOut else l.maxOut

theorem getElem?_choose {factors first second : List α} {i : Nat} {f x y : α}
    (hf : factors[i]? = some f) (hx : first[i]? = some x) (hy : second[i]? = some y) :
    (choose factors first second)[i]? = some (if Scalar.isNegative f then y else x) := by
  have hpair : (factors.zip (first.zip second))[i]? = some (f, x, y) :=
    List.getElem?_zip_eq_some.mpr ⟨hf, List.getElem?_zip_eq_some.mpr ⟨hx, hy⟩⟩
  rw [choose, List.getElem?_map, hpair, Option.map_some]

/-- The operands of the output values, written out at one shape. -/
structure WrittenOut (multiplier : Constant α) (old : Thresholds α) (shape : Shape)
    (factors low high : List α) : Prop where
  factors_eq : (broadcastTo multiplier.values multiplier.shape shape).run = .ok (some factors)
  low_eq : (broadcastTo old.minOut.values old.minOut.shape shape).run = .ok (some low)
  high_eq : (broadcastTo old.maxOut.values old.maxOut.shape shape).run = .ok (some high)

/-- What is folded is written out first, and combined place by place. -/
theorem foldMultiplier_eq_some {multiplier : Constant α} {old new : Thresholds α}
    (h : (foldMultiplier multiplier old).run = .ok (some new)) :
    ∃ partly shape factors low high,
      (multiplier.shape.broadcast? old.minOut.shape = some partly ∧
        partly.broadcast? old.maxOut.shape = some shape) ∧
      WrittenOut multiplier old shape factors low high ∧
      (divide old.minIn factors shape).run = .ok (some new.minIn) ∧
      (divide old.maxIn factors shape).run = .ok (some new.maxIn) ∧
      new.minOut = ⟨choose factors low high, shape⟩ ∧
      new.maxOut = ⟨choose factors high low, shape⟩ := by
  rw [foldMultiplier] at h
  split at h
  case h_2 => cases h
  rename_i partly hpartly
  split at h
  case h_2 => cases h
  rename_i shape hshape
  obtain ⟨factors, hfactors, h⟩ := optionT_bind_eq_some.mp h
  obtain ⟨low, hlow, h⟩ := optionT_bind_eq_some.mp h
  obtain ⟨high, hhigh, h⟩ := optionT_bind_eq_some.mp h
  obtain ⟨minIn, hminIn, h⟩ := optionT_bind_eq_some.mp h
  obtain ⟨maxIn, hmaxIn, h⟩ := optionT_bind_eq_some.mp h
  cases h
  exact ⟨partly, shape, factors, low, high, ⟨hpartly, hshape⟩, ⟨hfactors, hlow, hhigh⟩, hminIn,
    hmaxIn, rfl, rfl⟩

section Read

variable {u : Shape} {index : List Nat} (hindex : u.Contains index)
include hindex

/-- The quotient of a threshold is read as the quotient of what is read. -/
theorem divide_read? {threshold out : Constant α} {factors : List α} {shape : Shape}
    (h : (divide threshold factors shape).run = .ok (some out))
    (hu : out.shape.broadcast? u = some u) {f : α}
    (hf : factors[shape.position (shape.project index)]? = some f) :
    ∃ x, threshold.read? u index = some x ∧ out.read? u index = some (Scalar.div x f) := by
  rw [divide] at h
  split at h
  case h_2 => cases h
  obtain ⟨dividends, hdividends, h⟩ := optionT_bind_eq_some.mp h
  obtain ⟨divisors, hdivisors, h⟩ := optionT_bind_eq_some.mp h
  cases h
  obtain ⟨x, -, hx, hdividend⟩ := read?_of_broadcastTo hdividends hu hindex
  obtain ⟨f', -, hf', hdivisor⟩ :=
    read?_of_broadcastTo (c := ⟨factors, shape⟩) hdivisors hu hindex
  obtain rfl : f' = f := by
    rw [Constant.read?] at hf'
    split at hf'
    · exact Option.some.inj (hf'.symm.trans hf)
    · cases hf'
  refine ⟨x, hx, ?_⟩
  rw [Constant.read?, if_pos hu, List.getElem?_zipWith_eq_some]
  exact ⟨x, f', hdividend, hdivisor, rfl⟩

/-- The operands that are written out are read at one place, where the output values are chosen. -/
theorem WrittenOut.read? {multiplier : Constant α} {old : Thresholds α} {shape : Shape}
    {factors low high : List α} (h : WrittenOut multiplier old shape factors low high)
    (hu : shape.broadcast? u = some u) :
    ∃ f lo hi, f ∈ multiplier.values ∧ factors[shape.position (shape.project index)]? = some f ∧
      multiplier.read? u index = some f ∧ old.minOut.read? u index = some lo ∧
      old.maxOut.read? u index = some hi ∧
      Constant.read? ⟨choose factors low high, shape⟩ u index =
        some (if Scalar.isNegative f then hi else lo) ∧
      Constant.read? ⟨choose factors high low, shape⟩ u index =
        some (if Scalar.isNegative f then lo else hi) := by
  obtain ⟨f, hmem, hf, hfactor⟩ := read?_of_broadcastTo h.factors_eq hu hindex
  obtain ⟨lo, -, hlo, hlower⟩ := read?_of_broadcastTo h.low_eq hu hindex
  obtain ⟨hi, -, hhi, hupper⟩ := read?_of_broadcastTo h.high_eq hu hindex
  refine ⟨f, lo, hi, hmem, hfactor, hf, hlo, hhi, ?_, ?_⟩
  · rw [Constant.read?, if_pos hu]
    exact getElem?_choose hfactor hlower hupper
  · rw [Constant.read?, if_pos hu]
    exact getElem?_choose hfactor hupper hlower

/-- Folding is done element by element: at every index of a shape that the new thresholds broadcast
to, they are the old ones folded with the factor at that index. -/
theorem foldMultiplier_read? {multiplier : Constant α} {old new : Thresholds α}
    (h : (foldMultiplier multiplier old).run = .ok (some new))
    (hu : ∀ part ∈ new.parts, part.shape.broadcast? u = some u) :
    ∃ f l, f ∈ multiplier.values ∧ multiplier.read? u index = some f ∧
      old.read? u index = some l ∧ new.read? u index = some (l.fold f) := by
  obtain ⟨partly, shape, factors, low, high, -, hwritten, hminIn, hmaxIn, hminOut, hmaxOut⟩ :=
    foldMultiplier_eq_some h
  simp only [Thresholds.parts, List.forall_mem_cons] at hu
  obtain ⟨huMinIn, huMaxIn, huOut, -⟩ := hu
  rw [hminOut] at huOut
  obtain ⟨f, lo, hi, hmem, hfactor, hf, hlo, hhi, hlower, hupper⟩ := hwritten.read? hindex huOut
  obtain ⟨x, hx, hx'⟩ := divide_read? hindex hminIn huMinIn hfactor
  obtain ⟨y, hy, hy'⟩ := divide_read? hindex hmaxIn huMaxIn hfactor
  refine ⟨f, ⟨x, y, lo, hi⟩, hmem, hf, ?_, ?_⟩
  · exact Thresholds.read?_eq_some_iff.mpr ⟨hx, hy, hlo, hhi⟩
  · rw [← hminOut] at hlower
    rw [← hmaxOut] at hupper
    exact Thresholds.read?_eq_some_iff.mpr ⟨hx', hy', hlower, hupper⟩

end Read

end TensorGraph
