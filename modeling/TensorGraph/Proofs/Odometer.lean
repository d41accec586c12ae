/-
  The odometer walks the indices in row-major order.

  One turn takes the index at a place to the index at the next place, and the index at the last
  place back to the first (`advance_indexAt`).  So after `k` turns the odometer shows the index at
  place `k`, and a walk of as many turns as there are places reads every index once, in order
  (`walk_indexAt`, `walk_eq_ok`).

  The word arithmetic on the way does not overflow: a coordinate stays below its dimension, and the
  sums of an offset are at most the offset, which is inside the source.
-/
import TensorGraph.Tensor.Broadcast
import TensorGraph.Proofs.Graph.Check
import TensorGraph.Proofs.RowMajor

namespace TensorGraph

theorem checkedMul_of_lt {a b : Nat} (h : a * b < wordLimit) : checkedMul a b = .ok (a * b) :=
  if_pos h

theorem checkedAdd_of_lt {a b : Nat} (h : a + b < wordLimit) : checkedAdd a b = .ok (a + b) :=
  if_pos h

namespace Shape

/-! ## Turning -/

theorem indexAt_zero (s : Shape) : s.indexAt 0 = List.replicate s.length 0 := by
  induction s with
  | nil => rfl
  | cons d s ih => rw [indexAt, Nat.zero_div, Nat.zero_mod, ih, List.length_cons, List.replicate_succ]

/-- The index at a place of a row. -/
theorem indexAt_row {s : Shape} {d i j : Nat} (hj : j < s.prod) :
    indexAt (d :: s) (i * s.prod + j) = i :: s.indexAt j := by
  have hpos : 0 < s.prod := Nat.zero_lt_of_lt hj
  rw [indexAt, Nat.mul_comm, Nat.mul_add_div hpos, Nat.mul_add_mod, Nat.div_eq_of_lt hj,
    Nat.mod_eq_of_lt hj, Nat.add_zero]

/-- One turn goes to the next place, and from the last place to the first. -/
theorem advance_indexAt {s : Shape} {n : Nat} (hn : n < s.prod) (hs : s.prod < wordLimit) :
    s.advance (s.indexAt n) = .ok (s.indexAt ((n + 1) % s.prod), decide (n + 1 = s.prod)) := by
  induction s generalizing n with
  | nil =>
    obtain rfl : n = 0 := by rw [List.prod_nil] at hn; omega
    rfl
  | cons d s ih =>
    rw [List.prod_cons] at hn hs ⊢
    have hpos : 0 < s.prod := Nat.pos_of_mul_pos_left (Nat.zero_lt_of_lt hn)
    -- the place is place `j` of row `i`
    obtain ⟨i, j, hi, hj, rfl⟩ : ∃ i j, i < d ∧ j < s.prod ∧ n = i * s.prod + j :=
      ⟨n / s.prod, n % s.prod, Nat.div_lt_of_lt_mul (by rwa [Nat.mul_comm]), Nat.mod_lt n hpos,
        (Nat.div_add_mod' n s.prod).symm⟩
    have hrows : (i + 1) * s.prod ≤ d * s.prod := Nat.mul_le_mul_right _ hi
    have hd : d ≤ d * s.prod := Nat.le_mul_of_pos_right d hpos
    have hinner := ih hj (by rw [Nat.succ_mul] at hrows; omega)
    rw [indexAt_row hj, advance, hinner, except_ok_bind]
    by_cases hcarry : j + 1 = s.prod
    · have hnext : i * s.prod + j + 1 = (i + 1) * s.prod := by rw [Nat.succ_mul]; omega
      simp only [hcarry, Nat.mod_self, decide_true, if_true, hnext]
      rw [checkedAdd_of_lt (by omega), except_ok_bind]
      by_cases hlast : i + 1 < d
      · -- the next row
        have hlt : (i + 1) * s.prod < d * s.prod := Nat.mul_lt_mul_of_pos_right hlast hpos
        rw [if_pos hlast, Nat.mod_eq_of_lt hlt, decide_eq_false (Nat.ne_of_lt hlt),
          ← Nat.add_zero ((i + 1) * s.prod), indexAt_row hpos]
        rfl
      · -- all rows are done
        obtain rfl : i + 1 = d := by omega
        rw [if_neg hlast, Nat.mod_self, decide_eq_true rfl, indexAt_zero, indexAt_zero]
        rfl
    · -- the same row
      have hstay : j + 1 < s.prod := by omega
      have hlt : i * s.prod + (j + 1) < d * s.prod := by rw [Nat.succ_mul] at hrows; omega
      rw [Nat.add_assoc, decide_eq_false hcarry, decide_eq_false (Nat.ne_of_lt hlt),
        Nat.mod_eq_of_lt hstay, Nat.mod_eq_of_lt hlt, indexAt_row hstay]
      rfl

/-! ## Offsets -/

/-- The offset of an index: the dot product with the strides. -/
def offset : List Nat → List Nat → Nat
  | i :: index, stride :: strides => i * stride + offset index strides
  | _, _ => 0

/-- No sum on the way is larger than the last one. -/
theorem addOffset_of_lt {sum : Nat} {index strides : List Nat}
    (h : sum + offset index strides < wordLimit) :
    addOffset sum index strides = .ok (sum + offset index strides) := by
  induction index generalizing sum strides with
  | nil => rfl
  | cons i index ih =>
    cases strides with
    | nil => rfl
    | cons stride strides =>
      rw [offset] at h ⊢
      rw [addOffset, checkedMul_of_lt (by omega), except_ok_bind, checkedAdd_of_lt (by omega),
        except_ok_bind, ih (by omega), Nat.add_assoc]

end Shape

/-! ## Walking -/

section Walk

variable {β : Type} {values : Array β} {shape : Shape} {strides : List Nat}
  (hshape : shape.prod < wordLimit) (hsize : values.size ≤ wordLimit)
  (hinside : ∀ index, shape.Contains index → Shape.offset index strides < values.size)
include hshape hsize hinside

/-- A walk from a place to the last one reads the indices from this place on. -/
theorem walk_indexAt {count k : Nat} (hk : k + count = shape.prod) (out : Array β) :
    ∃ read : List β,
      walk values shape strides count (shape.indexAt (k % shape.prod)) out =
        .ok (out ++ read.toArray) ∧
      read.length = count ∧
      ∀ j < count, read[j]? = values[Shape.offset (shape.indexAt (k + j)) strides]? := by
  induction count generalizing k out with
  | zero => exact ⟨[], by simp [walk], rfl, by omega⟩
  | succ count ih =>
    have hlt : k < shape.prod := by omega
    have hoffset := hinside _ (Shape.contains_indexAt hlt)
    obtain ⟨read, hwalk, hlength, hread⟩ :=
      ih (k := k + 1) (by omega) (out.push (values[Shape.offset (shape.indexAt k) strides]))
    have hturn := Shape.advance_indexAt hlt hshape
    have hsum : Shape.addOffset 0 (shape.indexAt k) strides =
        .ok (0 + Shape.offset (shape.indexAt k) strides) := Shape.addOffset_of_lt (by omega)
    have helement : elementAt values (Shape.offset (shape.indexAt k) strides) =
        .ok values[Shape.offset (shape.indexAt k) strides] := by
      rw [elementAt, Array.getElem?_eq_getElem hoffset]
    refine ⟨values[Shape.offset (shape.indexAt k) strides] :: read, ?_, by simp [hlength], ?_⟩
    · rw [Nat.mod_eq_of_lt hlt, walk, hsum, except_ok_bind, Nat.zero_add, helement, except_ok_bind,
        hturn, except_ok_bind]
      show walk values shape strides count _ _ = _
      rw [hwalk]
      simp
    · intro j hj
      cases j with
      | zero => simp [hoffset]
      | succ j =>
        rw [List.getElem?_cons_succ, hread j (by omega), Nat.add_assoc, Nat.add_comm 1]

/-- A walk over all indices reads each of them at its offset. -/
theorem walk_eq_ok :
    ∃ out, walk values shape strides shape.prod (List.replicate shape.length 0) #[] = .ok out ∧
      out.toList.length = shape.prod ∧
      ∀ index, shape.Contains index →
        out.toList[shape.position index]? = values[Shape.offset index strides]? := by
  obtain ⟨read, hwalk, hlength, hread⟩ :=
    walk_indexAt hshape hsize hinside (k := 0) (Nat.zero_add _) #[]
  rw [Nat.zero_mod, Shape.indexAt_zero] at hwalk
  refine ⟨_, hwalk, by simpa using hlength, fun index hindex => ?_⟩
  have hplace := hread _ (Shape.position_lt hindex)
  rw [Nat.zero_add, Shape.indexAt_position hindex] at hplace
  simpa using hplace

end Walk

end TensorGraph
