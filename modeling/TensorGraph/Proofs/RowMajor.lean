/-
  Row-major order.

  The elements of a tensor stand in a list, the last axis running fastest.  `position` is the place
  of an index in that list and `indexAt` is the index at a place; they are inverse to each other on
  the indices of a shape and the places below its product.

  Both go axis by axis: a place is a multiple of the product of the later dimensions and a place in
  what they span.  So `position_lt`, `position_indexAt` and `indexAt_position` are inductions over
  the dimensions with one division in each step, and nothing else about places is used outside this
  module.
-/
import TensorGraph.Proofs.Grid

namespace TensorGraph.Shape

variable {s : Shape} {d : Nat} {index : List Nat}

/-! ## Indices, axis by axis -/

@[simp] theorem contains_nil : Contains [] index ↔ index = [] := by
  unfold Contains
  constructor
  · exact fun h => List.length_eq_zero_iff.mp h.1
  · rintro rfl
    simp

@[simp] theorem contains_cons_cons {i : Nat} :
    Contains (d :: s) (i :: index) ↔ i < d ∧ s.Contains index := by
  simp only [Contains, List.length_cons, List.zip_cons_cons, List.forall_mem_cons,
    Nat.add_right_cancel_iff]
  exact and_left_comm

/-- An index has a coordinate inside the first dimension and the rest inside the others. -/
theorem contains_cons :
    Contains (d :: s) index ↔ ∃ i rest, index = i :: rest ∧ i < d ∧ s.Contains rest := by
  cases index with
  | nil => simp [Contains]
  | cons i rest => simp

/-- What lies inside a shape lies inside it axis by axis. -/
theorem contains_append {outer : Shape} {first : List Nat} (h : first.length = outer.length) :
    Contains (outer ++ s) (first ++ index) ↔ outer.Contains first ∧ s.Contains index := by
  induction outer generalizing first with
  | nil =>
    obtain rfl : first = [] := List.length_eq_zero_iff.mp h
    simp
  | cons d outer ih =>
    cases first with
    | nil => cases h
    | cons i first =>
      have hlength : first.length = outer.length := Nat.succ.inj h
      rw [List.cons_append, List.cons_append, contains_cons_cons, contains_cons_cons, ih hlength,
        and_assoc]

/-! ## Places -/

/-- The place of an index in row-major order. -/
def position : Shape → List Nat → Nat
  | _ :: s, i :: index => i * s.prod + position s index
  | _, _ => 0

/-- The index at a place in row-major order. -/
def indexAt : Shape → Nat → List Nat
  | [], _ => []
  | _ :: s, n => n / s.prod :: indexAt s (n % s.prod)

/-- A place is below the number of elements. -/
theorem position_lt (h : s.Contains index) : s.position index < s.prod := by
  induction s generalizing index with
  | nil =>
    rw [contains_nil.mp h]
    decide
  | cons d s ih =>
    obtain ⟨i, rest, rfl, hi, hrest⟩ := contains_cons.mp h
    have hinner := ih hrest
    -- the row of `i` ends before the rows of `d` do
    have hrows : (i + 1) * s.prod ≤ d * s.prod := Nat.mul_le_mul_right _ hi
    rw [position, List.prod_cons]
    rw [Nat.succ_mul] at hrows
    omega

/-- What is at a place is an index of the shape. -/
theorem contains_indexAt {n : Nat} (h : n < s.prod) : s.Contains (s.indexAt n) := by
  induction s generalizing n with
  | nil => exact contains_nil.mpr rfl
  | cons d s ih =>
    rw [List.prod_cons] at h
    have hpos : 0 < s.prod := Nat.pos_of_mul_pos_left (Nat.zero_lt_of_lt h)
    refine contains_cons_cons.mpr ⟨?_, ih (Nat.mod_lt n hpos)⟩
    exact Nat.div_lt_of_lt_mul (by rwa [Nat.mul_comm])

/-- The index at a place has this place. -/
theorem position_indexAt {n : Nat} (h : n < s.prod) : s.position (s.indexAt n) = n := by
  induction s generalizing n with
  | nil =>
    rw [List.prod_nil] at h
    show 0 = n
    omega
  | cons d s ih =>
    rw [List.prod_cons] at h
    have hpos : 0 < s.prod := Nat.pos_of_mul_pos_left (Nat.zero_lt_of_lt h)
    rw [indexAt, position, ih (Nat.mod_lt n hpos), Nat.mul_comm]
    exact Nat.div_add_mod n s.prod

/-- An index is the one at its place. -/
theorem indexAt_position (h : s.Contains index) : s.indexAt (s.position index) = index := by
  induction s generalizing index with
  | nil => rw [contains_nil.mp h, indexAt]
  | cons d s ih =>
    obtain ⟨i, rest, rfl, -, hrest⟩ := contains_cons.mp h
    have hlt := position_lt hrest
    have hpos : 0 < s.prod := Nat.zero_lt_of_lt hlt
    rw [position, indexAt, Nat.mul_comm, Nat.mul_add_div hpos, Nat.mul_add_mod,
      Nat.div_eq_of_lt hlt, Nat.mod_eq_of_lt hlt, ih hrest, Nat.add_zero]

/-- Lists of elements are equal if they agree at all indices. -/
theorem eq_of_position {β : Type} {xs ys : List β} (hxs : xs.length = s.prod)
    (hys : ys.length = s.prod)
    (h : ∀ index, s.Contains index → xs[s.position index]? = ys[s.position index]?) : xs = ys := by
  apply List.ext_getElem?
  intro n
  rcases Nat.lt_or_ge n s.prod with hn | hn
  · have hplace := h _ (contains_indexAt hn)
    rwa [position_indexAt hn] at hplace
  · rw [List.getElem?_eq_none (by omega), List.getElem?_eq_none (by omega)]

end TensorGraph.Shape
