/-
  Tensors as functions of an index.

  For what an operator means it does not matter how elements are stored: a `Grid` is a shape and an
  element for every index inside it.  Permuting the axes takes the element at index `k` to the index
  that the permutation makes of `k`, so an element is found by undoing the permutation.

  Two laws carry the fusion of permutes: permuting twice is permuting once by the composed order
  (`permute_permute`), and an order that changes nothing leaves the grid as it is
  (`permute_of_isIdentity`).
-/
import TensorGraph.Proofs.Shape

namespace TensorGraph

/-! ## Selecting from two lists -/

namespace Permutation

variable {β γ : Type}

/-- Pairs move as their parts do. -/
theorem select_zip {positions : List Nat} {left : List β} {right : List γ}
    (hleft : ∀ i ∈ positions, i < left.length) (hright : ∀ i ∈ positions, i < right.length) :
    select positions (left.zip right) = (select positions left).zip (select positions right) := by
  induction positions with
  | nil => rfl
  | cons i positions ih =>
    obtain ⟨x, hx⟩ : ∃ x, left[i]? = some x :=
      ⟨_, List.getElem?_eq_getElem (hleft i List.mem_cons_self)⟩
    obtain ⟨y, hy⟩ : ∃ y, right[i]? = some y :=
      ⟨_, List.getElem?_eq_getElem (hright i List.mem_cons_self)⟩
    have hxy : (left.zip right)[i]? = some (x, y) := List.getElem?_zip_eq_some.mpr ⟨hx, hy⟩
    rw [select, List.filterMap_cons_some hxy, select, List.filterMap_cons_some hx, select,
      List.filterMap_cons_some hy]
    exact congrArg (_ :: ·) (ih (fun j hj => hleft j (List.mem_cons_of_mem _ hj))
      fun j hj => hright j (List.mem_cons_of_mem _ hj))

end Permutation

/-! ## Grids -/

/-- The index has one entry for each axis, below the dimension of the axis. -/
def Shape.Contains (s : Shape) (index : List Nat) : Prop :=
  index.length = s.length ∧ ∀ x ∈ index.zip s, x.1 < x.2

instance (s : Shape) (index : List Nat) : Decidable (s.Contains index) :=
  inferInstanceAs (Decidable (_ ∧ _))

/-- A shape, and an element at every index inside it. -/
@[ext] structure Grid (β : Type) where
  shape : Shape
  entry : List Nat → Option β
  defined : ∀ index, entry index ≠ none ↔ shape.Contains index

theorem Shape.contains_select {p : Permutation} {s : Shape} {index : List Nat}
    (hs : s.length = p.size) (hindex : index.length = p.size) :
    Shape.Contains (Permutation.select p.order s) (Permutation.select p.order index) ↔
      s.Contains index := by
  have hzip : (index.zip s).length = p.order.length := by
    rw [List.length_zip, hs, hindex, Nat.min_self]
    rfl
  rw [Shape.Contains, Shape.Contains, ← Permutation.select_zip, Permutation.length_select hs,
    Permutation.length_select hindex, hs, hindex]
  · refine and_congr_right fun _ => ?_
    simp only [(Permutation.select_perm p hzip).mem_iff]
  · exact fun i hi => hindex ▸ Permutation.mem_order_lt hi
  · exact fun i hi => hs ▸ Permutation.mem_order_lt hi

namespace Grid

open Permutation

variable {β : Type}

/-- The grid with the given elements. -/
def tabulate (shape : Shape) (f : List Nat → β) : Grid β where
  shape := shape
  entry := fun index => if shape.Contains index then some (f index) else none
  defined := by
    intro index
    split <;> simp [*]

theorem entry_eq_none (t : Grid β) {index : List Nat} (h : index.length ≠ t.shape.length) :
    t.entry index = none := by
  by_contra hentry
  exact h ((t.defined index).mp hentry).1

/-- The grid with its axes permuted: axis `i` is the axis `order[i]` of `t`. -/
def permute (t : Grid β) (p : Permutation) (h : t.shape.length = p.size) : Grid β where
  shape := select p.order t.shape
  entry := fun index => if index.length = p.size then t.entry (select p.inverse.order index) else none
  defined := by
    intro index
    split
    · rename_i hindex
      have hlength : (select p.inverse.order index).length = p.size := by
        rw [length_select (by rw [hindex, size_inverse]), size_inverse]
      rw [t.defined, ← Shape.contains_select h hlength, select_select_inverse hindex]
    · rename_i hindex
      refine iff_of_false (fun h => h rfl) fun hcontains => hindex ?_
      rw [hcontains.1, length_select h]

/-- The element at an index of the grid is found at the permuted index. -/
theorem entry_permute (t : Grid β) (p : Permutation) (h : t.shape.length = p.size)
    {index : List Nat} (hindex : index.length = p.size) :
    (t.permute p h).entry (select p.order index) = t.entry index := by
  show (if (select p.order index).length = p.size then _ else none) = _
  rw [if_pos (length_select hindex), select_inverse_select hindex]

theorem length_shape_permute (t : Grid β) (p : Permutation) (h : t.shape.length = p.size) :
    (t.permute p h).shape.length = p.size :=
  length_select h

/-- A grid is a permuted one if its shape is and its elements are found at the permuted indices. -/
theorem eq_permute {t u : Grid β} {p : Permutation} (h : t.shape.length = p.size)
    (hshape : u.shape = select p.order t.shape)
    (hentry : ∀ index, index.length = p.size → u.entry (select p.order index) = t.entry index) :
    u = t.permute p h := by
  refine Grid.ext hshape (funext fun index => ?_)
  by_cases hindex : index.length = p.size
  · -- every index of the right length is a permuted one
    have hback : (select p.inverse.order index).length = p.size := by
      rw [length_select (by rw [hindex, size_inverse]), size_inverse]
    rw [← select_select_inverse hindex, hentry _ hback, t.entry_permute p h hback]
  · rw [entry_eq_none u, entry_eq_none (t.permute p h)]
    · rwa [length_shape_permute]
    · rwa [hshape, length_select h]

/-- Permuting twice is permuting once by the composed order. -/
theorem permute_permute {t : Grid β} {first next composed : Permutation}
    (hcomposed : first.compose? next = some composed) (hfirst : t.shape.length = first.size)
    (hnext : (t.permute first hfirst).shape.length = next.size)
    (h : t.shape.length = composed.size) :
    (t.permute first hfirst).permute next hnext = t.permute composed h := by
  have hsize : next.size = first.size := by rw [← hnext, length_shape_permute]
  -- on every list of the right length the two orders act one after the other
  have hselect : ∀ {γ : Type} {values : List γ}, values.length = first.size →
      select composed.order values = select next.order (select first.order values) := by
    intro γ values hvalues
    refine (permute?_eq_some_iff.mp (permute?_compose? hcomposed
      (permute?_eq_some_iff.mpr ⟨hvalues, rfl⟩) (permute?_eq_some_iff.mpr ⟨?_, rfl⟩))).2
    rw [length_select hvalues, hsize]
  refine eq_permute h ?_ fun index hindex => ?_
  · exact (hselect hfirst).symm
  · have hindex' : index.length = first.size := by rw [hindex, ← h, hfirst]
    rw [hselect hindex', entry_permute _ next hnext, entry_permute _ first hfirst hindex']
    rw [length_select hindex', hsize]

theorem permute_of_isIdentity {t : Grid β} {p : Permutation} (hp : p.isIdentity = true)
    (h : t.shape.length = p.size) : t.permute p h = t := by
  have hselect : ∀ {γ : Type} {values : List γ}, values.length = p.size →
      select p.order values = values := fun hvalues =>
    permute?_of_isIdentity hp (permute?_eq_some_iff.mpr ⟨hvalues, rfl⟩)
  refine (eq_permute h (hselect h).symm fun index hindex => ?_).symm
  rw [hselect hindex]

/-- The permuted grid, if the order has an entry for each of its axes. -/
def permute? (t : Grid β) (p : Permutation) : Option (Grid β) :=
  if h : t.shape.length = p.size then some (t.permute p h) else none

end Grid

end TensorGraph
