/-
  Shapes under the operations.

  What the rules need to know about the shapes that operations give, permutes apart: broadcasting
  does not depend on the order of its arguments, and a reshape to a given shape gives this shape as
  long as the dimensions and their partial products stay within their words (`Fits`).

    * `broadcast?_comm`, from the last dimension to the first;
    * `resolveReshape_ofNat`: dimensions that are written out are taken as they are;
    * `resolveReshape_append_one`, `resolveReshape_remove_one`: a unit dimension behind the others
      can be added and taken away, also if there are zeros among them, which a reshape copies from
      its input.
-/
import TensorGraph.Inference
import TensorGraph.Proofs.Permutation
import Mathlib.Algebra.BigOperators.Group.List.Basic

namespace TensorGraph

/-! ## Broadcasting -/

namespace Shape

theorem broadcastDim?_comm (l r : Nat) : broadcastDim? l r = broadcastDim? r l := by
  grind [broadcastDim?]

theorem broadcastInner?_comm (l r : List Nat) : broadcastInner? l r = broadcastInner? r l := by
  induction l generalizing r with
  | nil => cases r <;> rfl
  | cons a l ih =>
    cases r with
    | nil => rfl
    | cons b r => rw [broadcastInner?, broadcastInner?, broadcastDim?_comm, ih]

/-- Broadcasting does not depend on the order of its arguments. -/
theorem broadcast?_comm (lhs rhs : Shape) : broadcast? lhs rhs = broadcast? rhs lhs := by
  rw [broadcast?, broadcastInner?_comm, broadcast?]

end Shape

/-! ## Reshaping -/

namespace Shape

/-- Dimensions are signed words, and so that elements can be counted, partial products are words. -/
def Fits (s : Shape) : Prop :=
  (∀ d ∈ s, d < 2 ^ 63) ∧ ∀ k, (s.take k).prod < wordLimit

/-- Longer initial parts than the whole add nothing. -/
theorem fits_iff {s : Shape} :
    s.Fits ↔ (∀ d ∈ s, d < 2 ^ 63) ∧ ∀ k < s.length + 1, (s.take k).prod < wordLimit := by
  refine and_congr_right fun _ => ⟨fun h k _ => h k, fun h k => ?_⟩
  by_cases hk : k < s.length + 1
  · exact h k hk
  · rw [List.take_of_length_le (by omega), ← List.take_length (l := s)]
    exact h s.length (by omega)

instance (s : Shape) : Decidable s.Fits :=
  decidable_of_iff _ fits_iff.symm

theorem dims_append_one {s : Shape} (h : ∀ d ∈ s, d < 2 ^ 63) : ∀ d ∈ s ++ [1], d < 2 ^ 63 := by
  intro d hd
  rcases List.mem_append.mp hd with hd | hd
  · exact h d hd
  · rw [List.mem_singleton.mp hd]
    decide

/-- A unit axis fits. -/
theorem Fits.append_one {s : Shape} (h : s.Fits) : Fits (s ++ [1]) := by
  refine ⟨dims_append_one h.1, fun k => ?_⟩
  have hone : ([1].take (k - s.length)).prod = 1 := by
    cases k - s.length <;> simp
  rw [List.take_append, List.prod_append, hone, Nat.mul_one]
  exact h.2 k

/-- Counting goes through if no partial product is too large. -/
theorem foldlM_checkedMul {s : Shape} {n : Nat} (h : ∀ k, n * (s.take k).prod < wordLimit) :
    s.foldlM checkedMul n = .ok (n * s.prod) := by
  induction s generalizing n with
  | nil => simp [pure, Except.pure]
  | cons d s ih =>
    have hfirst : n * d < wordLimit := by simpa using h 1
    rw [List.foldlM_cons, checkedMul, if_pos hfirst, List.prod_cons, ← Nat.mul_assoc]
    refine ih fun k => ?_
    simpa [Nat.mul_assoc] using h (k + 1)

theorem Fits.count_eq {s : Shape} (h : s.Fits) : s.count = .ok s.prod := by
  rw [count, foldlM_checkedMul (by simpa using h.2), Nat.one_mul]

end Shape

theorem resolveDim_ofNat {op : NodeId} {input : Shape} {position d : Nat} (hd : d < 2 ^ 63)
    (hzero : d = 0 → input[position]? = some 0) :
    resolveDim op input position (Int64.ofNat d) = .ok (some d) := by
  have hvalue : (Int64.ofNat d).toInt = d := Int64.toInt_ofNat_of_lt hd
  have hnonneg : Int64.ofNat d ≠ -1 := fun h => by
    have hneg : (d : Int) = -1 := by rw [← hvalue, h]; decide
    omega
  rw [resolveDim, if_neg hnonneg]
  rcases Nat.eq_zero_or_pos d with rfl | hpos
  · simp [hzero rfl]
  · have hne : Int64.ofNat d ≠ 0 := fun h => by
      have hz : (d : Int) = 0 := by rw [← hvalue, h]; decide
      omega
    have hgt : Int64.ofNat d > 0 := by
      rw [gt_iff_lt, Int64.lt_iff_toInt_lt, hvalue]
      exact Int.natCast_pos.mpr hpos
    rw [if_neg hne, if_pos hgt, hvalue]
    rfl

/-- Dimensions that are written out resolve to themselves. -/
theorem resolveDims_ofNat {op : NodeId} {input dims : Shape} {position : Nat} {inferred : Bool}
    (hdims : ∀ d ∈ dims, d < 2 ^ 63)
    (hzero : ∀ i : Nat, dims[i]? = some 0 → input[position + i]? = some 0) :
    resolveDims op input position inferred (dims.map Int64.ofNat) = .ok (dims.map some) := by
  induction dims generalizing position inferred with
  | nil => rfl
  | cons d dims ih =>
    have hfirst : resolveDim op input position (Int64.ofNat d) = .ok (some d) :=
      resolveDim_ofNat (hdims d List.mem_cons_self) fun h => hzero 0 (by rw [h]; rfl)
    have hrest : resolveDims op input (position + 1) inferred (dims.map Int64.ofNat) =
        .ok (dims.map some) := by
      refine ih (fun e he => hdims e (List.mem_cons_of_mem _ he)) fun i hi => ?_
      rw [Nat.add_assoc, Nat.add_comm 1]
      exact hzero (i + 1) hi
    simp [resolveDims, hfirst, hrest, bind, Except.bind, pure, Except.pure]

/-- A reshape to a shape with the elements of the input gives this shape.  A zero dimension is read
as a copy, so the input has to have it at the same place. -/
theorem resolveReshape_ofNat {op : NodeId} {input dims : Shape} (hinput : input.Fits)
    (hdims : dims.Fits) (hprod : dims.prod = input.prod)
    (hzero : ∀ i : Nat, dims[i]? = some 0 → input[i]? = some 0) :
    resolveReshape op input (dims.map Int64.ofNat) = .ok dims := by
  have hresolved : resolveDims op input 0 false (dims.map Int64.ofNat) = .ok (dims.map some) :=
    resolveDims_ofNat hdims.1 (by simpa using hzero)
  have hknown : ∀ n, dims.map ((fun d => d.getD n) ∘ some) = dims := fun _ => List.map_id _
  rw [resolveReshape, hresolved]
  simp [bind, Except.bind, pure, Except.pure, hinput.count_eq, hknown, hdims.count_eq, hprod]

theorem getElem?_append_one_eq_zero {s : Shape} {i : Nat} :
    (s ++ [1])[i]? = some 0 ↔ s[i]? = some 0 := by
  rcases Nat.lt_trichotomy i s.length with h | h | h
  · rw [List.getElem?_append_left h]
  · simp [h]
  · have hlength : (s ++ [1]).length ≤ i := by rw [List.length_append]; exact h
    rw [List.getElem?_eq_none hlength, List.getElem?_eq_none (Nat.le_of_lt h)]

/-- Appending a unit axis by a reshape. -/
theorem resolveReshape_append_one {op : NodeId} {s : Shape} (h : s.Fits) :
    resolveReshape op s ((s ++ [1]).map Int64.ofNat) = .ok (s ++ [1]) :=
  resolveReshape_ofNat h h.append_one (by simp) fun _ => getElem?_append_one_eq_zero.mp

/-- Removing it again. -/
theorem resolveReshape_remove_one {op : NodeId} {s : Shape} (h : s.Fits) :
    resolveReshape op (s ++ [1]) (s.map Int64.ofNat) = .ok s :=
  resolveReshape_ofNat h.append_one h (by simp) fun _ => getElem?_append_one_eq_zero.mpr

end TensorGraph
