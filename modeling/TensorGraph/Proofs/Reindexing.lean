/-
  The laws of re-indexing.

  Re-indexing a per-axis list fills in the entries that it lacks and permutes the first entries of
  the result; entries beyond the permutation stay.  `filledIn` says what is permuted: the fills are
  inserted one by one behind the ellipsis.  Afterwards nothing is missing, so a second re-indexing
  only permutes: by the inverse it gives the filled list back, and by another permutation it has the
  effect of the composed one (`reindexing_laws`).

  The laws are those of `permuteHead` on lists with enough entries, where a list is its head, on
  which permutations act, and a tail that they leave alone (`permuteHead_append`).
-/
import TensorGraph.Proofs.Permutation
import Mathlib.Logic.Function.Iterate

namespace TensorGraph.Permutation

variable {β : Type} {p q composed : Permutation} {values : List β}

/-! ## Permuting the first entries -/

theorem exists_head (h : p.size ≤ values.length) :
    ∃ head tail, head.length = p.size ∧ head ++ tail = values :=
  ⟨values.take p.size, values.drop p.size, List.length_take_of_le h, List.take_append_drop ..⟩

/-- All positions of the order are in the head. -/
theorem permuteHead_append {head : List β} (h : head.length = p.size) (tail : List β) :
    p.permuteHead (head ++ tail) = select p.order head ++ tail := by
  have hhead : select p.order (head ++ tail) = select p.order head := by
    refine List.filterMap_congr fun i hi => ?_
    rw [List.getElem?_append_left (h ▸ mem_order_lt hi)]
  rw [permuteHead, hhead, ← h, List.drop_left]

theorem length_permuteHead (h : p.size ≤ values.length) :
    (p.permuteHead values).length = values.length := by
  obtain ⟨head, tail, hhead, rfl⟩ := exists_head h
  rw [permuteHead_append hhead, List.length_append, List.length_append, length_select hhead, hhead]

/-- Where the entries come from. -/
theorem getElem?_permuteHead (h : p.size ≤ values.length) (i : Nat) :
    (p.permuteHead values)[i]? =
      if i < p.size then p.order[i]?.bind (values[·]?) else values[i]? := by
  have hselect := getElem?_select (fun j hj => Nat.lt_of_lt_of_le (mem_order_lt hj) h) i
  have hlength : (select p.order values).length = p.size :=
    length_select_of_lt fun j hj => Nat.lt_of_lt_of_le (mem_order_lt hj) h
  rw [permuteHead, List.getElem?_append, hlength, hselect, List.getElem?_drop]
  split
  · rfl
  · congr 1
    omega

theorem permuteHead_inverse (h : p.size ≤ values.length) :
    p.inverse.permuteHead (p.permuteHead values) = values := by
  obtain ⟨head, tail, hhead, rfl⟩ := exists_head h
  have hmoved : (select p.order head).length = p.inverse.size := by
    rw [length_select hhead, size_inverse]
  rw [permuteHead_append hhead, permuteHead_append hmoved, select_inverse_select hhead]

theorem permuteHead_compose? (hcomposed : p.compose? q = some composed)
    (h : p.size ≤ values.length) :
    q.permuteHead (p.permuteHead values) = composed.permuteHead values := by
  obtain ⟨head, tail, hhead, rfl⟩ := exists_head h
  have hmoved : (select p.order head).length = q.size := by
    rw [length_select hhead, (compose?_eq_some_iff.mp hcomposed).1]
  have honce := permute?_compose? hcomposed (permute?_eq_some_iff.mpr ⟨hhead, rfl⟩)
    (permute?_eq_some_iff.mpr ⟨hmoved, rfl⟩)
  obtain ⟨hsize, hselect⟩ := permute?_eq_some_iff.mp honce
  rw [permuteHead_append hhead, permuteHead_append hmoved, permuteHead_append hsize, hselect]

/-! ## Filling in -/

/-- The list with as many fills as it lacks for `n` entries.  Each is inserted behind the entry at
the ellipsis, or behind the last entry if there is no ellipsis or the list ends before it. -/
def filledIn (n : Nat) (ellipsis : Option Nat) (fill : β) (values : List β) : List β :=
  let position := ellipsis.elim values.length fun e => min (e + 1) values.length
  (fun list => list.insertIdx position fill)^[n - values.length] values

/-- Inserting at one place again and again makes a block. -/
theorem iterate_insertIdx {position : Nat} (h : position ≤ values.length) (fill : β) (count : Nat) :
    (fun list => list.insertIdx position fill)^[count] values =
      values.take position ++ List.replicate count fill ++ values.drop position := by
  induction count with
  | zero => simp
  | succ count ih =>
    have hfront : (values.take position).length = position := List.length_take_of_le h
    have hinsert : ∀ rest : List β, (values.take position ++ rest).insertIdx position fill =
        values.take position ++ fill :: rest := fun rest => by
      have hbehind := List.modifyTailIdx_add (List.cons fill) 0 (values.take position) rest
      rwa [hfront] at hbehind
    rw [Function.iterate_succ_apply', ih, List.append_assoc, hinsert, List.replicate_succ,
      List.append_assoc, List.cons_append]

theorem writeOut_eq_filledIn (n : Nat) (ellipsis : Option Nat) (fill : β) (values : List β) :
    writeOut n (fillStart ellipsis values.length) fill values = filledIn n ellipsis fill values := by
  cases ellipsis with
  | none => exact (iterate_insertIdx (Nat.le_refl _) fill _).symm
  | some e =>
    refine Eq.trans ?_ (iterate_insertIdx (Nat.min_le_right _ _) fill _).symm
    rw [writeOut, fillStart, List.take_eq_take_min, List.drop_eq_drop_min]

theorem length_filledIn (n : Nat) (ellipsis : Option Nat) (fill : β) (values : List β) :
    (filledIn n ellipsis fill values).length = max n values.length := by
  rw [← writeOut_eq_filledIn, writeOut, List.length_append, List.length_append, List.length_take,
    List.length_replicate, List.length_drop]
  omega

/-! ## Re-indexing -/

theorem scatter_eq_permuteHead (p : Permutation) (ellipsis : Option Nat) (fill : β)
    (values : List β) :
    p.scatter ellipsis fill values = p.permuteHead (filledIn p.size ellipsis fill values) := by
  rw [scatter, writeOut_eq_filledIn]

/-- A list that lacks nothing is only permuted. -/
theorem scatterMask_of_le (fill : β) (h : p.size ≤ values.length) :
    p.scatterMask fill values = p.permuteHead values := by
  rw [scatterMask, scatter_eq_permuteHead, filledIn, Nat.sub_eq_zero_of_le h]
  rfl

/-- The position behind an ellipsis is a word unless the ellipsis is at the last one. -/
theorem scatterChecked_eq_ok {ellipsis : Option Nat} (p : Permutation) (fill : β)
    (values : List β) (h : ∀ position ∈ ellipsis, position < wordLimit - 1) :
    p.scatterChecked ellipsis fill values = .ok (p.scatter ellipsis fill values) := by
  cases ellipsis with
  | none =>
    unfold scatterChecked
    split <;> rfl
  | some position =>
    have hposition := h position rfl
    have hbehind : checkedAdd position 1 = .ok (position + 1) := by
      rw [checkedAdd, if_pos (by omega)]
    unfold scatterChecked
    simp only [hbehind]
    split <;> rfl

/-- **Re-indexing loses nothing and respects composition.**  Where the position behind the ellipsis
is a word, re-indexing a list of any length gives the list with its missing entries filled in, the
first ones permuted.  The inverse permutation leads back to the filled list, and a second
permutation has the effect of re-indexing the list once by the composed one.  Without an ellipsis a
list is re-indexed as a mask. -/
theorem reindexing_laws (p : Permutation) (ellipsis : Option Nat) (fill : β) (values : List β)
    (hword : ∀ position ∈ ellipsis, position < wordLimit - 1) :
    ∃ moved, p.scatterChecked ellipsis fill values = .ok moved ∧
      moved.length = max p.size values.length ∧
      (∀ i : Nat, moved[i]? =
        if i < p.size then p.order[i]?.bind ((filledIn p.size ellipsis fill values)[·]?)
        else (filledIn p.size ellipsis fill values)[i]?) ∧
      (∀ other, p.inverse.scatterMask other moved = filledIn p.size ellipsis fill values) ∧
      (∀ (q : Permutation) (other : β), q.size = p.size → ∃ composed, p.compose? q = some composed ∧
        composed.scatterChecked ellipsis fill values = .ok (q.scatterMask other moved)) ∧
      p.scatterChecked none fill values = .ok (p.scatterMask fill values) := by
  have hfilled := length_filledIn p.size ellipsis fill values
  have henough : p.size ≤ (filledIn p.size ellipsis fill values).length := by
    rw [hfilled]
    exact Nat.le_max_left _ _
  have hmoved : p.size ≤ (p.permuteHead (filledIn p.size ellipsis fill values)).length := by
    rwa [length_permuteHead henough]
  refine ⟨p.permuteHead (filledIn p.size ellipsis fill values), ?_,
    (length_permuteHead henough).trans hfilled, getElem?_permuteHead henough, fun other => ?_,
    fun q other hsize => ?_, scatterChecked_eq_ok p fill values (by simp)⟩
  · rw [scatterChecked_eq_ok p fill values hword, scatter_eq_permuteHead]
  · rw [scatterMask_of_le other (by rwa [size_inverse]), permuteHead_inverse henough]
  · obtain ⟨composed, hcomposed⟩ := Option.isSome_iff_exists.mp (isSome_compose?_iff.mpr hsize.symm)
    refine ⟨composed, hcomposed, ?_⟩
    rw [scatterMask_of_le other (hsize ▸ hmoved), permuteHead_compose? hcomposed henough,
      scatterChecked_eq_ok composed fill values hword, scatter_eq_permuteHead,
      size_compose? hcomposed]

/-- Three bounds of five axes, with the ellipsis at the second.  The fills stand between the second
and the third bound, until the third, which is that of the last axis, moves behind the first. -/
theorem reindexing_laws_of_bounds :
    (∀ position ∈ some 1, position < wordLimit - 1) ∧
    (channelsFirst 5).scatterChecked (some 1) 0 [7, 8, 9] = .ok [7, 9, 8, 0, 0] ∧
    (channelsFirst 5).inverse.scatterMask 1 [7, 9, 8, 0, 0] = [7, 8, 0, 0, 9] ∧
    ∃ composed, (channelsFirst 5).compose? (channelsFirst 5) = some composed ∧
      composed.scatterChecked (some 1) 0 [7, 8, 9] = .ok [7, 0, 9, 8, 0] := by
  have hword : ∀ position ∈ some 1, position < wordLimit - 1 := by decide
  obtain ⟨moved, hmoved, -, -, hback, htwice, -⟩ :=
    reindexing_laws (channelsFirst 5) (some 1) 0 [7, 8, 9] hword
  obtain rfl : [7, 9, 8, 0, 0] = moved := Except.ok.inj hmoved
  exact ⟨hword, hmoved, hback 1, htwice (channelsFirst 5) 0 rfl⟩

end TensorGraph.Permutation
