/-
  Where the entries of a per-axis list go, and what its missing entries mean.

  A list that is re-indexed around an ellipsis gets its fills behind the ellipsis.  If a short list
  is to be read as a longer one whose last entries are left to their default, the two readings have
  to agree: `padded` writes the defaults out first.  They do not always agree, since every mask is
  extended by its own length: the entries that a short mask has behind the ellipsis are pushed to
  the back of all the fills, its defaults in front of them.  `Aligned` is the exact condition under
  which this does not show (`padded_permute_eq_iff`).

  `slots` says for each position of the result which entry stands there.  A list of full length,
  such as that of the bounds, is always read through the slots; a mask is exactly if it is aligned.
-/
import TensorGraph.Operation.Slice
import TensorGraph.Proofs.Grid

namespace TensorGraph

namespace Permutation

variable {β γ : Type} {p : Permutation}

/-! ## Writing out a list -/

@[simp] theorem length_writeOut {n start : Nat} {fill : β} {values : List β}
    (h : values.length ≤ n) : (writeOut n start fill values).length = n := by
  simp only [writeOut, List.length_append, List.length_take, List.length_replicate,
    List.length_drop]
  omega

theorem map_writeOut (f : β → γ) {n start : Nat} {fill : β} {values : List β} :
    (writeOut n start fill values).map f = writeOut n start (f fill) (values.map f) := by
  simp only [writeOut, List.map_append, List.map_take, List.map_drop, List.map_replicate,
    List.length_map]

/-- If the defaults are written out first they end up behind all entries, not behind the ellipsis.
-/
theorem writeOut_rightpad {size n : Nat} (e : Option Nat) (fill : β) {values : List β}
    (hn : n ≤ size) (h : values.length ≤ n) :
    writeOut size (fillStart e n) fill (values.rightpad n fill) =
      values.take (fillStart e values.length) ++ List.replicate (size - n) fill ++
        values.drop (fillStart e values.length) ++ List.replicate (n - values.length) fill := by
  have hlength : (values.rightpad n fill).length = n := by rw [List.length_rightpad]; omega
  cases e with
  | none =>
    simp only [writeOut, fillStart, hlength, List.take_length, List.drop_length, List.append_nil]
    rw [List.take_of_length_le (Nat.le_of_eq hlength),
      List.drop_of_length_le (Nat.le_of_eq hlength), List.append_nil, List.rightpad,
      List.append_assoc, List.append_assoc, List.replicate_append_replicate,
      List.replicate_append_replicate, Nat.add_comm]
  | some position =>
    simp only [writeOut, fillStart, hlength]
    simp only [List.rightpad]
    by_cases hinside : position + 1 ≤ values.length
    · rw [List.take_append_of_le_length hinside, List.drop_append_of_le_length hinside]
      simp only [List.append_assoc]
    · -- the ellipsis lies beyond the entries, so all that is behind them is fill
      have hbeyond : values.length ≤ position + 1 := by omega
      rw [List.take_of_length_le hbeyond, List.drop_of_length_le hbeyond, List.take_append,
        List.drop_append, List.take_of_length_le hbeyond, List.drop_of_length_le hbeyond]
      simp only [List.take_replicate, List.drop_replicate, List.append_assoc, List.nil_append,
        List.replicate_append_replicate]
      congr 2
      omega

/-- Fills can be moved past a list exactly if there are none or the list holds nothing else. -/
theorem replicate_append_comm_iff {k : Nat} {fill : β} {tail : List β} :
    List.replicate k fill ++ tail = tail ++ List.replicate k fill ↔
      k = 0 ∨ ∀ b ∈ tail, b = fill := by
  constructor
  · intro h
    obtain rfl | ⟨k, rfl⟩ : k = 0 ∨ ∃ j, k = j + 1 := by cases k <;> simp
    · exact .inl rfl
    refine .inr ?_
    induction tail with
    | nil => exact fun b hb => absurd hb List.not_mem_nil
    | cons c tail ih =>
      rw [List.replicate_succ, List.cons_append, List.cons_append, List.cons.injEq] at h
      obtain ⟨rfl, hrest⟩ := h
      -- the next fill takes the place of the one that has been matched
      have hnext : List.replicate (k + 1) fill ++ tail = tail ++ List.replicate (k + 1) fill := by
        calc List.replicate (k + 1) fill ++ tail
            = List.replicate k fill ++ fill :: tail := by rw [List.replicate_succ']; simp
          _ = tail ++ List.replicate (k + 1) fill := hrest
      exact List.forall_mem_cons.mpr ⟨rfl, ih hnext⟩
  · rintro (rfl | htail)
    · simp
    · rw [List.eq_replicate_of_mem htail, List.replicate_append_replicate,
        List.replicate_append_replicate, Nat.add_comm]

/-- Nothing is displaced when the list is extended around the ellipsis: it has all `n` entries, or
those behind the ellipsis are what a missing entry stands for. -/
def Aligned (ellipsis : Option Nat) (n : Nat) (fill : β) (values : List β) : Prop :=
  values.length = n ∨ ∀ b ∈ values.drop (fillStart ellipsis values.length), b = fill

instance [DecidableEq β] (ellipsis : Option Nat) (n : Nat) (fill : β) (values : List β) :
    Decidable (Aligned ellipsis n fill values) :=
  inferInstanceAs (Decidable (_ ∨ _))

theorem writeOut_rightpad_eq_iff {size n : Nat} {e : Option Nat} {fill : β} {values : List β}
    (hn : n ≤ size) (h : values.length ≤ n) :
    writeOut size (fillStart e n) fill (values.rightpad n fill) =
        writeOut size (fillStart e values.length) fill values ↔ Aligned e n fill values := by
  have hsplit : List.replicate (size - values.length) fill =
      List.replicate (size - n) fill ++ List.replicate (n - values.length) fill := by
    rw [List.replicate_append_replicate]
    congr 1
    omega
  rw [writeOut_rightpad e fill hn h, writeOut, hsplit]
  simp only [List.append_assoc, List.append_cancel_left_eq]
  rw [eq_comm, replicate_append_comm_iff, Aligned]
  exact or_congr_left (by omega)

/-! ## Re-indexing -/

theorem select_map (f : β → γ) (positions : List Nat) (values : List β) :
    select positions (values.map f) = (select positions values).map f := by
  induction positions with
  | nil => rfl
  | cons i positions ih =>
    simp only [select, List.filterMap_cons, List.getElem?_map] at ih ⊢
    cases values[i]? <;> simp [ih]

theorem select_inj {left right : List β} (hleft : left.length = p.size)
    (hright : right.length = p.size) : select p.order left = select p.order right ↔ left = right :=
  ⟨fun h => by rw [← select_inverse_select hleft, h, select_inverse_select hright],
    fun h => h ▸ rfl⟩

/-- A list that fits is permuted as a whole. -/
theorem scatter_eq_select {e : Option Nat} {fill : β} {values : List β}
    (h : values.length ≤ p.size) :
    p.scatter e fill values =
      select p.order (writeOut p.size (fillStart e values.length) fill values) := by
  rw [scatter, permuteHead, List.drop_of_length_le (Nat.le_of_eq (length_writeOut h)),
    List.append_nil]

/-- Re-indexing invents no entries besides the fill. -/
theorem mem_scatter {e : Option Nat} {fill : β} {values : List β} {x : β}
    (h : x ∈ p.scatter e fill values) : x ∈ values ∨ x = fill := by
  have hwritten : x ∈ writeOut p.size (fillStart e values.length) fill values := by
    rcases List.mem_append.mp h with hhead | htail
    · obtain ⟨i, -, hi⟩ := List.mem_filterMap.mp hhead
      exact List.mem_of_getElem? hi
    · exact List.mem_of_mem_drop htail
  rcases List.mem_append.mp hwritten with hfront | hback
  · exact (List.mem_append.mp hfront).imp List.mem_of_mem_take List.eq_of_mem_replicate
  · exact .inl (List.mem_of_mem_drop hback)

theorem scatter_rightpad_eq_iff {n : Nat} {e : Option Nat} {fill : β} {values : List β}
    (hn : n ≤ p.size) (h : values.length ≤ n) :
    p.scatter e fill (values.rightpad n fill) = p.scatter e fill values ↔
      Aligned e n fill values := by
  have hlength : (values.rightpad n fill).length = n := by rw [List.length_rightpad]; omega
  rw [scatter_eq_select (by omega), scatter_eq_select (by omega), hlength,
    select_inj (length_writeOut (by omega)) (length_writeOut (by omega)),
    writeOut_rightpad_eq_iff hn h]

/-- Which of `n` entries each position of a re-indexed list holds; `none` where it is filled. -/
def slots (p : Permutation) (ellipsis : Option Nat) (n : Nat) : List (Option Nat) :=
  p.scatter ellipsis none ((List.range n).map some)

/-- The list read slot by slot; where it has no entry the fill stands. -/
def readSlots (fill : β) (values : List β) (slots : List (Option Nat)) : List β :=
  slots.map fun slot => (slot.bind (values[·]?)).getD fill

theorem map_range_getD {n : Nat} {fill : β} {values : List β} (h : values.length ≤ n) :
    (List.range n).map (fun j => (values[j]?).getD fill) = values.rightpad n fill := by
  refine List.ext_getElem? fun i => ?_
  rw [List.getElem?_map, List.rightpad, List.getElem?_append, List.getElem?_replicate]
  by_cases hi : i < values.length
  · rw [List.getElem?_range (by omega), if_pos hi, Option.map_some, List.getElem?_eq_getElem hi,
      Option.getD_some]
  · rw [if_neg hi]
    by_cases hin : i < n
    · rw [List.getElem?_range hin, if_pos (by omega), Option.map_some,
        List.getElem?_eq_none (by omega), Option.getD_none]
    · rw [List.getElem?_eq_none (by simpa using hin), if_neg (by omega), Option.map_none]

/-- Reading through the slots is re-indexing the list with its defaults written out. -/
theorem readSlots_slots {n : Nat} {e : Option Nat} {fill : β} {values : List β}
    (hn : n ≤ p.size) (h : values.length ≤ n) :
    readSlots fill values (p.slots e n) = p.scatter e fill (values.rightpad n fill) := by
  have hrange : ((List.range n).map some).length = n := by simp
  have hlength : (values.rightpad n fill).length = n := by rw [List.length_rightpad]; omega
  rw [slots, readSlots, scatter_eq_select (by omega), scatter_eq_select (by omega), ← select_map,
    map_writeOut, hrange, hlength, List.map_map]
  simp only [Function.comp_def, Option.bind_none, Option.bind_some, Option.getD_none]
  rw [map_range_getD h]

end Permutation

/-! ## The masks of a slice -/

namespace SliceMasks

open Permutation

/-- Each mask with what a missing entry of it stands for: a begin or end bound is used, an axis is
not inserted, not dropped and no ellipsis. -/
def withDefaults (m : SliceMasks) : List (Bool × List Bool) :=
  [(true, m.beginMask), (true, m.endMask), (false, m.newAxis), (false, m.shrink),
    (false, m.ellipsis)]

/-- The masks with their missing entries written out at the end, up to `n` entries. -/
def padded (m : SliceMasks) (n : Nat) : SliceMasks where
  beginMask := m.beginMask.rightpad n true
  endMask := m.endMask.rightpad n true
  newAxis := m.newAxis.rightpad n false
  shrink := m.shrink.rightpad n false
  ellipsis := m.ellipsis.rightpad n false
  permuted := m.permuted

@[simp] theorem ellipsisAt?_padded (m : SliceMasks) (n : Nat) :
    (m.padded n).ellipsisAt? = m.ellipsisAt? := by
  show (m.ellipsis.rightpad n false).findIdx? id = m.ellipsis.findIdx? id
  rw [List.rightpad, List.findIdx?_append, List.findIdx?_replicate]
  simp

end SliceMasks

/-- **Masks that lack entries, re-indexed.**  Re-indexing masks of at most `n` entries is
re-indexing them with their defaults written out exactly if every mask is aligned; and exactly then
does every mask have its entries, present or missing, in the slots in which a list of `n` bounds has
its own. -/
theorem padded_permute_eq_iff (m : SliceMasks) (p : Permutation) {n : Nat} (hn : n ≤ p.size)
    (hfit : ∀ mask ∈ m.withDefaults, mask.2.length ≤ n) :
    ((m.padded n).permute p = m.permute p ↔
        ∀ mask ∈ m.withDefaults, Permutation.Aligned m.ellipsisAt? n mask.1 mask.2) ∧
      (∀ mask ∈ m.withDefaults,
        p.scatter m.ellipsisAt? mask.1 mask.2 =
            Permutation.readSlots mask.1 mask.2 (p.slots m.ellipsisAt? n) ↔
          Permutation.Aligned m.ellipsisAt? n mask.1 mask.2) ∧
      ∀ (β : Type) (fill : β) (bounds : List β), bounds.length = n →
        p.scatter m.ellipsisAt? fill bounds =
          Permutation.readSlots fill bounds (p.slots m.ellipsisAt? n) := by
  refine ⟨?_, fun mask hmask => ?_, fun β fill bounds hbounds => ?_⟩
  · have hiff : ∀ mask ∈ m.withDefaults,
        (p.scatter m.ellipsisAt? mask.1 (mask.2.rightpad n mask.1) =
            p.scatter m.ellipsisAt? mask.1 mask.2 ↔
          Permutation.Aligned m.ellipsisAt? n mask.1 mask.2) :=
      fun mask hmask => Permutation.scatter_rightpad_eq_iff hn (hfit mask hmask)
    rw [← forall₂_congr hiff]
    rw [SliceMasks.permute, SliceMasks.permute, SliceMasks.ellipsisAt?_padded]
    simp [SliceMasks.padded, SliceMasks.withDefaults]
  · rw [Permutation.readSlots_slots hn (hfit mask hmask), eq_comm]
    exact Permutation.scatter_rightpad_eq_iff hn (hfit mask hmask)
  · rw [Permutation.readSlots_slots hn (Nat.le_of_eq hbounds), List.rightpad, hbounds, Nat.sub_self,
      List.replicate_zero, List.append_nil]

/-- Two begin entries where four are addressed, with the ellipsis at the first. -/
def shortBegin : SliceMasks where
  beginMask := [true, false]
  endMask := []
  newAxis := []
  shrink := []
  ellipsis := [true, false, false, false]
  permuted := false

/-- Of the five masks only the begin mask is not aligned, and that is enough. -/
theorem shortBegin_padded_ne :
    (shortBegin.withDefaults.filter fun mask =>
        ¬ Permutation.Aligned shortBegin.ellipsisAt? 4 mask.1 mask.2) =
      [(true, [true, false])] ∧
      (shortBegin.padded 4).permute (Permutation.channelsFirst 4) ≠
        shortBegin.permute (Permutation.channelsFirst 4) := by
  have hiff := padded_permute_eq_iff shortBegin (Permutation.channelsFirst 4) (n := 4) (by decide)
    (by decide)
  exact ⟨by decide, fun h => absurd (hiff.1.mp h) (by decide)⟩

/-- With four axes in their order the unused begin bound moves from the second axis to the last. -/
theorem shortBegin_displaced :
    (shortBegin.permute (Permutation.identity 4)).beginMask = [true, true, true, false] ∧
      ((shortBegin.padded 4).permute (Permutation.identity 4)).beginMask =
        [true, false, true, true] := by
  decide

end TensorGraph
