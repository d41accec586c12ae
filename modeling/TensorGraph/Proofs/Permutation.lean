/-
  The two lists of a permutation.

  However a permutation is made, its order and its inverse order have the same length, and each has
  the positions of the other's entries: they are `Paired`.  There is one case for each way to make a
  permutation, by induction over how it was made (`Made.paired`).  The order is then a rearrangement
  of `0, …, n - 1` and determines its inverse, so two permutations with the same order are the same
  (`ext_order`) and laws need to be shown for the orders only.

  Entries are composed pointwise (`getElem?_compose?`).  From this come the laws of a group, where
  composition is partial, and the action on lists: `composition_laws`.
-/
import TensorGraph.Permutation
import Mathlib.Data.List.Nodup
import Mathlib.Data.List.Perm.Basic

namespace TensorGraph

/-! ## Selecting entries -/

namespace Permutation

variable {β : Type}

/-- Selecting every position in turn gives the list back. -/
theorem select_range (values : List β) : select (List.range values.length) values = values := by
  induction values with
  | nil => rfl
  | cons v vs ih =>
    rw [select, List.length_cons, List.range_succ_eq_map, List.filterMap_cons]
    simp only [List.getElem?_cons_zero, List.filterMap_map]
    exact congrArg (v :: ·) ih

/-- A selection along positions of the list has one entry for each of them. -/
theorem getElem?_select {positions : List Nat} {values : List β}
    (h : ∀ i ∈ positions, i < values.length) (k : Nat) :
    (select positions values)[k]? = positions[k]?.bind (values[·]?) := by
  induction positions generalizing k with
  | nil => rfl
  | cons i positions ih =>
    have hi := List.getElem?_eq_getElem (h i List.mem_cons_self)
    have hrest := ih fun j hj => h j (List.mem_cons_of_mem _ hj)
    rw [select, List.filterMap_cons_some hi]
    cases k with
    | zero => simp [hi]
    | succ k => exact hrest k

/-- Selecting at positions within a list finds one entry for each. -/
theorem length_select_of_lt {positions : List Nat} {values : List β}
    (h : ∀ i ∈ positions, i < values.length) : (select positions values).length = positions.length := by
  induction positions with
  | nil => rfl
  | cons i positions ih =>
    have hi := List.getElem?_eq_getElem (h i List.mem_cons_self)
    have hrest := ih fun j hj => h j (List.mem_cons_of_mem _ hj)
    rw [select, List.filterMap_cons_some hi, List.length_cons, List.length_cons]
    exact congrArg (· + 1) hrest

end Permutation

/-! ## Pairs of orders -/

namespace AxisOrders

open Permutation (select getElem?_select length_select_of_lt)

/-- Each of the two lists has the position at which the other has an axis. -/
structure Paired (o : AxisOrders) : Prop where
  length_eq : o.inverseOrder.length = o.order.length
  inverse_at : ∀ i < o.order.length, o.order[i]?.bind (o.inverseOrder[·]?) = some i
  order_at : ∀ i < o.order.length, o.inverseOrder[i]?.bind (o.order[·]?) = some i

namespace Paired

variable {o : AxisOrders} (h : o.Paired)
include h

/-- No axis is named twice. -/
theorem order_nodup : o.order.Nodup := by
  -- looked up in the inverse, the entries are `0, 1, …`, so none of them comes twice
  have hpositions : o.order.map (o.inverseOrder[·]?) = (List.range o.order.length).map some := by
    refine List.ext_getElem? fun i => ?_
    rw [List.getElem?_map, List.getElem?_map]
    by_cases hi : i < o.order.length
    · have hat := h.inverse_at i hi
      rw [List.getElem?_eq_getElem hi] at hat ⊢
      rw [List.getElem?_range hi]
      exact congrArg some hat
    · rw [List.getElem?_eq_none (by omega), List.getElem?_eq_none (by simpa using hi)]
      rfl
  exact .of_map _ (hpositions ▸ List.nodup_range.map fun _ _ => Option.some.inj)

/-- The axes are the numbers below the length. -/
theorem mem_order_iff {axis : Nat} : axis ∈ o.order ↔ axis < o.order.length := by
  constructor
  · intro hmem
    obtain ⟨i, hi⟩ := List.mem_iff_getElem?.mp hmem
    have hat := h.inverse_at i (List.getElem?_eq_some_iff.mp hi).1
    rw [hi] at hat
    rw [← h.length_eq]
    exact (List.getElem?_eq_some_iff.mp hat).1
  · intro hlt
    obtain ⟨position, -, hposition⟩ := Option.bind_eq_some_iff.mp (h.order_at axis hlt)
    exact List.mem_of_getElem? hposition

/-- The order lists every axis once. -/
theorem perm : o.order.Perm (List.range o.order.length) :=
  (List.perm_ext_iff_of_nodup h.order_nodup List.nodup_range).mpr fun axis => by
    rw [h.mem_order_iff, List.mem_range]

/-- The inverse order is determined by the order. -/
theorem inverseOrder_eq :
    o.inverseOrder = (List.range o.order.length).map fun axis => o.order.idxOf axis := by
  refine List.ext_getElem? fun i => ?_
  by_cases hi : i < o.order.length
  · obtain ⟨position, hposition, hat⟩ := Option.bind_eq_some_iff.mp (h.order_at i hi)
    obtain ⟨hlt, rfl⟩ := List.getElem?_eq_some_iff.mp hat
    rw [hposition, List.getElem?_map, List.getElem?_range hi, Option.map_some,
      h.order_nodup.idxOf_getElem position hlt]
  · rw [List.getElem?_eq_none (by rw [h.length_eq]; omega), List.getElem?_eq_none (by simpa using hi)]

/-- Swapping the two orders pairs them the other way. -/
theorem inverse : o.inverse.Paired where
  length_eq := h.length_eq.symm
  inverse_at := fun i hi => h.order_at i (h.length_eq ▸ hi)
  order_at := fun i hi => h.inverse_at i (h.length_eq ▸ hi)

end Paired

/-! ### Given orders -/

/-- Once an axis is placed, its slot has the first position and the later axes count on from there.
-/
theorem placed_cons {axis : Nat} {axes : List Nat} (hnew : axis ∉ axes) (position : Nat)
    {slots : List (Option Nat)} (hslot : axis < slots.length) (a : Nat) :
    (if a ∈ axis :: axes then some (some (position + (axis :: axes).idxOf a)) else slots[a]?) =
      if a ∈ axes then some (some (position + 1 + axes.idxOf a))
      else (slots.set axis (some position))[a]? := by
  by_cases hsame : a = axis
  · subst hsame
    rw [if_pos List.mem_cons_self, if_neg hnew, List.idxOf_cons_self, List.getElem?_set_self hslot]
    rfl
  · rw [List.getElem?_set_ne (Ne.symm hsame), List.idxOf_cons_ne _ (Ne.symm hsame)]
    simp only [List.mem_cons, hsame, false_or, Nat.add_assoc, Nat.add_comm 1]

/-- Axes can be placed if each has a free slot of its own.  They are then found in their slots, and
no other slot is touched. -/
theorem placeFrom?_eq_some_iff {axes : List Nat} {position : Nat} {slots out : List (Option Nat)} :
    placeFrom? position axes slots = some out ↔
      axes.Nodup ∧ (∀ axis ∈ axes, slots[axis]? = some none) ∧
        ∀ axis, out[axis]? =
          if axis ∈ axes then some (some (position + axes.idxOf axis)) else slots[axis]? := by
  induction axes generalizing position slots with
  | nil =>
    simp only [placeFrom?, Option.some.injEq, List.nodup_nil, List.not_mem_nil, false_implies,
      implies_true, true_and, if_false]
    exact ⟨fun h _ => h ▸ rfl, fun h => List.ext_getElem? fun i => (h i).symm⟩
  | cons axis axes ih =>
    have hstep : placeFrom? position (axis :: axes) slots = some out ↔ slots[axis]? = some none ∧
        placeFrom? (position + 1) axes (slots.set axis (some position)) = some out := by
      rw [placeFrom?]
      split
      · rename_i hfree
        simp only [hfree, true_and]
      · rename_i hother
        exact iff_of_false (by simp) fun h => hother h.1
    rw [hstep, ih, List.nodup_cons, List.forall_mem_cons]
    constructor
    · rintro ⟨hfree, hnodup, hslots, hout⟩
      have hslot := (List.getElem?_eq_some_iff.mp hfree).1
      -- its slot is taken from here on, so the axis cannot come again
      have hnew : axis ∉ axes := by
        intro hmem
        have htaken := hslots axis hmem
        rw [List.getElem?_set_self hslot] at htaken
        cases htaken
      refine ⟨⟨hnew, hnodup⟩, ⟨hfree, fun a ha => ?_⟩, fun a => ?_⟩
      · have hat := hslots a ha
        rwa [List.getElem?_set_ne (by rintro rfl; exact hnew ha)] at hat
      · rw [hout, placed_cons hnew position hslot]
    · rintro ⟨⟨hnew, hnodup⟩, ⟨hfree, hslots⟩, hout⟩
      refine ⟨hfree, hnodup, fun a ha => ?_, fun a => ?_⟩
      · rw [List.getElem?_set_ne (by rintro rfl; exact hnew ha)]
        exact hslots a ha
      · rw [hout, placed_cons hnew position (List.getElem?_eq_some_iff.mp hfree).1]

/-- Distinct axes, none of which is missing a slot, are all there are. -/
theorem perm_range_iff {order : List Nat} :
    order.Perm (List.range order.length) ↔ order.Nodup ∧ ∀ axis ∈ order, axis < order.length := by
  constructor
  · intro h
    exact ⟨h.nodup_iff.mpr List.nodup_range, fun axis haxis => List.mem_range.mp (h.mem_iff.mp haxis)⟩
  · rintro ⟨hnodup, hlt⟩
    have hsub : order.Subperm (List.range order.length) :=
      List.subperm_of_subset hnodup fun axis haxis => List.mem_range.mpr (hlt axis haxis)
    exact hsub.perm_of_length_le (Nat.le_of_eq List.length_range)

/-- The slots of a whole order hold the position of each axis. -/
theorem placeFrom?_order {order : List Nat} {slots : List (Option Nat)} :
    placeFrom? 0 order (List.replicate order.length none) = some slots ↔
      order.Perm (List.range order.length) ∧
        slots = (List.range order.length).map fun axis => some (order.idxOf axis) := by
  rw [placeFrom?_eq_some_iff, perm_range_iff, and_assoc]
  have hfree : ∀ axis, (List.replicate order.length (none : Option Nat))[axis]? = some none ↔
      axis < order.length := fun axis => by
    rw [List.getElem?_replicate]
    split <;> simp [*]
  simp only [hfree]
  refine and_congr_right fun hnodup => and_congr_right fun hlt => ?_
  have hmem : ∀ axis, axis ∈ order ↔ axis < order.length := fun axis => by
    rw [(perm_range_iff.mpr ⟨hnodup, hlt⟩).mem_iff, List.mem_range]
  rw [List.ext_getElem?_iff]
  refine forall_congr' fun axis => ?_
  rw [List.getElem?_map, List.getElem?_replicate, Nat.zero_add]
  by_cases haxis : axis < order.length
  · rw [if_pos ((hmem axis).mpr haxis), List.getElem?_range haxis, Option.map_some]
  · have hout : (List.range order.length)[axis]? = none := List.getElem?_eq_none (by simpa using haxis)
    rw [if_neg (mt (hmem axis).mp haxis), if_neg haxis, hout, Option.map_none]

/-- Exactly the rearrangements of `0, …, n - 1` are orders, and each axis is found where it stands.
-/
theorem ofOrder?_eq_some_iff {order : List Nat} {o : AxisOrders} :
    ofOrder? order = some o ↔ order.Perm (List.range order.length) ∧
      o = ⟨order, (List.range order.length).map fun axis => order.idxOf axis⟩ := by
  rw [ofOrder?, Option.map_eq_some_iff]
  simp only [placeFrom?_order]
  have hall : ((List.range order.length).map fun axis => some (order.idxOf axis)).filterMap id =
      (List.range order.length).map fun axis => order.idxOf axis := by
    rw [List.filterMap_map]
    exact congrFun List.filterMap_eq_map _
  constructor
  · rintro ⟨_, ⟨hperm, rfl⟩, rfl⟩
    exact ⟨hperm, by rw [hall]⟩
  · rintro ⟨hperm, rfl⟩
    exact ⟨_, ⟨hperm, rfl⟩, by rw [hall]⟩

/-- What is made of an order is paired. -/
theorem paired_of_ofOrder? {order : List Nat} {o : AxisOrders} (h : ofOrder? order = some o) :
    o.Paired := by
  obtain ⟨hperm, rfl⟩ := ofOrder?_eq_some_iff.mp h
  have hnodup : order.Nodup := (perm_range_iff.mp hperm).1
  have hat : ∀ axis < order.length,
      ((List.range order.length).map fun axis => order.idxOf axis)[axis]? =
        some (order.idxOf axis) := fun axis haxis => by
    rw [List.getElem?_map, List.getElem?_range haxis, Option.map_some]
  refine ⟨by simp, fun i hi => ?_, fun i hi => ?_⟩
  · show order[i]?.bind _ = some i
    rw [List.getElem?_eq_getElem hi, Option.bind_some,
      hat _ ((perm_range_iff.mp hperm).2 _ (List.getElem_mem hi)), hnodup.idxOf_getElem i hi]
  · show Option.bind _ (order[·]?) = some i
    rw [hat i hi, Option.bind_some]
    exact List.getElem?_idxOf (hperm.mem_iff.mpr (List.mem_range.mpr hi))

/-- Two orders are accepted if the second is the one that is made of the first. -/
theorem ofParts?_eq_some_iff {order inverse : List Nat} {o : AxisOrders} :
    ofParts? order inverse = some o ↔ ofOrder? order = some o ∧ o.inverseOrder = inverse := by
  rw [ofParts?, Option.filter_eq_some_iff, beq_iff_eq]

/-! ### Fixed orders -/

/-- The identity is its own inverse. -/
theorem paired_identity (n : Nat) : (identity n).Paired := by
  have hat : ∀ i < n, (List.range n)[i]?.bind ((List.range n)[·]?) = some i := fun i hi => by
    rw [List.getElem?_range hi, Option.bind_some, List.getElem?_range hi]
  refine ⟨rfl, fun i hi => hat i ?_, fun i hi => hat i ?_⟩ <;> simpa [identity] using hi

/-- The first axis stays, the second one comes from the end and the others move up by one; the
inverse moves them back. -/
theorem paired_channelsFirst (n : Nat) : (channelsFirst n).Paired := by
  rw [channelsFirst]
  split
  · exact paired_identity n
  · obtain ⟨k, rfl⟩ : ∃ k, n = k + 2 := ⟨n - 2, by omega⟩
    -- the order is `0, k + 1, 1, …, k`, and its inverse `0, 2, …, k + 1, 1`
    have hmoved : ∀ j < k, (0 :: (k + 1) :: List.range' 1 k)[j + 2]? = some (j + 1) := fun j hj => by
      rw [List.getElem?_cons_succ, List.getElem?_cons_succ, List.getElem?_range' hj]
      congr 1
      omega
    have hback : ∀ j < k, (0 :: List.range' 2 k ++ [1])[j + 1]? = some (j + 2) := fun j hj => by
      rw [List.cons_append, List.getElem?_cons_succ,
        List.getElem?_append_left (by simpa using hj), List.getElem?_range' hj]
      congr 1
      omega
    have hlast : (0 :: List.range' 2 k ++ [1])[k + 1]? = some 1 := by
      rw [List.getElem?_append_right (by simp)]
      simp
    refine ⟨by simp, fun i hi => ?_, fun i hi => ?_⟩
    · rcases i with _ | _ | j
      · rfl
      · exact hlast
      · have hj : j < k := by simpa using hi
        show (0 :: (k + 1) :: List.range' 1 k)[j + 2]?.bind _ = _
        rw [hmoved j hj]
        exact hback j hj
    · rcases i with _ | j
      · rfl
      · show (0 :: List.range' 2 k ++ [1])[j + 1]?.bind _ = _
        rcases Nat.lt_or_ge j k with hj | hj
        · rw [hback j hj]
          exact hmoved j hj
        · obtain rfl : j = k := by
            have hlt : j < k + 1 := by simpa using hi
            omega
          rw [hlast]
          rfl

/-! ### Composition -/

/-- Orders of one length are composed by selecting in both of them. -/
theorem compose?_eq_some_iff {first next o : AxisOrders} :
    first.compose? next = some o ↔ first.order.length = next.order.length ∧
      o = ⟨select next.order first.order, select first.inverseOrder next.inverseOrder⟩ := by
  rw [compose?]
  split <;> simp [*, eq_comm]

section Composition

variable {first next : AxisOrders} (hfirst : first.Paired) (hnext : next.Paired)
  (hlength : first.order.length = next.order.length)
include hnext hlength

/-- All that the second order asks for is there. -/
theorem lt_of_mem_order {axis : Nat} (h : axis ∈ next.order) : axis < first.order.length :=
  hlength ▸ hnext.mem_order_iff.mp h

include hfirst

/-- Going forth through both orders and back through both inverses ends where it began. -/
theorem select_inverse_at {i : Nat} (hi : i < first.order.length) :
    (select next.order first.order)[i]?.bind
      ((select first.inverseOrder next.inverseOrder)[·]?) = some i := by
  have hback : next.inverse.order.length = first.inverse.order.length := by
    rw [inverse, inverse, hnext.length_eq, hfirst.length_eq, hlength]
  obtain ⟨j, hj, hij⟩ := Option.bind_eq_some_iff.mp (hnext.inverse_at i (hlength ▸ hi))
  obtain ⟨k, hk, hjk⟩ := Option.bind_eq_some_iff.mp
    (hfirst.inverse_at j (lt_of_mem_order hnext hlength (List.mem_of_getElem? hj)))
  rw [getElem?_select (fun _ => lt_of_mem_order hnext hlength), hj, Option.bind_some, hk,
    Option.bind_some]
  refine (getElem?_select (fun _ => lt_of_mem_order hfirst.inverse hback) k).trans ?_
  show first.inverseOrder[k]?.bind (next.inverseOrder[·]?) = some i
  rw [hjk, Option.bind_some, hij]

/-- Composing paired orders gives paired orders. -/
theorem paired_compose :
    Paired ⟨select next.order first.order, select first.inverseOrder next.inverseOrder⟩ := by
  have hback : next.inverse.order.length = first.inverse.order.length := by
    rw [inverse, inverse, hnext.length_eq, hfirst.length_eq, hlength]
  have hforth : (select next.order first.order).length = first.order.length := by
    rw [length_select_of_lt fun _ => lt_of_mem_order hnext hlength, hlength]
  refine ⟨?_, fun i hi => ?_, fun i hi => ?_⟩
  · refine (length_select_of_lt fun _ => lt_of_mem_order hfirst.inverse hback).trans ?_
    exact hfirst.length_eq.trans hforth.symm
  · exact select_inverse_at hfirst hnext hlength (hforth ▸ hi)
  · -- the inverse is composed of the inverses, in the other order
    refine select_inverse_at hnext.inverse hfirst.inverse hback ?_
    rw [inverse, hnext.length_eq, ← hlength]
    exact hforth ▸ hi

end Composition

/-- However the two lists were made, they are paired. -/
theorem Made.paired {o : AxisOrders} (h : o.Made) : o.Paired := by
  induction h with
  | ofOrder h => exact paired_of_ofOrder? h
  | ofParts h => exact paired_of_ofOrder? (ofParts?_eq_some_iff.mp h).1
  | identity n => exact paired_identity n
  | channelsFirst n => exact paired_channelsFirst n
  | inverse _ ih => exact ih.inverse
  | compose _ _ h hfirst hnext =>
    obtain ⟨hlength, rfl⟩ := compose?_eq_some_iff.mp h
    exact paired_compose hfirst hnext hlength

end AxisOrders

/-! ## Permutations -/

namespace Permutation

variable {β : Type} {p q : Permutation}

theorem paired (p : Permutation) : p.toAxisOrders.Paired :=
  p.made.paired

/-- The order of a permutation names each axis once. -/
theorem isPerm (p : Permutation) : p.order.Perm (List.range p.order.length) :=
  p.paired.perm

theorem mem_order_iff {i : Nat} : i ∈ p.order ↔ i < p.size :=
  p.paired.mem_order_iff

theorem mem_order_lt {i : Nat} (h : i ∈ p.order) : i < p.size :=
  mem_order_iff.mp h

/-- The order determines the permutation. -/
theorem ext_order (h : p.order = q.order) : p = q := by
  obtain ⟨⟨order, inverse⟩, hp⟩ := p
  obtain ⟨⟨order', inverse'⟩, hq⟩ := q
  obtain rfl : order = order' := h
  obtain rfl : inverse = inverse' := hp.paired.inverseOrder_eq.trans hq.paired.inverseOrder_eq.symm
  rfl

/-! ### What is made -/

/-- A permutation is made of its own order and of no other. -/
theorem ofOrder?_eq_some_iff {order : List Nat} : ofOrder? order = some p ↔ p.order = order := by
  rw [ofOrder?, Option.pmap_eq_some_iff]
  constructor
  · rintro ⟨o, hmade, ho, rfl⟩
    obtain ⟨-, rfl⟩ := AxisOrders.ofOrder?_eq_some_iff.mp ho
    rfl
  · rintro rfl
    refine ⟨p.toAxisOrders, p.made, AxisOrders.ofOrder?_eq_some_iff.mpr ⟨p.isPerm, ?_⟩, rfl⟩
    rw [← p.paired.inverseOrder_eq]

/-- A list is the order of a permutation if it names each axis once. -/
theorem isSome_ofOrder?_iff {order : List Nat} :
    (ofOrder? order).isSome ↔ order.Perm (List.range order.length) := by
  rw [ofOrder?, Option.isSome_pmap, Option.isSome_iff_exists]
  simp only [AxisOrders.ofOrder?_eq_some_iff]
  exact ⟨fun ⟨_, hperm, _⟩ => hperm, fun hperm => ⟨_, hperm, rfl⟩⟩

/-- A permutation is made of its own two orders and of no others. -/
theorem ofParts?_eq_some_iff {order inverse : List Nat} :
    ofParts? order inverse = some p ↔ p.order = order ∧ p.inverseOrder = inverse := by
  rw [ofParts?, Option.pmap_eq_some_iff]
  constructor
  · rintro ⟨o, hmade, ho, rfl⟩
    obtain ⟨horder, hinverse⟩ := AxisOrders.ofParts?_eq_some_iff.mp ho
    obtain ⟨-, rfl⟩ := AxisOrders.ofOrder?_eq_some_iff.mp horder
    exact ⟨rfl, hinverse⟩
  · rintro ⟨rfl, rfl⟩
    refine ⟨p.toAxisOrders, p.made, AxisOrders.ofParts?_eq_some_iff.mpr ⟨?_, rfl⟩, rfl⟩
    refine AxisOrders.ofOrder?_eq_some_iff.mpr ⟨p.isPerm, ?_⟩
    rw [← p.paired.inverseOrder_eq]

/-- Two lists belong together if the first is an order and the second has its positions. -/
theorem isSome_ofParts?_iff {order inverse : List Nat} :
    (ofParts? order inverse).isSome ↔ order.Perm (List.range order.length) ∧
      inverse.length = order.length ∧
      ∀ i < order.length, order[i]?.bind (inverse[·]?) = some i := by
  rw [Option.isSome_iff_exists]
  constructor
  · rintro ⟨p, hp⟩
    obtain ⟨rfl, rfl⟩ := ofParts?_eq_some_iff.mp hp
    exact ⟨p.isPerm, p.paired.length_eq, p.paired.inverse_at⟩
  · rintro ⟨hperm, hlength, hinverse⟩
    obtain ⟨p, hp⟩ := Option.isSome_iff_exists.mp (isSome_ofOrder?_iff.mpr hperm)
    obtain rfl := ofOrder?_eq_some_iff.mp hp
    refine ⟨p, ofParts?_eq_some_iff.mpr ⟨rfl, List.ext_getElem? fun axis => ?_⟩⟩
    rcases Nat.lt_or_ge axis p.order.length with hlt | hge
    · -- the axis stands somewhere in the order, and both lists say where
      obtain ⟨i, hi⟩ := List.mem_iff_getElem?.mp (mem_order_iff.mpr hlt)
      have hpos := (List.getElem?_eq_some_iff.mp hi).1
      have hp := p.paired.inverse_at i hpos
      have hgiven := hinverse i hpos
      rw [hi, Option.bind_some] at hp hgiven
      rw [hp, hgiven]
    · rw [List.getElem?_eq_none (p.paired.length_eq ▸ hge), List.getElem?_eq_none (hlength ▸ hge)]

/-- The inverse has as many axes. -/
@[simp] theorem size_inverse : p.inverse.size = p.size :=
  p.paired.length_eq

@[simp] theorem size_identity (n : Nat) : (identity n).size = n :=
  List.length_range

/-! ### The action on lists -/

/-- Selecting along a permutation rearranges the list. -/
theorem select_perm (p : Permutation) {values : List β} (h : values.length = p.order.length) :
    (select p.order values).Perm values := by
  have hsel : (select p.order values).Perm (select (List.range p.order.length) values) :=
    p.isPerm.filterMap _
  rwa [← h, select_range] at hsel

/-- A list is permuted if it has one entry for each axis. -/
theorem permute?_eq_some_iff {values moved : List β} :
    p.permute? values = some moved ↔ values.length = p.size ∧ select p.order values = moved := by
  rw [permute?]
  split <;> simp [*]

variable {values : List β}

theorem length_select (h : values.length = p.size) : (select p.order values).length = p.size := by
  rw [(select_perm p h).length_eq, h]

/-- The entries of a permuted list, one by one. -/
theorem getElem?_select_order (h : values.length = p.size) (i : Nat) :
    (select p.order values)[i]? = p.order[i]?.bind (values[·]?) :=
  getElem?_select (fun _ hj => h ▸ mem_order_lt hj) i

/-- What comes to position `order[i]` is what was at position `i`. -/
theorem select_inverse_select (h : values.length = p.size) :
    select p.inverse.order (select p.order values) = values := by
  refine List.ext_getElem? fun i => ?_
  rw [getElem?_select_order (by rw [length_select h, size_inverse])]
  simp only [getElem?_select_order h, ← Option.bind_assoc]
  show (p.inverseOrder[i]?.bind (p.order[·]?)).bind (values[·]?) = values[i]?
  rcases Nat.lt_or_ge i p.size with hi | hi
  · rw [p.paired.order_at i hi, Option.bind_some]
  · rw [List.getElem?_eq_none (p.paired.length_eq ▸ hi), List.getElem?_eq_none (h ▸ hi)]
    rfl

/-- Permuting after the inverse gives the list back. -/
theorem select_select_inverse (h : values.length = p.size) :
    select p.order (select p.inverse.order values) = values :=
  select_inverse_select (p := p.inverse) (h.trans size_inverse.symm)

/-! ### Composition -/

/-- Orders of one length are composed entry by entry. -/
theorem compose?_eq_some_iff {first next composed : Permutation} :
    first.compose? next = some composed ↔ first.size = next.size ∧
      ∀ i : Nat, composed.order[i]? = next.order[i]?.bind (first.order[·]?) := by
  rw [compose?, Option.pmap_eq_some_iff]
  constructor
  · rintro ⟨o, hmade, ho, rfl⟩
    obtain ⟨hlength, rfl⟩ := AxisOrders.compose?_eq_some_iff.mp ho
    exact ⟨hlength, getElem?_select_order hlength⟩
  · rintro ⟨hsize, hentries⟩
    have hmade := AxisOrders.compose?_eq_some_iff.mpr ⟨hsize, rfl⟩
    refine ⟨_, .compose first.made next.made hmade, hmade, ext_order ?_⟩
    exact List.ext_getElem? fun i => (hentries i).trans (getElem?_select_order hsize i).symm

/-- Permutations compose if they have as many axes. -/
theorem isSome_compose?_iff {first next : Permutation} :
    (first.compose? next).isSome ↔ first.size = next.size := by
  rw [compose?, Option.isSome_pmap, Option.isSome_iff_exists]
  simp only [AxisOrders.compose?_eq_some_iff]
  exact ⟨fun ⟨_, hsize, _⟩ => hsize, fun hsize => ⟨_, hsize, rfl⟩⟩

/-- The axes of a composition, one by one. -/
theorem getElem?_compose? {first next composed : Permutation}
    (h : first.compose? next = some composed) (i : Nat) :
    composed.order[i]? = next.order[i]?.bind (first.order[·]?) :=
  (compose?_eq_some_iff.mp h).2 i

theorem order_compose? {first next composed : Permutation}
    (h : first.compose? next = some composed) : composed.order = select next.order first.order :=
  List.ext_getElem? fun i => (getElem?_compose? h i).trans
    (getElem?_select_order (compose?_eq_some_iff.mp h).1 i).symm

/-- A composition has as many axes as its parts. -/
theorem size_compose? {first next composed : Permutation}
    (h : first.compose? next = some composed) : composed.size = first.size := by
  obtain ⟨hsize, -⟩ := compose?_eq_some_iff.mp h
  rw [size, order_compose? h, length_select hsize, hsize]

/-- Permuting twice is permuting by the composed order. -/
theorem permute?_compose? {first next composed : Permutation} {mid last : List β}
    (hcomposed : first.compose? next = some composed) (hfirst : first.permute? values = some mid)
    (hnext : next.permute? mid = some last) : composed.permute? values = some last := by
  obtain ⟨hsize, rfl⟩ := permute?_eq_some_iff.mp hfirst
  obtain ⟨hmid, rfl⟩ := permute?_eq_some_iff.mp hnext
  have hlength : values.length = composed.size := by rw [hsize, size_compose? hcomposed]
  refine permute?_eq_some_iff.mpr ⟨hlength, List.ext_getElem? fun i => ?_⟩
  rw [getElem?_select_order hlength, getElem?_select_order hmid, getElem?_compose? hcomposed]
  simp only [getElem?_select_order hsize, Option.bind_assoc]

/-- A list that fits can be permuted one after the other. -/
theorem exists_permute? {first next : Permutation} (hsize : first.size = next.size)
    (h : values.length = first.size) :
    ∃ mid last, first.permute? values = some mid ∧ next.permute? mid = some last :=
  ⟨_, _, permute?_eq_some_iff.mpr ⟨h, rfl⟩,
    permute?_eq_some_iff.mpr ⟨(length_select h).trans hsize, rfl⟩⟩

/-- An order that changes nothing. -/
theorem permute?_of_isIdentity (h : p.isIdentity = true) {moved : List β}
    (hmoved : p.permute? values = some moved) : moved = values := by
  obtain ⟨hsize, rfl⟩ := permute?_eq_some_iff.mp hmoved
  rw [show p.order = List.range p.size from beq_iff_eq.mp h, ← hsize, select_range]

/-- An identity leaves each axis in its place. -/
theorem getElem?_of_isIdentity (h : p.isIdentity = true) {i : Nat} (hi : i < p.size) :
    p.order[i]? = some i := by
  rw [show p.order = List.range p.size from beq_iff_eq.mp h, List.getElem?_range hi]

/-! ### The laws of a group -/

theorem getElem?_identity {n i : Nat} (hi : i < n) : (identity n).order[i]? = some i :=
  List.getElem?_range hi

/-- The identity may come last. -/
theorem compose?_identity (p : Permutation) : p.compose? (identity p.size) = some p := by
  refine compose?_eq_some_iff.mpr ⟨(size_identity _).symm, fun i => ?_⟩
  rcases Nat.lt_or_ge i p.size with hi | hi
  · rw [getElem?_identity hi, Option.bind_some]
  · rw [List.getElem?_eq_none hi, List.getElem?_eq_none (by rwa [← size, size_identity])]
    rfl

/-- The identity may come first. -/
theorem identity_compose? (p : Permutation) : (identity p.size).compose? p = some p := by
  refine compose?_eq_some_iff.mpr ⟨size_identity _, fun i => ?_⟩
  cases hi : p.order[i]? with
  | none => rfl
  | some axis =>
    rw [Option.bind_some, getElem?_identity (mem_order_lt (List.mem_of_getElem? hi))]

/-- A permutation is undone by its inverse. -/
theorem compose?_inverse (p : Permutation) : p.compose? p.inverse = some (identity p.size) := by
  refine compose?_eq_some_iff.mpr ⟨size_inverse.symm, fun i => ?_⟩
  rcases Nat.lt_or_ge i p.size with hi | hi
  · rw [getElem?_identity hi]
    exact (p.paired.order_at i hi).symm
  · rw [List.getElem?_eq_none (by rwa [← size, size_identity]),
      List.getElem?_eq_none (by rwa [← size, size_inverse])]
    rfl

/-- A permutation undoes its inverse. -/
theorem inverse_compose? (p : Permutation) : p.inverse.compose? p = some (identity p.size) := by
  have h := compose?_inverse p.inverse
  rwa [size_inverse] at h

section Associativity

variable {first next last composed : Permutation}

/-- Both ways to compose three orders go through the last, the next and the first. -/
theorem compose?_bind_compose?_eq_some_iff :
    ((first.compose? next).bind fun p => p.compose? last) = some composed ↔
      (first.size = next.size ∧ next.size = last.size) ∧
        ∀ i : Nat, composed.order[i]? =
          (last.order[i]?.bind (next.order[·]?)).bind (first.order[·]?) := by
  rw [Option.bind_eq_some_iff]
  constructor
  · rintro ⟨p, hp, hcomposed⟩
    obtain ⟨hsize, -⟩ := compose?_eq_some_iff.mp hp
    obtain ⟨hlast, hentries⟩ := compose?_eq_some_iff.mp hcomposed
    refine ⟨⟨hsize, by rw [← hlast, size_compose? hp, hsize]⟩, fun i => ?_⟩
    rw [hentries, Option.bind_assoc]
    simp only [getElem?_compose? hp]
  · rintro ⟨⟨hsize, hlast⟩, hentries⟩
    obtain ⟨p, hp⟩ := Option.isSome_iff_exists.mp (isSome_compose?_iff.mpr hsize)
    refine ⟨p, hp, compose?_eq_some_iff.mpr ⟨by rw [size_compose? hp, hsize, hlast], fun i => ?_⟩⟩
    rw [hentries, Option.bind_assoc]
    simp only [getElem?_compose? hp]

/-- A composition of three, by the axes that it reads. -/
theorem bind_compose?_eq_some_iff :
    ((next.compose? last).bind fun p => first.compose? p) = some composed ↔
      (first.size = next.size ∧ next.size = last.size) ∧
        ∀ i : Nat, composed.order[i]? =
          (last.order[i]?.bind (next.order[·]?)).bind (first.order[·]?) := by
  rw [Option.bind_eq_some_iff]
  constructor
  · rintro ⟨p, hp, hcomposed⟩
    obtain ⟨hsize, -⟩ := compose?_eq_some_iff.mp hp
    obtain ⟨hfirst, hentries⟩ := compose?_eq_some_iff.mp hcomposed
    refine ⟨⟨by rw [hfirst, size_compose? hp], hsize⟩, fun i => ?_⟩
    rw [hentries, getElem?_compose? hp]
  · rintro ⟨⟨hfirst, hsize⟩, hentries⟩
    obtain ⟨p, hp⟩ := Option.isSome_iff_exists.mp (isSome_compose?_iff.mpr hsize)
    refine ⟨p, hp, compose?_eq_some_iff.mpr ⟨by rw [size_compose? hp, hfirst], fun i => ?_⟩⟩
    rw [hentries, getElem?_compose? hp]

end Associativity

/-- Composition is associative, and defined on both sides or on none. -/
theorem compose?_assoc (first next last : Permutation) :
    ((first.compose? next).bind fun p => p.compose? last) =
      (next.compose? last).bind fun p => first.compose? p := by
  refine Option.ext fun composed => ?_
  rw [compose?_bind_compose?_eq_some_iff, bind_compose?_eq_some_iff]

/-- The lists that are accepted are the rearrangements of `0, …, n - 1`, with the list of their
positions if two lists are given.  Every permutation has two lists that undo each other.
Permutations of one size compose, associatively, with a unit and inverses, and act on the lists of
this size. -/
theorem composition_laws :
    (∀ order, ((ofOrder? order).isSome ↔ order.Perm (List.range order.length)) ∧
      ∀ p, ofOrder? order = some p ↔ p.order = order) ∧
    (∀ order inverse, ((ofParts? order inverse).isSome ↔
        order.Perm (List.range order.length) ∧ inverse.length = order.length ∧
          ∀ i < order.length, order[i]?.bind (inverse[·]?) = some i) ∧
      ∀ p, ofParts? order inverse = some p ↔ p.order = order ∧ p.inverseOrder = inverse) ∧
    (∀ p : Permutation, p.inverseOrder.length = p.order.length ∧
      ∀ i < p.order.length, p.order[i]?.bind (p.inverseOrder[·]?) = some i ∧
        p.inverseOrder[i]?.bind (p.order[·]?) = some i) ∧
    (∀ first next : Permutation, (first.compose? next).isSome ↔ first.size = next.size) ∧
    (∀ first next last : Permutation, ((first.compose? next).bind fun p => p.compose? last) =
      (next.compose? last).bind fun p => first.compose? p) ∧
    (∀ p : Permutation,
      p.compose? (identity p.size) = some p ∧ (identity p.size).compose? p = some p ∧
      p.compose? p.inverse = some (identity p.size) ∧
      p.inverse.compose? p = some (identity p.size)) ∧
    ∀ (β : Type) (first next composed : Permutation) (values : List β),
      first.compose? next = some composed → values.length = first.size →
        ∃ moved last, first.permute? values = some moved ∧
          (∀ i : Nat, moved[i]? = first.order[i]?.bind (values[·]?)) ∧
          next.permute? moved = some last ∧ composed.permute? values = some last := by
  refine ⟨fun order => ⟨isSome_ofOrder?_iff, fun p => ofOrder?_eq_some_iff⟩,
    fun order inverse => ⟨isSome_ofParts?_iff, fun p => ofParts?_eq_some_iff⟩,
    fun p => ⟨p.paired.length_eq, fun i hi => ⟨p.paired.inverse_at i hi, p.paired.order_at i hi⟩⟩,
    fun _ _ => isSome_compose?_iff, compose?_assoc,
    fun p => ⟨compose?_identity p, identity_compose? p, compose?_inverse p, inverse_compose? p⟩, ?_⟩
  intro β first next composed values hcomposed hlength
  have hsize := (compose?_eq_some_iff.mp hcomposed).1
  obtain ⟨moved, last, hmoved, hlast⟩ := exists_permute? hsize hlength
  refine ⟨moved, last, hmoved, ?_, hlast, permute?_compose? hcomposed hmoved hlast⟩
  obtain ⟨-, rfl⟩ := permute?_eq_some_iff.mp hmoved
  exact getElem?_select_order hlength

/-- Three axes, of which the last two are swapped before all are turned. -/
theorem composition_laws_of_three :
    ∃ turn composed moved last, ofOrder? [1, 2, 0] = some turn ∧
      (channelsFirst 3).compose? turn = some composed ∧
      (channelsFirst 3).permute? [7, 8, 9] = some moved ∧ turn.permute? moved = some last ∧
      composed.permute? [7, 8, 9] = some last ∧ last = [9, 8, 7] := by
  obtain ⟨moved, last, hmoved, -, hlast, hcomposed⟩ :=
    composition_laws.2.2.2.2.2.2 Nat (channelsFirst 3) ((ofOrder? [1, 2, 0]).get rfl)
      (((channelsFirst 3).compose? ((ofOrder? [1, 2, 0]).get rfl)).get rfl) [7, 8, 9] rfl rfl
  exact ⟨_, _, moved, last, rfl, rfl, hmoved, hlast, hcomposed, (Option.some.inj hcomposed).symm⟩

end Permutation

end TensorGraph
