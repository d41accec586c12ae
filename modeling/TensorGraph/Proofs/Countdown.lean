/-
  Counting down emits the least order.

  A countdown knows of each item only how many edges hold it back, while `leastOrder` knows by which
  items.  `Tracks` ties the two: the count of an item is the number of items it waits for, one that
  is there twice counted twice, and the items that are ready are those that wait for nothing.

  1. Releasing items one by one takes off each count as often as the item is released
     (`count?_releaseAll`), and makes those ready whose count comes down to zero
     (`mem_ready_releaseAll`).
  2. If the edges out of an item are as many as there are entries for it among what the others wait
     for, releasing their ends is striking the item (`Tracks.step`).
  3. So both emit the same items, one after the other (`Tracks.emit`), and the items that are held
     back at the end are those that remain (`countdown_eq_leastOrder`).
-/
import TensorGraph.Order.Countdown
import TensorGraph.Proofs.Order

namespace TensorGraph

namespace Countdown

variable {c : Countdown} {item x : Nat} {heads : Nat → List Nat} {waiting : List (Waiting Nat)}

/-! ## Releasing -/

/-- Releases items one after the other. -/
def releaseAll (c : Countdown) (items : List Nat) : Countdown :=
  items.foldl release c

theorem releaseAll_cons (c : Countdown) (item : Nat) (items : List Nat) :
    c.releaseAll (item :: items) = (c.release item).releaseAll items :=
  rfl

theorem count?_release (c : Countdown) (item x : Nat) :
    (c.release item).count? x = if x = item then (c.count? x).map (· - 1) else c.count? x := by
  rw [release]
  split
  · rename_i n hn
    have hsame : (fun entry : Nat × Nat => entry.1 == x) ∘
        (fun entry => if entry.1 == item then (item, n) else entry) = fun entry => entry.1 == x := by
      funext entry
      by_cases hentry : entry.1 = item <;> simp [hentry]
    simp only [count?, List.find?_map, hsame]
    split
    · rename_i hx
      subst hx
      rw [count?] at hn
      obtain ⟨entry, hentry, -⟩ := Option.map_eq_some_iff.mp hn
      have hkey : entry.1 = x := by simpa using List.find?_some hentry
      rw [hn, hentry]
      simp [hkey]
    · rename_i hx
      rw [Option.map_map]
      refine Option.map_congr fun entry hentry => ?_
      have hkey : entry.1 = x := by simpa using List.find?_some hentry
      simp [hkey, hx]
  · rename_i hzero
    split
    · rename_i hx
      subst hx
      rcases hcount : c.count? x with _ | _ | n
      · rfl
      · rfl
      · exact absurd hcount (hzero n)
    · rfl

theorem mem_ready_release :
    x ∈ (c.release item).ready ↔ x ∈ c.ready ∨ (x = item ∧ c.count? item = some 1) := by
  rw [release]
  split
  · rename_i n hn
    rw [hn]
    dsimp only
    split
    · rename_i hzero
      rw [(insertSorted_perm _ _ _).mem_iff, List.mem_cons, hzero]
      tauto
    · rename_i hzero
      simp [hzero]
  · rename_i hzero
    refine (or_iff_left fun h => ?_).symm
    exact hzero 0 h.2

/-- A count goes down by the number of releases. -/
theorem count?_releaseAll (c : Countdown) (items : List Nat) (x : Nat) :
    (c.releaseAll items).count? x = (c.count? x).map (· - items.count x) := by
  induction items generalizing c with
  | nil => simp [releaseAll]
  | cons item items ih =>
    rw [releaseAll_cons, ih, count?_release, List.count_cons]
    by_cases hx : x = item
    · subst hx
      rw [if_pos rfl, Option.map_map]
      refine Option.map_congr fun n _ => ?_
      simp only [Function.comp_apply, beq_self_eq_true, if_true]
      omega
    · rw [if_neg hx]
      simp [Ne.symm hx]

/-- An item is ready if it was, or if it is released as often as its count says. -/
theorem mem_ready_releaseAll (c : Countdown) (items : List Nat) (x : Nat) :
    x ∈ (c.releaseAll items).ready ↔
      x ∈ c.ready ∨ ∃ n, c.count? x = some (n + 1) ∧ n + 1 ≤ items.count x := by
  induction items generalizing c with
  | nil => simp [releaseAll]
  | cons item items ih =>
    rw [releaseAll_cons, ih, mem_ready_release, count?_release, List.count_cons]
    by_cases hx : x = item
    · subst hx
      rcases hcount : c.count? x with _ | _ | _ | n <;> simp
    · simp [hx, Ne.symm hx]

theorem le_total_decide (a b : Nat) : decide (a ≤ b) = true ∨ decide (b ≤ a) = true := by
  simpa using Nat.le_total a b

theorem le_trans_decide (a b c : Nat) (hab : decide (a ≤ b) = true) (hbc : decide (b ≤ c) = true) :
    decide (a ≤ c) = true := by
  simpa using Nat.le_trans (of_decide_eq_true hab) (of_decide_eq_true hbc)

/-- Sorted numbers of which no two are the same are increasing. -/
theorem increasing_of_sorted {numbers : List Nat}
    (hsorted : numbers.Pairwise fun a b => decide (a ≤ b) = true) (hnodup : numbers.Nodup) :
    numbers.Pairwise (· < ·) :=
  (hsorted.and hnodup).imp fun ⟨hle, hne⟩ => Nat.lt_of_le_of_ne (of_decide_eq_true hle) hne

/-- The items that are ready are listed in increasing order and have nothing to wait for. -/
structure ReadyInOrder (c : Countdown) : Prop where
  increasing : c.ready.Pairwise (· < ·)
  zero : ∀ x ∈ c.ready, c.count? x = some 0

theorem ReadyInOrder.release (h : c.ReadyInOrder) (item : Nat) : (c.release item).ReadyInOrder where
  increasing := by
    rw [Countdown.release]
    split
    · rename_i n hn
      dsimp only
      split
      · have hnew : item ∉ c.ready := fun hmem => by
          rw [h.zero item hmem] at hn
          cases hn
        have hnodup : (insertSorted (· ≤ ·) item c.ready).Nodup :=
          (insertSorted_perm _ _ _).nodup_iff.mpr
            (List.nodup_cons.mpr ⟨hnew, h.increasing.imp Nat.ne_of_lt⟩)
        refine increasing_of_sorted (insertSorted_pairwise le_total_decide le_trans_decide item ?_)
          hnodup
        exact h.increasing.imp fun hlt => decide_eq_true (Nat.le_of_lt hlt)
      · exact h.increasing
    · exact h.increasing
  zero := by
    intro x hx
    rw [count?_release]
    rcases mem_ready_release.mp hx with hx | ⟨rfl, hone⟩
    · rw [h.zero x hx]
      simp
    · rw [hone]
      simp

theorem ReadyInOrder.releaseAll (h : c.ReadyInOrder) (items : List Nat) :
    (c.releaseAll items).ReadyInOrder := by
  induction items generalizing c with
  | nil => exact h
  | cons item items ih => exact ih (h.release item)

/-! ## Counts and what they count -/

/-- The countdown counts what the items wait for; items that are gone hold nothing back. -/
structure Tracks (c : Countdown) (waiting : List (Waiting Nat)) : Prop where
  increasing : c.ready.Pairwise (· < ·)
  mem_ready : ∀ x, x ∈ c.ready ↔ ∃ w ∈ waiting, w.item = x ∧ w.waitsFor = []
  count_waiting : ∀ w ∈ waiting, c.count? w.item = some w.waitsFor.length
  count_gone : ∀ x, x ∉ waiting.map (·.item) → c.count? x = none ∨ c.count? x = some 0

/-- The edges out of an item are as many as the entries for it among what the others wait for. -/
def Matched (heads : Nat → List Nat) (waiting : List (Waiting Nat)) : Prop :=
  ∀ v ∈ waiting, ∀ w ∈ waiting, (heads v.item).count w.item = w.waitsFor.count v.item

theorem Matched.strike (h : Matched heads waiting) (done : Nat) :
    Matched heads (strike done waiting) := by
  intro v' hv' w' hw'
  obtain ⟨v, hv, hne, rfl⟩ := mem_strike.mp hv'
  obtain ⟨w, hw, -, rfl⟩ := mem_strike.mp hw'
  rw [h v hv w hw, List.count_filter]
  simpa using hne

/-- The first item that waits for nothing is the least one that is ready. -/
theorem Tracks.find?_eq (h : c.Tracks waiting)
    (hincreasing : (waiting.map (·.item)).Pairwise (· < ·)) {ready : List Nat}
    (hready : c.ready = item :: ready) :
    waiting.find? (fun w => w.waitsFor.isEmpty) = some ⟨item, []⟩ := by
  obtain ⟨w, hw, hitem, hfree⟩ := (h.mem_ready item).mp (hready ▸ List.mem_cons_self)
  obtain ⟨v, hv⟩ := Option.isSome_iff_exists.mp <| List.find?_isSome (p := fun w : Waiting Nat =>
    w.waitsFor.isEmpty).mpr ⟨w, hw, by simp [hfree]⟩
  have hvmem := List.mem_of_find?_eq_some hv
  have hvfree : v.waitsFor = [] := by simpa using List.find?_some hv
  -- the item that is found is not behind the one that is ready, and is ready itself
  have hle : v.item ≤ w.item := by
    obtain ⟨-, front, back, hsplit, hfront⟩ := List.find?_eq_some_iff_append.mp hv
    rw [hsplit] at hw hincreasing
    rcases List.mem_append.mp hw with hw | hw
    · exact absurd hfree (by simpa using hfront w hw)
    · rcases List.mem_cons.mp hw with rfl | hw
      · exact Nat.le_refl _
      · rw [List.map_append, List.pairwise_append, List.map_cons, List.pairwise_cons] at hincreasing
        exact Nat.le_of_lt (hincreasing.2.1.1 _ (List.mem_map.mpr ⟨w, hw, rfl⟩))
  have hge : item ≤ v.item := by
    have hmem : v.item ∈ item :: ready := hready ▸ (h.mem_ready _).mpr ⟨v, hvmem, rfl, hvfree⟩
    have hsorted := h.increasing
    rw [hready, List.pairwise_cons] at hsorted
    rcases List.mem_cons.mp hmem with hv | hv
    · exact Nat.le_of_eq hv.symm
    · exact Nat.le_of_lt (hsorted.1 _ hv)
  obtain ⟨vitem, vwaits⟩ := v
  obtain rfl : vwaits = [] := hvfree
  obtain rfl : vitem = item := by
    simp only at hle hge
    omega
  exact hv

/-- Without one of the entries, as many are missing as there are of it. -/
theorem length_filter_ne (list : List Nat) (x : Nat) :
    (list.filter (· != x)).length = list.length - list.count x := by
  have hsplit := list.length_eq_countP_add_countP (· == x)
  have hrest : list.countP (fun y => decide ¬ (y == x) = true) = (list.filter (· != x)).length := by
    rw [List.countP_eq_length_filter]
    congr 1
    refine List.filter_congr fun y _ => ?_
    by_cases hy : y = x <;> simp [hy]
  rw [hrest] at hsplit
  rw [List.count]
  omega

/-- An item that waits for nothing but one item waits for nothing once that is struck. -/
theorem filter_ne_eq_nil_iff {list : List Nat} {x : Nat} :
    list.filter (· != x) = [] ↔ list.length ≤ list.count x := by
  rw [← List.length_eq_zero_iff, length_filter_ne]
  omega

/-- An item that is ready has the count zero. -/
theorem Tracks.count_ready (h : c.Tracks waiting) (hx : x ∈ c.ready) : c.count? x = some 0 := by
  obtain ⟨w, hw, rfl, hfree⟩ := (h.mem_ready x).mp hx
  rw [h.count_waiting w hw, hfree, List.length_nil]

/-- An item with a count above zero is there, and waits for as many. -/
theorem Tracks.waiting_of_count (h : c.Tracks waiting) {n : Nat} (hn : c.count? x = some (n + 1)) :
    ∃ w ∈ waiting, w.item = x ∧ w.waitsFor.length = n + 1 := by
  have hmem : x ∈ waiting.map (·.item) := by
    by_contra hgone
    rcases h.count_gone x hgone with hcount | hcount
    · cases hcount.symm.trans hn
    · cases hcount.symm.trans hn
  obtain ⟨w, hw, rfl⟩ := List.mem_map.mp hmem
  exact ⟨w, hw, rfl, Option.some.inj ((h.count_waiting w hw).symm.trans hn)⟩

/-- What is ready behind the least item is ready and is another item. -/
theorem Tracks.mem_behind (h : c.Tracks waiting) {ready : List Nat}
    (hready : c.ready = item :: ready) : x ∈ ready ↔ x ∈ c.ready ∧ x ≠ item := by
  have hsorted := h.increasing
  rw [hready, List.pairwise_cons] at hsorted
  rw [hready, List.mem_cons]
  constructor
  · intro hx
    exact ⟨.inr hx, Nat.ne_of_gt (hsorted.1 x hx)⟩
  · rintro ⟨rfl | hx, hne⟩
    · exact absurd rfl hne
    · exact hx

/-- What is ready after a step waits for nothing once the item is struck. -/
theorem Tracks.mem_ready_step (h : c.Tracks waiting) (hmatched : Matched heads waiting)
    {ready : List Nat} (hready : c.ready = item :: ready) :
    x ∈ (({ c with ready } : Countdown).releaseAll (heads item)).ready ↔
      ∃ w ∈ strike item waiting, w.item = x ∧ w.waitsFor = [] := by
  have hitem : item ∈ c.ready := hready ▸ List.mem_cons_self
  obtain ⟨u, hu, rfl, -⟩ := (h.mem_ready item).mp hitem
  rw [mem_ready_releaseAll]
  show (x ∈ ready ∨ ∃ n, c.count? x = some (n + 1) ∧ n + 1 ≤ (heads u.item).count x) ↔ _
  constructor
  · rintro (hx | ⟨n, hn, hle⟩)
    · obtain ⟨hx, hne⟩ := (h.mem_behind hready).mp hx
      obtain ⟨w, hw, rfl, hfree⟩ := (h.mem_ready x).mp hx
      exact ⟨_, mem_strike.mpr ⟨w, hw, hne, rfl⟩, rfl, by simp [hfree]⟩
    · obtain ⟨w, hw, rfl, hlength⟩ := h.waiting_of_count hn
      have hne : w.item ≠ u.item := by
        intro hsame
        rw [hsame, h.count_ready hitem] at hn
        cases hn
      rw [hmatched u hu w hw, ← hlength] at hle
      exact ⟨_, mem_strike.mpr ⟨w, hw, hne, rfl⟩, rfl, filter_ne_eq_nil_iff.mpr hle⟩
  · rintro ⟨w', hw', rfl, hfree⟩
    obtain ⟨w, hw, hne, rfl⟩ := mem_strike.mp hw'
    rcases hlength : w.waitsFor.length with _ | n
    · have hw' := (h.mem_ready w.item).mpr ⟨w, hw, rfl, List.length_eq_zero_iff.mp hlength⟩
      exact .inl ((h.mem_behind hready).mpr ⟨hw', hne⟩)
    · refine .inr ⟨n, (h.count_waiting w hw).trans (congrArg some hlength), ?_⟩
      rw [hmatched u hu w hw, ← hlength]
      exact filter_ne_eq_nil_iff.mp hfree

/-- Emitting the least item that is ready and releasing the ends of its edges strikes it. -/
theorem Tracks.step (h : c.Tracks waiting) (hmatched : Matched heads waiting) {ready : List Nat}
    (hready : c.ready = item :: ready) :
    (({ c with ready } : Countdown).releaseAll (heads item)).Tracks (strike item waiting) := by
  have hitem : item ∈ c.ready := hready ▸ List.mem_cons_self
  have hstart : ({ c with ready } : Countdown).ReadyInOrder := by
    have hsorted := h.increasing
    rw [hready, List.pairwise_cons] at hsorted
    exact ⟨hsorted.2, fun x hx => h.count_ready ((h.mem_behind hready).mp hx).1⟩
  refine ⟨(hstart.releaseAll _).increasing, fun x => h.mem_ready_step hmatched hready, ?_,
    fun x hx => ?_⟩
  · intro w' hw'
    obtain ⟨w, hw, -, rfl⟩ := mem_strike.mp hw'
    obtain ⟨u, hu, rfl, -⟩ := (h.mem_ready item).mp hitem
    rw [count?_releaseAll, length_filter_ne, ← hmatched u hu w hw]
    show (c.count? w.item).map _ = _
    rw [h.count_waiting w hw, Option.map_some]
  · have hcount : c.count? x = none ∨ c.count? x = some 0 := by
      rw [strike_items, List.mem_filter, not_and_or] at hx
      rcases hx with hx | hx
      · exact h.count_gone x hx
      · obtain rfl : x = item := by simpa using hx
        exact .inr (h.count_ready hitem)
    rw [count?_releaseAll]
    show (c.count? x).map _ = none ∨ (c.count? x).map _ = some 0
    rcases hcount with hnone | hnone <;> simp [hnone]

/-- Counting down emits what striking emits, and goes on tracking it. -/
theorem Tracks.emit (steps : Nat) (h : c.Tracks waiting) (hmatched : Matched heads waiting)
    (hincreasing : (waiting.map (·.item)).Pairwise (· < ·)) :
    (c.emit heads steps).1 = (emitSteps steps waiting).1 ∧
      (c.emit heads steps).2.Tracks (emitSteps steps waiting).2 := by
  induction steps generalizing c waiting with
  | zero => exact ⟨rfl, h⟩
  | succ steps ih =>
    rw [Countdown.emit, emitSteps]
    split
    · rename_i hready
      have hnone : waiting.find? (fun w => w.waitsFor.isEmpty) = none := by
        rw [List.find?_eq_none]
        intro w hw hfree
        have hmem := (h.mem_ready w.item).mpr ⟨w, hw, rfl, by simpa using hfree⟩
        rw [hready] at hmem
        exact absurd hmem List.not_mem_nil
      rw [hnone]
      exact ⟨rfl, h⟩
    · rename_i item ready hready
      rw [h.find?_eq hincreasing hready]
      have hstruck : ((strike item waiting).map (·.item)).Pairwise (· < ·) := by
        rw [strike_items]
        exact hincreasing.filter _
      obtain ⟨horder, hrest⟩ := ih (h.step hmatched hready) (hmatched.strike item) hstruck
      exact ⟨congrArg (item :: ·) horder, hrest⟩

/-- At the start nothing has been emitted. -/
theorem tracks_start (hincreasing : (waiting.map (·.item)).Pairwise (· < ·)) :
    (start (waiting.map fun w => (w.item, w.waitsFor.length))).Tracks waiting := by
  have hnodup : (waiting.map (·.item)).Nodup := hincreasing.imp Nat.ne_of_lt
  have hcount : ∀ w ∈ waiting, count? (start (waiting.map fun w => (w.item, w.waitsFor.length)))
      w.item = some w.waitsFor.length := by
    intro w hw
    rw [count?, start, List.find?_map]
    obtain ⟨v, hv⟩ := Option.isSome_iff_exists.mp <| List.find?_isSome (p := fun v : Waiting Nat =>
      v.item == w.item).mpr ⟨w, hw, beq_self_eq_true _⟩
    have hkey : v.item = w.item := by simpa using List.find?_some hv
    have hsame := List.inj_on_of_nodup_map hnodup (List.mem_of_find?_eq_some hv) hw hkey
    have hfind : waiting.find? ((fun entry : Nat × Nat => entry.1 == w.item) ∘
        fun w => (w.item, w.waitsFor.length)) = some w := hsame ▸ hv
    rw [hfind]
    rfl
  have hready : ∀ x, x ∈ (start (waiting.map fun w => (w.item, w.waitsFor.length))).ready ↔
      ∃ w ∈ waiting, w.item = x ∧ w.waitsFor = [] := by
    intro x
    simp only [start, mem_sorted, List.mem_map, List.mem_filter, beq_iff_eq]
    constructor
    · rintro ⟨_, ⟨⟨w, hw, rfl⟩, hzero⟩, rfl⟩
      exact ⟨w, hw, rfl, List.length_eq_zero_iff.mp hzero⟩
    · rintro ⟨w, hw, rfl, hfree⟩
      exact ⟨_, ⟨⟨w, hw, rfl⟩, List.length_eq_zero_iff.mpr hfree⟩, rfl⟩
  refine ⟨?_, hready, hcount, fun x hx => .inl ?_⟩
  · have hitems : (((waiting.map fun w => (w.item, w.waitsFor.length)).filter fun entry =>
        entry.2 == 0).map (·.1)).Sublist (waiting.map (·.item)) := by
      have hsub := (List.filter_sublist (p := fun entry : Nat × Nat => entry.2 == 0)
        (l := waiting.map fun w => (w.item, w.waitsFor.length))).map (·.1)
      rwa [List.map_map] at hsub
    exact increasing_of_sorted (sorted_pairwise le_total_decide le_trans_decide _)
      ((sorted_perm _ _).nodup_iff.mpr (hnodup.sublist hitems))
  · show (List.find? _ _).map _ = none
    rw [Option.map_eq_none_iff, List.find?_eq_none]
    rintro _ hentry hkey
    obtain ⟨w, hw, rfl⟩ := List.mem_map.mp hentry
    exact hx (List.mem_map.mpr ⟨w, hw, by simpa using hkey⟩)

/-! ## What is held back -/

theorem items_release (c : Countdown) (item : Nat) :
    (c.release item).counts.map (·.1) = c.counts.map (·.1) := by
  rw [release]
  split
  · rw [List.map_map]
    refine List.map_congr_left fun entry _ => ?_
    by_cases hentry : entry.1 = item <;> simp [hentry]
  · rfl

theorem items_releaseAll (c : Countdown) (items : List Nat) :
    (c.releaseAll items).counts.map (·.1) = c.counts.map (·.1) := by
  induction items generalizing c with
  | nil => rfl
  | cons item items ih => rw [releaseAll_cons, ih, items_release]

/-- No item is lost or added. -/
theorem items_emit (heads : Nat → List Nat) (steps : Nat) (c : Countdown) :
    (c.emit heads steps).2.counts.map (·.1) = c.counts.map (·.1) := by
  induction steps generalizing c with
  | zero => rfl
  | succ steps ih =>
    rw [emit]
    split
    · rfl
    · rename_i item ready _
      exact (ih _).trans (items_releaseAll { c with ready } (heads item))

/-- The items that are held back are those with a count above zero. -/
theorem mem_stuck_iff (hnodup : (c.counts.map (·.1)).Nodup) :
    x ∈ c.stuck ↔ ∃ n, c.count? x = some (n + 1) := by
  simp only [stuck, List.mem_map, List.mem_filter, decide_eq_true_eq, count?, Option.map_eq_some_iff,
    find?_key_eq_some_iff hnodup]
  constructor
  · rintro ⟨⟨item, n⟩, ⟨hmem, hpos⟩, rfl⟩
    exact ⟨n - 1, ⟨item, n⟩, ⟨hmem, rfl⟩, by simp only at hpos ⊢; omega⟩
  · rintro ⟨n, entry, ⟨hmem, rfl⟩, hn⟩
    exact ⟨entry, ⟨hmem, by omega⟩, rfl⟩

/-- If all that remain wait for something, they are what is held back. -/
theorem Tracks.stuck_eq (h : c.Tracks waiting) (hitems : (c.counts.map (·.1)).Pairwise (· < ·))
    (hincreasing : (waiting.map (·.item)).Pairwise (· < ·))
    (hwaits : ∀ w ∈ waiting, w.waitsFor ≠ []) : c.stuck = waiting.map (·.item) := by
  refine List.Pairwise.eq_of_mem_iff (hitems.sublist (List.filter_sublist.map _)) hincreasing
    fun x => ?_
  rw [mem_stuck_iff (hitems.imp Nat.ne_of_lt)]
  constructor
  · rintro ⟨n, hn⟩
    by_contra hgone
    rcases h.count_gone x hgone with hcount | hcount
    · rw [hcount] at hn
      cases hn
    · rw [hcount] at hn
      cases hn
  · intro hx
    obtain ⟨w, hw, rfl⟩ := List.mem_map.mp hx
    obtain ⟨n, hn⟩ := Nat.exists_eq_succ_of_ne_zero
      (mt List.length_eq_zero_iff.mp (hwaits w hw))
    exact ⟨n, (h.count_waiting w hw).trans (congrArg some hn)⟩

end Countdown

/-- After enough steps, what remains still waits for something. -/
theorem emitSteps_waits (steps : Nat) (waiting : List (Waiting Nat)) (hsteps : waiting.length ≤ steps) :
    ∀ w ∈ (emitSteps steps waiting).2, w.waitsFor ≠ [] := by
  induction steps generalizing waiting with
  | zero =>
    obtain rfl : waiting = [] := List.length_eq_zero_iff.mp (Nat.le_zero.mp hsteps)
    simp [emitSteps]
  | succ steps ih =>
    rw [emitSteps]
    split
    · rename_i hnone
      intro w hw hfree
      exact List.find?_eq_none.mp hnone w hw (by simp [hfree])
    · rename_i v hv
      refine ih _ ?_
      have hless := length_strike_lt (List.mem_of_find?_eq_some hv)
      omega

/-- **Counting down emits the least order**, and what is held back at the end is what that leaves
over.  The counts are the numbers of items waited for, and each edge out of an item stands for one
entry among what the end of the edge waits for. -/
theorem countdown_eq_leastOrder {heads : Nat → List Nat} {waiting : List (Waiting Nat)}
    (hincreasing : (waiting.map (·.item)).Pairwise (· < ·))
    (hmatched : Countdown.Matched heads waiting) :
    (countdown (waiting.map fun w => (w.item, w.waitsFor.length)) heads).1 = (leastOrder waiting).1 ∧
      (countdown (waiting.map fun w => (w.item, w.waitsFor.length)) heads).2.stuck =
        (leastOrder waiting).2.map (·.item) := by
  obtain ⟨horder, hrest⟩ :=
    (Countdown.tracks_start hincreasing).emit waiting.length hmatched hincreasing
  rw [countdown, leastOrder, List.length_map]
  refine ⟨horder, hrest.stuck_eq ?_ ?_ (emitSteps_waits _ _ (Nat.le_refl _))⟩
  · rw [Countdown.items_emit]
    show ((waiting.map fun w => (w.item, w.waitsFor.length)).map (·.1)).Pairwise _
    rw [List.map_map]
    exact hincreasing
  · exact hincreasing.sublist (emitSteps_sublist _ _)

end TensorGraph
