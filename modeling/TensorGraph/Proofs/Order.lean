/-
  Sorted lists, repeated entries and dependency orders.

  Sorting only rearranges a list, and `ascending` lists the members of a list once each.  A list
  without a repeat is one without duplicates.

  `leastOrder` emits items that wait for nothing and strikes them from the others.  What it emits
  and what remains are together the items it was given (`emitSteps_perm`), an emitted item comes
  after all that it waits for (`emitSteps_after`), and what remains waits for something that remains
  (`emitSteps_stuck`).  So what remains is what lies on a cycle or after one
  (`leastOrder_rest_iff`); without a cycle all items are emitted (`leastOrder_complete`), and of all
  orders that put an item after what it waits for this one is the least (`emitSteps_least`).
-/
import TensorGraph.Order.Repeat
import TensorGraph.Order.Sort
import Mathlib.Data.Set.Finite.Basic
import Mathlib.Logic.Relation
import Mathlib.Order.WellFounded

namespace TensorGraph

open Relation

/-! ## Repeats -/

theorem repeatAfter?_eq_none_iff {β : Type} [BEq β] [LawfulBEq β] (entries : List β) :
    ∀ seen : List β, repeatAfter? seen entries = none ↔
      entries.Nodup ∧ ∀ x ∈ entries, x ∉ seen := by
  induction entries with
  | nil => intro seen; simp [repeatAfter?]
  | cons x rest ih =>
    intro seen
    rw [repeatAfter?]
    split
    · rename_i hseen
      have hmem : x ∈ seen := by simpa using hseen
      simp [hmem]
    · rename_i hseen
      have hnew : x ∉ seen := by simpa using hseen
      rw [ih, List.nodup_cons, List.forall_mem_cons]
      constructor
      · rintro ⟨hnodup, hrest⟩
        refine ⟨⟨fun hx => hrest x hx List.mem_cons_self, hnodup⟩, hnew, fun y hy hys => ?_⟩
        exact hrest y hy (List.mem_cons_of_mem _ hys)
      · rintro ⟨⟨hx, hnodup⟩, _, hrest⟩
        refine ⟨hnodup, fun y hy hys => ?_⟩
        rcases List.mem_cons.mp hys with rfl | hys
        · exact hx hy
        · exact hrest y hy hys

theorem firstRepeat?_eq_none_iff {β : Type} [BEq β] [LawfulBEq β] {entries : List β} :
    firstRepeat? entries = none ↔ entries.Nodup := by
  rw [firstRepeat?, repeatAfter?_eq_none_iff]
  simp

/-- In a list with distinct keys, what is found under a key is the entry with this key. -/
theorem find?_key_eq_some_iff {β : Type} {key : β → Nat} {list : List β} (hkeys : (list.map key).Nodup)
    {k : Nat} {x : β} : list.find? (fun y => key y == k) = some x ↔ x ∈ list ∧ key x = k := by
  constructor
  · intro h
    exact ⟨List.mem_of_find?_eq_some h, by simpa using List.find?_some h⟩
  · rintro ⟨hx, rfl⟩
    have hfound : (list.find? fun y => key y == key x).isSome :=
      List.find?_isSome.mpr ⟨x, hx, beq_self_eq_true _⟩
    obtain ⟨y, hy⟩ := Option.isSome_iff_exists.mp hfound
    have hkey : key y = key x := by simpa using List.find?_some hy
    rw [hy, List.inj_on_of_nodup_map hkeys (List.mem_of_find?_eq_some hy) hx hkey]

/-! ## Sorting -/

section Sorting

variable {β : Type}

theorem insertSorted_perm (atMost : β → β → Bool) (x : β) (entries : List β) :
    (insertSorted atMost x entries).Perm (x :: entries) := by
  induction entries with
  | nil => exact List.Perm.refl _
  | cons y rest ih =>
    rw [insertSorted]
    split
    · exact List.Perm.refl _
    · exact (ih.cons y).trans (List.Perm.swap x y rest)

/-- Sorting rearranges the entries. -/
theorem sorted_perm (atMost : β → β → Bool) (entries : List β) :
    (sorted atMost entries).Perm entries := by
  induction entries with
  | nil => exact List.Perm.refl _
  | cons x rest ih =>
    show (insertSorted atMost x (sorted atMost rest)).Perm (x :: rest)
    exact (insertSorted_perm atMost x _).trans (ih.cons x)

@[simp] theorem mem_sorted {atMost : β → β → Bool} {x : β} {entries : List β} :
    x ∈ sorted atMost entries ↔ x ∈ entries :=
  (sorted_perm atMost entries).mem_iff

section Total

variable {atMost : β → β → Bool} (htotal : ∀ x y, atMost x y = true ∨ atMost y x = true)
  (htrans : ∀ x y z, atMost x y = true → atMost y z = true → atMost x z = true)
include htotal htrans

theorem insertSorted_pairwise (x : β) {entries : List β}
    (h : entries.Pairwise fun y z => atMost y z = true) :
    (insertSorted atMost x entries).Pairwise fun y z => atMost y z = true := by
  induction entries with
  | nil => exact List.pairwise_singleton _ _
  | cons y rest ih =>
    obtain ⟨hfirst, hrest⟩ := List.pairwise_cons.mp h
    rw [insertSorted]
    split
    · rename_i hxy
      refine List.pairwise_cons.mpr ⟨fun z hz => ?_, h⟩
      rcases List.mem_cons.mp hz with rfl | hz
      · exact hxy
      · exact htrans x y z hxy (hfirst z hz)
    · rename_i hxy
      refine List.pairwise_cons.mpr ⟨fun z hz => ?_, ih hrest⟩
      rcases List.mem_cons.mp ((insertSorted_perm atMost x rest).mem_iff.mp hz) with rfl | hz
      · exact (htotal z y).resolve_left hxy
      · exact hfirst z hz

/-- Sorting puts the entries in order. -/
theorem sorted_pairwise (entries : List β) :
    (sorted atMost entries).Pairwise fun y z => atMost y z = true := by
  induction entries with
  | nil => exact List.Pairwise.nil
  | cons x rest ih => exact insertSorted_pairwise htotal htrans x ih

end Total

theorem mem_insertNew {x y : Nat} {numbers : List Nat} :
    y ∈ insertNew x numbers ↔ y = x ∨ y ∈ numbers := by
  induction numbers with
  | nil => simp [insertNew]
  | cons z rest ih =>
    rw [insertNew]
    split
    · simp
    · split
      · rename_i hxz
        simp [hxz]
      · simp only [List.mem_cons, ih]
        tauto

/-- `ascending` keeps the members of a list. -/
@[simp] theorem mem_ascending {y : Nat} {numbers : List Nat} :
    y ∈ ascending numbers ↔ y ∈ numbers := by
  induction numbers with
  | nil => exact Iff.rfl
  | cons x rest ih =>
    show y ∈ insertNew x (ascending rest) ↔ _
    rw [mem_insertNew, ih, List.mem_cons]

theorem insertNew_increasing (x : Nat) {numbers : List Nat}
    (h : numbers.Pairwise (· < ·)) : (insertNew x numbers).Pairwise (· < ·) := by
  induction numbers with
  | nil => exact List.pairwise_singleton _ _
  | cons z rest ih =>
    obtain ⟨hz, hrest⟩ := List.pairwise_cons.mp h
    rw [insertNew]
    split
    · rename_i hxz
      refine List.pairwise_cons.mpr ⟨fun y hy => ?_, h⟩
      rcases List.mem_cons.mp hy with rfl | hy
      · exact hxz
      · exact Nat.lt_trans hxz (hz y hy)
    · split
      · exact h
      · refine List.pairwise_cons.mpr ⟨fun y hy => ?_, ih hrest⟩
        rcases mem_insertNew.mp hy with rfl | hy
        · omega
        · exact hz y hy

/-- `ascending` lists in strictly increasing order. -/
theorem ascending_increasing (numbers : List Nat) :
    (ascending numbers).Pairwise (· < ·) := by
  induction numbers with
  | nil => exact List.Pairwise.nil
  | cons x rest ih => exact insertNew_increasing x ih

theorem ascending_nodup (numbers : List Nat) : (ascending numbers).Nodup :=
  (ascending_increasing numbers).imp Nat.ne_of_lt

end Sorting

/-! ## Dependency orders -/

/-- An item and the items it waits for. -/
structure Waiting (κ : Type) where
  item : κ
  waitsFor : List κ
deriving Repr

/-- Strikes an emitted item from the list and from what the others wait for. -/
def strike {κ : Type} [BEq κ] (done : κ) (waiting : List (Waiting κ)) : List (Waiting κ) :=
  (waiting.filter fun w => w.item != done).map fun w =>
    { w with waitsFor := w.waitsFor.filter (· != done) }

/-- At most `steps` items in order, and what remains. -/
def emitSteps {κ : Type} [BEq κ] : Nat → List (Waiting κ) → List κ × List (Waiting κ)
  | 0, waiting => ([], waiting)
  | steps + 1, waiting =>
    match waiting.find? fun w => w.waitsFor.isEmpty with
    | none => ([], waiting)
    | some w =>
      let (order, rest) := emitSteps steps (strike w.item waiting)
      (w.item :: order, rest)

/-- The items that can be ordered, in their least order, and those that cannot.  One step for each
item is enough, since a step strikes the item it emits. -/
def leastOrder {κ : Type} [BEq κ] (waiting : List (Waiting κ)) : List κ × List (Waiting κ) :=
  emitSteps waiting.length waiting

section Emission

variable {κ : Type} [BEq κ]

theorem strike_items (done : κ) (waiting : List (Waiting κ)) :
    (strike done waiting).map (·.item) = (waiting.map (·.item)).filter (· != done) := by
  simp only [strike, List.map_map, List.filter_map]
  rfl

theorem strike_nodup {done : κ} {waiting : List (Waiting κ)}
    (h : (waiting.map (·.item)).Nodup) : ((strike done waiting).map (·.item)).Nodup := by
  rw [strike_items]
  exact h.filter _

/-- What remains is listed as it was given. -/
theorem emitSteps_sublist (steps : Nat) (waiting : List (Waiting κ)) :
    ((emitSteps steps waiting).2.map (·.item)).Sublist (waiting.map (·.item)) := by
  induction steps generalizing waiting with
  | zero => exact List.Sublist.refl _
  | succ steps ih =>
    rw [emitSteps]
    split
    · exact List.Sublist.refl _
    · rename_i w _
      refine (ih (strike w.item waiting)).trans ?_
      rw [strike_items]
      exact List.filter_sublist

/-- One item is among those that another waits for. -/
def Awaited (waiting : List (Waiting κ)) (d x : κ) : Prop :=
  ∃ w ∈ waiting, w.item = x ∧ d ∈ w.waitsFor

variable [LawfulBEq κ]

/-- An item is still waiting after a strike if it was before and is not the one that was struck;
it then waits for the same items but that one. -/
theorem mem_strike {done : κ} {waiting : List (Waiting κ)} {w : Waiting κ} :
    w ∈ strike done waiting ↔
      ∃ v ∈ waiting, v.item ≠ done ∧ w = ⟨v.item, v.waitsFor.filter (· != done)⟩ := by
  simp only [strike, List.mem_map, List.mem_filter, bne_iff_ne, ne_eq]
  constructor
  · rintro ⟨v, ⟨hv, hne⟩, rfl⟩
    exact ⟨v, hv, hne, rfl⟩
  · rintro ⟨v, hv, hne, rfl⟩
    exact ⟨v, ⟨hv, hne⟩, rfl⟩

/-- A strike takes an item off the list. -/
theorem length_strike_lt {waiting : List (Waiting κ)} {w : Waiting κ} (hw : w ∈ waiting) :
    (strike w.item waiting).length < waiting.length := by
  rw [strike, List.length_map, List.length_filter_lt_length_iff_exists]
  exact ⟨w, hw, by simp⟩

/-- The emitted items and those that remain are the given ones. -/
theorem emitSteps_perm : ∀ (steps : Nat) (waiting : List (Waiting κ)),
    (waiting.map (·.item)).Nodup →
    ((emitSteps steps waiting).1 ++ (emitSteps steps waiting).2.map (·.item)).Perm
      (waiting.map (·.item)) := by
  intro steps
  induction steps with
  | zero => intro waiting _; exact List.Perm.refl _
  | succ steps ih =>
    intro waiting hnodup
    rw [emitSteps]
    split
    · exact List.Perm.refl _
    · rename_i w hw
      have hmem : w.item ∈ waiting.map (·.item) :=
        List.mem_map.mpr ⟨w, List.mem_of_find?_eq_some hw, rfl⟩
      have hrest := ih (strike w.item waiting) (strike_nodup hnodup)
      rw [strike_items] at hrest
      have hsplit : (w.item :: (waiting.map (·.item)).filter (· != w.item)).Perm
          (waiting.map (·.item)) := by
        rw [← hnodup.erase_eq_filter]
        exact (List.perm_cons_erase hmem).symm
      exact (hrest.cons w.item).trans hsplit

/-- An emitted item comes after all that it waits for. -/
theorem emitSteps_after : ∀ (steps : Nat) (waiting : List (Waiting κ)),
    (waiting.map (·.item)).Nodup → ∀ w ∈ waiting, w.item ∈ (emitSteps steps waiting).1 →
    ∀ d ∈ w.waitsFor, d ∈ (emitSteps steps waiting).1 ∧
      (emitSteps steps waiting).1.idxOf d < (emitSteps steps waiting).1.idxOf w.item := by
  intro steps
  induction steps with
  | zero => intro waiting _ w _ hw; exact absurd hw List.not_mem_nil
  | succ steps ih =>
    intro waiting hnodup w hw hitem d hd
    rw [emitSteps] at hitem ⊢
    split at hitem
    · exact absurd hitem List.not_mem_nil
    · rename_i v hv
      simp only at hitem ⊢
      have hvmem := List.mem_of_find?_eq_some hv
      have hvfree : v.waitsFor = [] := by simpa using List.find?_some hv
      by_cases hsame : w.item = v.item
      · -- the emitted item waits for nothing
        have hwv : w = v := List.inj_on_of_nodup_map hnodup hw hvmem hsame
        rw [hwv, hvfree] at hd
        exact absurd hd List.not_mem_nil
      · have hstruck : (⟨w.item, w.waitsFor.filter (· != v.item)⟩ : Waiting κ)
            ∈ strike v.item waiting := mem_strike.mpr ⟨w, hw, hsame, rfl⟩
        have hlater : w.item ∈ (emitSteps steps (strike v.item waiting)).1 :=
          (List.mem_cons.mp hitem).resolve_left hsame
        rw [List.idxOf_cons_ne _ (Ne.symm hsame)]
        by_cases hdv : d = v.item
        · subst hdv
          rw [List.idxOf_cons_self]
          exact ⟨List.mem_cons_self, Nat.succ_pos _⟩
        · have hrest := ih _ (strike_nodup hnodup) _ hstruck hlater d
            (List.mem_filter.mpr ⟨hd, by simpa using hdv⟩)
          rw [List.idxOf_cons_ne _ (Ne.symm hdv)]
          exact ⟨List.mem_cons_of_mem _ hrest.1, Nat.succ_lt_succ hrest.2⟩

/-- After enough steps, an item that remains waits for an item that was not emitted. -/
theorem emitSteps_stuck : ∀ (steps : Nat) (waiting : List (Waiting κ)),
    (waiting.map (·.item)).Nodup → waiting.length ≤ steps →
    ∀ x ∈ (emitSteps steps waiting).2, ∃ w ∈ waiting, w.item = x.item ∧
      ∃ d ∈ w.waitsFor, d ∉ (emitSteps steps waiting).1 := by
  intro steps
  induction steps with
  | zero =>
    intro waiting _ hlen x hx
    obtain rfl : waiting = [] := List.length_eq_zero_iff.mp (by omega)
    exact absurd hx List.not_mem_nil
  | succ steps ih =>
    intro waiting hnodup hlen x hx
    rw [emitSteps] at hx ⊢
    split at hx
    · rename_i hnone
      have hwaits : ¬ x.waitsFor.isEmpty = true := List.find?_eq_none.mp hnone x hx
      obtain ⟨d, hd⟩ := List.exists_mem_of_ne_nil x.waitsFor (by simpa using hwaits)
      exact ⟨x, hx, rfl, d, hd, List.not_mem_nil⟩
    · rename_i v hv
      simp only at hx ⊢
      have hshorter := length_strike_lt (List.mem_of_find?_eq_some hv)
      obtain ⟨w, hw, hitem, d, hd, hout⟩ := ih _ (strike_nodup hnodup) (by omega) x hx
      obtain ⟨u, hu, hne, rfl⟩ := mem_strike.mp hw
      obtain ⟨hdu, hdv⟩ := List.mem_filter.mp hd
      refine ⟨u, hu, hitem, d, hdu, fun hin => ?_⟩
      rcases List.mem_cons.mp hin with rfl | hin
      · simp at hdv
      · exact hout hin

/-- What is on a cycle, or after one, is never emitted: an emitted item has all that it waits for in
front of it. -/
theorem not_emitted_after_cycle {waiting : List (Waiting κ)} (steps : Nat)
    (hnodup : (waiting.map (·.item)).Nodup) {c x : κ} (hcycle : TransGen (Awaited waiting) c c)
    (hpath : ReflTransGen (Awaited waiting) c x) : x ∉ (emitSteps steps waiting).1 := by
  have hstep : ∀ {d x}, Awaited waiting d x → x ∈ (emitSteps steps waiting).1 →
      d ∈ (emitSteps steps waiting).1 ∧
        (emitSteps steps waiting).1.idxOf d < (emitSteps steps waiting).1.idxOf x := by
    rintro d x ⟨w, hw, rfl, hd⟩ hx
    exact emitSteps_after steps waiting hnodup w hw hx d hd
  have hback : ∀ {d x}, TransGen (Awaited waiting) d x → x ∈ (emitSteps steps waiting).1 →
      d ∈ (emitSteps steps waiting).1 ∧
        (emitSteps steps waiting).1.idxOf d < (emitSteps steps waiting).1.idxOf x := by
    intro d x h hx
    induction h using TransGen.head_induction_on with
    | single h => exact hstep h hx
    | head h _ ih =>
      obtain ⟨hmem, hlt⟩ := ih
      obtain ⟨hmem', hlt'⟩ := hstep h hmem
      exact ⟨hmem', by omega⟩
  intro hx
  have hc : c ∈ (emitSteps steps waiting).1 := by
    rcases reflTransGen_iff_eq_or_transGen.mp hpath with rfl | hpath
    · exact hx
    · exact (hback hpath hx).1
  have hlt := (hback hcycle hc).2
  omega

/-- What remains is on a cycle or after one: going back from it to what it waits for never ends, and
there are finitely many items. -/
theorem rest_after_cycle {waiting : List (Waiting κ)} (hnodup : (waiting.map (·.item)).Nodup)
    (hclosed : ∀ w ∈ waiting, ∀ d ∈ w.waitsFor, d ∈ waiting.map (·.item)) {x : κ}
    (hx : x ∈ (leastOrder waiting).2.map (·.item)) :
    ∃ c, TransGen (Awaited waiting) c c ∧ ReflTransGen (Awaited waiting) c x := by
  by_contra hnone
  -- the items that remain and are not after a cycle
  let Left := { x : κ // x ∈ (leastOrder waiting).2.map (·.item) ∧
    ¬ ∃ c, TransGen (Awaited waiting) c c ∧ ReflTransGen (Awaited waiting) c x }
  have hfinite : Finite Left :=
    (List.finite_toSet ((leastOrder waiting).2.map fun w : Waiting κ => w.item)).subset
      fun _ h => h.1
  have : IsTrans Left fun x y => TransGen (Awaited waiting) x.1 y.1 :=
    ⟨fun _ _ _ h₁ h₂ => h₁.trans h₂⟩
  have : Std.Irrefl fun x y : Left => TransGen (Awaited waiting) x.1 y.1 :=
    ⟨fun x h => x.2.2 ⟨x.1, h, .refl⟩⟩
  have hwf : WellFounded fun x y : Left => TransGen (Awaited waiting) x.1 y.1 :=
    Finite.wellFounded_of_trans_of_irrefl _
  obtain ⟨⟨least, hleft, hfree⟩, -, hleast⟩ := hwf.has_min Set.univ ⟨⟨x, hx, hnone⟩, trivial⟩
  obtain ⟨v, hv, rfl⟩ := List.mem_map.mp hleft
  obtain ⟨w, hw, hitem, d, hd, hout⟩ :=
    emitSteps_stuck waiting.length waiting hnodup (Nat.le_refl _) v hv
  have hstep : Awaited waiting d v.item := ⟨w, hw, hitem, hd⟩
  have hdleft : d ∈ (leastOrder waiting).2.map (·.item) := by
    have hperm := emitSteps_perm waiting.length waiting hnodup
    rcases List.mem_append.mp (hperm.mem_iff.mpr (hclosed w hw d hd)) with hin | hin
    · exact absurd hin hout
    · exact hin
  have hdfree : ¬ ∃ c, TransGen (Awaited waiting) c c ∧ ReflTransGen (Awaited waiting) c d :=
    fun ⟨c, hcycle, hpath⟩ => hfree ⟨c, hcycle, hpath.tail hstep⟩
  exact hleast ⟨d, hdleft, hdfree⟩ trivial (.single hstep)

/-- The items that cannot be ordered are those on a cycle and those after one. -/
theorem leastOrder_rest_iff {waiting : List (Waiting κ)} (hnodup : (waiting.map (·.item)).Nodup)
    (hclosed : ∀ w ∈ waiting, ∀ d ∈ w.waitsFor, d ∈ waiting.map (·.item)) {x : κ}
    (hx : x ∈ waiting.map (·.item)) :
    x ∈ (leastOrder waiting).2.map (·.item) ↔
      ∃ c, TransGen (Awaited waiting) c c ∧ ReflTransGen (Awaited waiting) c x := by
  refine ⟨rest_after_cycle hnodup hclosed, fun ⟨c, hcycle, hpath⟩ => ?_⟩
  have hperm := emitSteps_perm waiting.length waiting hnodup
  have hout := not_emitted_after_cycle waiting.length hnodup hcycle hpath
  exact (List.mem_append.mp (hperm.mem_iff.mpr hx)).resolve_left hout

/-- Items that wait for each other without a cycle are all emitted. -/
theorem leastOrder_complete {waiting : List (Waiting κ)} (hnodup : (waiting.map (·.item)).Nodup)
    (hclosed : ∀ w ∈ waiting, ∀ d ∈ w.waitsFor, d ∈ waiting.map (·.item))
    {r : κ → κ → Prop} (hr : ∀ w ∈ waiting, ∀ d ∈ w.waitsFor, r d w.item)
    (hacyclic : ∀ x, ¬ TransGen r x x) :
    (leastOrder waiting).2 = [] := by
  refine List.eq_nil_iff_forall_not_mem.mpr fun x hx => ?_
  obtain ⟨c, hcycle, -⟩ := rest_after_cycle hnodup hclosed (List.mem_map_of_mem hx)
  refine hacyclic c (TransGen.mono (fun d x h => ?_) _ _ hcycle)
  obtain ⟨w, hw, rfl, hd⟩ := h
  exact hr w hw d hd

/-- Without a cycle the order is a rearrangement of the items. -/
theorem leastOrder_perm {waiting : List (Waiting κ)} (hnodup : (waiting.map (·.item)).Nodup)
    (hrest : (leastOrder waiting).2 = []) :
    (leastOrder waiting).1.Perm (waiting.map (·.item)) := by
  have hperm := emitSteps_perm waiting.length waiting hnodup
  rw [leastOrder] at hrest ⊢
  rwa [hrest, List.map_nil, List.append_nil] at hperm

/-- A list of all items in which each comes after those that it waits for. -/
structure Follows (waiting : List (Waiting κ)) (order : List κ) : Prop where
  items : order.Perm (waiting.map (·.item))
  after : ∀ w ∈ waiting, ∀ d ∈ w.waitsFor, order.idxOf d < order.idxOf w.item

theorem leastOrder_follows {waiting : List (Waiting κ)} (hnodup : (waiting.map (·.item)).Nodup)
    (hrest : (leastOrder waiting).2 = []) : Follows waiting (leastOrder waiting).1 where
  items := leastOrder_perm hnodup hrest
  after := by
    intro w hw d hd
    have hmem : w.item ∈ (leastOrder waiting).1 :=
      (leastOrder_perm hnodup hrest).mem_iff.mpr (List.mem_map.mpr ⟨w, hw, rfl⟩)
    exact (emitSteps_after waiting.length waiting hnodup w hw hmem d hd).2

/-- Without its first item, an order follows what is left when that item is struck. -/
theorem Follows.tail {waiting : List (Waiting κ)} {x : κ} {order : List κ}
    (hnodup : (waiting.map (·.item)).Nodup) (h : Follows waiting (x :: order)) :
    Follows (strike x waiting) order where
  items := by
    rw [strike_items, ← hnodup.erase_eq_filter]
    exact (List.cons_perm_iff_perm_erase.mp h.items).2
  after := by
    intro u hu d hd
    obtain ⟨w, hw, hne, rfl⟩ := mem_strike.mp hu
    obtain ⟨hd, hdx⟩ := List.mem_filter.mp hd
    have hlt := h.after w hw d hd
    rw [List.idxOf_cons_ne _ (Ne.symm hne), List.idxOf_cons_ne _ (Ne.symm (bne_iff_ne.mp hdx))] at hlt
    show order.idxOf d < order.idxOf w.item
    omega

end Emission

/-- The first item of an order waits for nothing, so the item that is emitted in its place is no
greater.  If it is the same, the argument goes on with the rest. -/
theorem emitSteps_least (steps : Nat) (waiting : List (Waiting Nat)) (order : List Nat)
    (hincreasing : (waiting.map (·.item)).Pairwise (· < ·)) (hsteps : waiting.length ≤ steps)
    (h : Follows waiting order) :
    (emitSteps steps waiting).1 = order ∨
      List.Lex (· < ·) (emitSteps steps waiting).1 order := by
  induction steps generalizing waiting order with
  | zero =>
    obtain rfl : waiting = [] := List.length_eq_zero_iff.mp (by omega)
    exact .inl h.items.eq_nil.symm
  | succ steps ih =>
    cases order with
    | nil =>
      obtain rfl : waiting = [] := List.map_eq_nil_iff.mp h.items.symm.eq_nil
      exact .inl rfl
    | cons x order =>
      have hnodup : (waiting.map (·.item)).Nodup := hincreasing.imp Nat.ne_of_lt
      obtain ⟨v, hv, rfl⟩ := List.mem_map.mp (h.items.mem_iff.mp List.mem_cons_self)
      have hready : v.waitsFor.isEmpty = true := by
        refine List.isEmpty_iff.mpr (List.eq_nil_iff_forall_not_mem.mpr fun d hd => ?_)
        have hlt := h.after v hv d hd
        rw [List.idxOf_cons_self] at hlt
        omega
      rw [emitSteps]
      split
      · rename_i hnone
        exact absurd hready (List.find?_eq_none.mp hnone v hv)
      · rename_i w hw
        -- `w` is the first item that waits for nothing, and items increase
        have hle : w.item ≤ v.item := by
          obtain ⟨-, before, behind, rfl, hbefore⟩ := List.find?_eq_some_iff_append.mp hw
          rcases List.mem_append.mp hv with hv | hv
          · have := hbefore v hv
            rw [hready] at this
            cases this
          · rcases List.mem_cons.mp hv with rfl | hv
            · exact Nat.le_refl _
            · rw [List.map_append, List.map_cons] at hincreasing
              have hbehind := (List.pairwise_cons.mp (List.pairwise_append.mp hincreasing).2.1).1
              exact Nat.le_of_lt (hbehind v.item (List.mem_map.mpr ⟨v, hv, rfl⟩))
        rcases Nat.lt_or_eq_of_le hle with hlt | heq
        · exact .inr (.rel hlt)
        · have hshorter := length_strike_lt (List.mem_of_find?_eq_some hw)
          rw [← heq] at h
          have hrest : ((strike w.item waiting).map (·.item)).Pairwise (· < ·) := by
            rw [strike_items]
            exact hincreasing.sublist List.filter_sublist
          simp only [← heq]
          rcases ih (strike w.item waiting) order hrest (by omega) (h.tail hnodup) with hsame | hless
          · exact .inl (congrArg (w.item :: ·) hsame)
          · exact .inr (.cons hless)

end TensorGraph
