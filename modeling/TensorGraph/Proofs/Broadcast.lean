/-
  Broadcasting reads the trailing coordinates.

  A shape broadcasts to another one if, from the last axis on, each of its dimensions is one or that
  of the other shape.  An index of the larger shape is then projected to the smaller one: its
  trailing coordinates, zero on the axes of dimension one.  Projecting in two steps is projecting at
  once (`project_project`).

  `broadcastTo` walks the indices with a table of strides, and the strides are such that it reads
  each index at its projection (`broadcastTo_eq_some`).

  Between the two stands the arithmetic on words.  Counting multiplies from the left and gives up at
  the first product that is no word (`HeadsFit`), strides are multiplied up from the right
  (`TailsFit`), and the padding with ones in front changes neither (`tailsFit_padTo`,
  `position_padTo`).
-/
import TensorGraph.Proofs.Inference
import TensorGraph.Proofs.Odometer

namespace TensorGraph

/-! ## Shapes that broadcast to a shape -/

namespace Shape

/-- The dimension is one or the other dimension. -/
def Stretches (d e : Nat) : Prop :=
  d = e ∨ d = 1

/-- A dimension stretches to another if broadcasting gives the other. -/
theorem broadcastDim?_eq_right_iff {d e : Nat} : broadcastDim? d e = some e ↔ Stretches d e := by
  grind [broadcastDim?, Stretches]

theorem broadcastInner?_cons_eq_right_iff {d e : Nat} {l r : List Nat} :
    broadcastInner? (d :: l) (e :: r) = some (e :: r) ↔
      Stretches d e ∧ broadcastInner? l r = some r := by
  rw [broadcastInner?, ← broadcastDim?_eq_right_iff]
  cases broadcastDim? d e <;> cases broadcastInner? l r <;> simp

/-- Dimensions stretch to others one by one; the others may have more. -/
theorem broadcastInner?_eq_right_iff {l r : List Nat} :
    broadcastInner? l r = some r ↔ ∃ inner outer, r = inner ++ outer ∧ l.Forall₂ Stretches inner := by
  induction l generalizing r with
  | nil =>
    refine iff_of_true rfl ⟨[], r, rfl, List.Forall₂.nil⟩
  | cons d l ih =>
    cases r with
    | nil =>
      refine iff_of_false (by simp [broadcastInner?]) ?_
      rintro ⟨inner, outer, hr, h⟩
      obtain ⟨rfl, -⟩ := List.append_eq_nil_iff.mp hr.symm
      cases h
    | cons e r =>
      rw [broadcastInner?_cons_eq_right_iff, ih]
      constructor
      · rintro ⟨hd, inner, outer, rfl, h⟩
        exact ⟨e :: inner, outer, rfl, .cons hd h⟩
      · rintro ⟨inner, outer, hr, h⟩
        cases h with
        | cons hd h =>
          cases hr
          exact ⟨hd, _, outer, rfl, h⟩

/-- A shape broadcasts to those that have more outer axes and stretch its inner ones. -/
theorem broadcast?_eq_right_iff {s t : Shape} :
    s.broadcast? t = some t ↔ ∃ outer inner, t = outer ++ inner ∧ s.Forall₂ Stretches inner := by
  have hreverse : s.broadcast? t = some t ↔
      broadcastInner? s.reverse t.reverse = some t.reverse := by
    rw [broadcast?, Option.map_eq_some_iff]
    constructor
    · rintro ⟨r, hr, rfl⟩
      rw [hr, List.reverse_reverse]
    · exact fun h => ⟨_, h, List.reverse_reverse t⟩
  rw [hreverse, broadcastInner?_eq_right_iff]
  constructor
  · rintro ⟨inner, outer, ht, h⟩
    refine ⟨outer.reverse, inner.reverse, ?_, ?_⟩
    · rw [← List.reverse_append, ← ht, List.reverse_reverse]
    · rwa [← List.forall₂_reverse_iff, List.reverse_reverse]
  · rintro ⟨outer, inner, rfl, h⟩
    exact ⟨inner.reverse, outer.reverse, List.reverse_append, List.forall₂_reverse_iff.mpr h⟩

theorem forall₂_stretches_trans {s t u : List Nat} (hst : s.Forall₂ Stretches t)
    (htu : t.Forall₂ Stretches u) : s.Forall₂ Stretches u := by
  induction hst generalizing u with
  | nil => exact htu
  | cons hd _ ih =>
    cases htu with
    | cons he htu =>
      refine .cons ?_ (ih htu)
      unfold Stretches at *
      omega

/-- To stretch is transitive. -/
theorem broadcast?_trans {s t u : Shape} (hst : s.broadcast? t = some t)
    (htu : t.broadcast? u = some u) : s.broadcast? u = some u := by
  obtain ⟨outer, inner, rfl, hinner⟩ := broadcast?_eq_right_iff.mp hst
  obtain ⟨outer', inner', rfl, hinner'⟩ := broadcast?_eq_right_iff.mp htu
  have hdrop := List.forall₂_drop outer.length hinner'
  rw [List.drop_left] at hdrop
  refine broadcast?_eq_right_iff.mpr ⟨outer' ++ inner'.take outer.length,
    inner'.drop outer.length, ?_, forall₂_stretches_trans hinner hdrop⟩
  rw [List.append_assoc, List.take_append_drop]

/-! ## Projecting an index -/

/-- The coordinate on an axis, zero if the axis has dimension one. -/
def coordinate (d i : Nat) : Nat :=
  if d = 1 then 0 else i

/-- The index at which a tensor of shape `s` is read for an index of a larger shape. -/
def project (s : Shape) (index : List Nat) : List Nat :=
  List.zipWith coordinate s (index.drop (index.length - s.length))

/-- Only the last coordinates of an index matter. -/
theorem project_append {s : Shape} {first rest : List Nat} (h : rest.length = s.length) :
    s.project (first ++ rest) = List.zipWith coordinate s rest := by
  unfold project
  rw [List.length_append, h, Nat.add_sub_cancel, List.drop_left]

/-- An index of a larger shape ends in the coordinates of the inner axes. -/
theorem split_index {outer inner : Shape} {index : List Nat}
    (h : Contains (outer ++ inner) index) :
    ∃ first rest, index = first ++ rest ∧ rest.length = inner.length ∧ inner.Contains rest := by
  have hlength : (index.take outer.length).length = outer.length := by
    rw [List.length_take, h.1, List.length_append]
    omega
  rw [← List.take_append_drop outer.length index, contains_append hlength] at h
  exact ⟨_, _, (List.take_append_drop outer.length index).symm, h.2.1, h.2⟩

/-- Coordinates within the larger dimensions are read within the smaller ones. -/
theorem contains_coordinates {s inner : Shape} (h : s.Forall₂ Stretches inner) {rest : List Nat}
    (hrest : inner.Contains rest) : s.Contains (List.zipWith coordinate s rest) := by
  induction h generalizing rest with
  | nil =>
    rw [contains_nil.mp hrest]
    exact contains_nil.mpr rfl
  | @cons d e s inner hd h ih =>
    obtain ⟨i, rest, rfl, hi, hrest⟩ := contains_cons.mp hrest
    refine contains_cons_cons.mpr ⟨?_, ih hrest⟩
    unfold coordinate
    rcases hd with rfl | rfl
    · split <;> omega
    · simp

/-- The element that an index reads is there. -/
theorem contains_project {s t : Shape} (h : s.broadcast? t = some t) {index : List Nat}
    (hindex : t.Contains index) : s.Contains (s.project index) := by
  obtain ⟨outer, inner, rfl, hinner⟩ := broadcast?_eq_right_iff.mp h
  obtain ⟨first, rest, rfl, hlength, hrest⟩ := split_index hindex
  rw [project_append (hlength.trans hinner.length_eq.symm)]
  exact contains_coordinates hinner hrest

/-- Axes of dimension one below are of dimension one, or are set to zero anyway. -/
theorem coordinates_coordinates {s inner : Shape} (h : s.Forall₂ Stretches inner)
    {rest : List Nat} :
    List.zipWith coordinate s (List.zipWith coordinate inner rest) =
      List.zipWith coordinate s rest := by
  induction h generalizing rest with
  | nil => rfl
  | @cons d e s inner hd h ih =>
    cases rest with
    | nil => rfl
    | cons i rest =>
      rw [List.zipWith_cons_cons, List.zipWith_cons_cons, List.zipWith_cons_cons, ih]
      congr 1
      unfold coordinate
      rcases hd with rfl | rfl
      · split <;> rfl
      · simp

/-- Projecting in two steps is projecting at once. -/
theorem project_project {s t u : Shape} (hst : s.broadcast? t = some t)
    (htu : t.broadcast? u = some u) {index : List Nat} (hindex : u.Contains index) :
    s.project (t.project index) = s.project index := by
  obtain ⟨outer, inner, rfl, hinner⟩ := broadcast?_eq_right_iff.mp hst
  obtain ⟨outer', inner', rfl, hinner'⟩ := broadcast?_eq_right_iff.mp htu
  obtain ⟨first, rest, rfl, hlength, hrest⟩ := split_index hindex
  have hrank : rest.length = outer.length + s.length := by
    rw [hlength, ← hinner'.length_eq, List.length_append, hinner.length_eq]
  -- the coordinates of `t` are those of its outer axes and those that `s` is read at
  obtain ⟨front, back, rfl, hfront, hback⟩ : ∃ front back, rest = front ++ back ∧
      front.length = outer.length ∧ back.length = s.length := by
    refine ⟨rest.take outer.length, rest.drop outer.length, (List.take_append_drop _ _).symm, ?_, ?_⟩
    · rw [List.length_take]
      omega
    · rw [List.length_drop]
      omega
  have hmiddle : (List.zipWith coordinate inner back).length = s.length := by
    rw [List.length_zipWith, hback, ← hinner.length_eq, Nat.min_self]
  rw [project_append (hlength.trans hinner'.length_eq.symm),
    List.zipWith_append hfront.symm, project_append hmiddle, ← List.append_assoc,
    project_append hback]
  exact coordinates_coordinates hinner

/-! ## Counting -/

/-- The products of the initial parts are words. -/
def HeadsFit (s : Shape) : Prop :=
  ∀ k, (s.take k).prod < wordLimit

/-- A product of words is computed exactly if no product on the way is too large. -/
theorem foldlM_checkedMul_eq_ok_iff {s : Shape} {n total : Nat} (hn : n < wordLimit) :
    s.foldlM checkedMul n = .ok total ↔
      (∀ k, n * (s.take k).prod < wordLimit) ∧ total = n * s.prod := by
  constructor
  · intro h
    induction s generalizing n with
    | nil =>
      cases h
      simp [hn]
    | cons d s ih =>
      rw [List.foldlM_cons, except_bind_eq_ok] at h
      obtain ⟨m, hm, h⟩ := h
      obtain ⟨hlt, rfl⟩ := Graph.checkedMul_eq_ok.mp hm
      obtain ⟨hparts, rfl⟩ := ih hlt h
      refine ⟨fun k => ?_, by rw [List.prod_cons, Nat.mul_assoc]⟩
      cases k with
      | zero => simpa using hn
      | succ k => simpa [Nat.mul_assoc] using hparts k
  · rintro ⟨hparts, rfl⟩
    exact foldlM_checkedMul hparts

/-- Counting goes through just if no partial product is too large, and it gives the product then. -/
theorem count_eq_ok_iff {s : Shape} {total : Nat} :
    s.count = .ok total ↔ s.HeadsFit ∧ total = s.prod := by
  rw [count, foldlM_checkedMul_eq_ok_iff (by decide), HeadsFit]
  simp only [Nat.one_mul]

/-- What is counted is the product of the dimensions. -/
theorem count_eq_ok {s : Shape} {total : Nat} (h : s.count = .ok total) : total = s.prod :=
  (count_eq_ok_iff.mp h).2

/-- Counting succeeds if the products of first dimensions are words. -/
theorem HeadsFit.count_eq {s : Shape} (h : s.HeadsFit) : s.count = .ok s.prod :=
  count_eq_ok_iff.mpr ⟨h, rfl⟩

theorem HeadsFit.prod_lt {s : Shape} (h : s.HeadsFit) : s.prod < wordLimit := by
  have hall := h s.length
  rwa [List.take_length] at hall

instance (s : Shape) : Decidable s.HeadsFit :=
  decidable_of_iff (s.count = .ok s.prod) (by rw [count_eq_ok_iff, and_iff_left rfl])

/-! ## Strides -/

/-- With row-major strides that are zero on unit axes, the offset of an index is the place of its
coordinates. -/
theorem strides_eq_ok {s : Shape} {strides : List Nat} {total : Nat}
    (h : s.strides = .ok (strides, total)) :
    strides.length = s.length ∧ total = s.prod ∧
      ∀ index, index.length = s.length →
        offset index strides = s.position (List.zipWith coordinate s index) := by
  induction s generalizing strides total with
  | nil =>
    cases h
    refine ⟨rfl, rfl, fun index _ => ?_⟩
    cases index <;> rfl
  | cons d s ih =>
    rw [Shape.strides] at h
    obtain ⟨⟨inner, stride⟩, hinner, h⟩ := except_bind_eq_ok.mp h
    obtain ⟨product, hproduct, h⟩ := except_bind_eq_ok.mp h
    cases h
    obtain ⟨hlength, rfl, hoffset⟩ := ih hinner
    obtain ⟨-, rfl⟩ := Graph.checkedMul_eq_ok.mp hproduct
    refine ⟨congrArg (· + 1) hlength, by rw [List.prod_cons, Nat.mul_comm], ?_⟩
    intro index hindex
    cases index with
    | nil => cases hindex
    | cons i index =>
      rw [offset, hoffset index (Nat.succ.inj hindex), List.zipWith_cons_cons, position, coordinate]
      split <;> simp

/-- The products of the trailing parts are words. -/
def TailsFit (s : Shape) : Prop :=
  ∀ k, (s.drop k).prod < wordLimit

/-- The products of last dimensions, one dimension more. -/
theorem tailsFit_cons {d : Nat} {s : Shape} :
    TailsFit (d :: s) ↔ d * s.prod < wordLimit ∧ s.TailsFit := by
  constructor
  · intro h
    exact ⟨by simpa using h 0, fun k => h (k + 1)⟩
  · rintro ⟨hall, htails⟩ k
    cases k with
    | zero => simpa using hall
    | succ k => exact htails k

/-- Where the trailing products are words, there are strides. -/
theorem strides_of_tailsFit {s : Shape} (h : s.TailsFit) :
    ∃ strides, s.strides = .ok (strides, s.prod) := by
  induction s with
  | nil => exact ⟨[], rfl⟩
  | cons d s ih =>
    obtain ⟨hall, htails⟩ := tailsFit_cons.mp h
    obtain ⟨inner, hinner⟩ := ih htails
    rw [Nat.mul_comm] at hall
    refine ⟨(if d = 1 then 0 else s.prod) :: inner, ?_⟩
    rw [Shape.strides, hinner, except_ok_bind]
    show checkedMul s.prod d >>= _ = _
    rw [checkedMul_of_lt hall, except_ok_bind, List.prod_cons, Nat.mul_comm d]
    rfl

/-- Otherwise the first trailing product that is no word stops the computation. -/
theorem strides_of_not_tailsFit {s : Shape} (h : ¬ s.TailsFit) :
    s.strides = .error (.overflow .multiply) := by
  induction s with
  | nil => exact absurd (fun k => by rw [List.drop_nil]; decide) h
  | cons d s ih =>
    rw [Shape.strides]
    by_cases htails : TailsFit s
    · obtain ⟨inner, hinner⟩ := strides_of_tailsFit htails
      have hall : ¬ s.prod * d < wordLimit := fun hall =>
        h (tailsFit_cons.mpr ⟨by rwa [Nat.mul_comm], htails⟩)
      rw [hinner, except_ok_bind]
      show checkedMul s.prod d >>= _ = _
      rw [checkedMul, if_neg hall]
      rfl
    · rw [ih htails]
      rfl

/-- Strides are computed only if the products of last dimensions are words. -/
theorem tailsFit_of_strides {s : Shape} {strides : List Nat × Nat} (h : s.strides = .ok strides) :
    s.TailsFit := by
  by_contra hno
  cases (strides_of_not_tailsFit hno).symm.trans h

/-- Missing outer axes do not change the trailing products. -/
theorem tailsFit_padTo {s : Shape} {rank : Nat} : TailsFit (s.padTo rank) ↔ s.TailsFit := by
  unfold padTo
  induction rank - s.length with
  | zero => exact Iff.rfl
  | succ n ih =>
    rw [List.replicate_succ, List.cons_append, tailsFit_cons, ih, Nat.one_mul]
    refine and_iff_right_of_imp fun h => ?_
    have hall : (List.replicate n 1 ++ s).prod = s.prod := by simp
    rw [hall]
    exact h 0

/-- Missing outer axes add nothing to the place of an index. -/
theorem position_padTo {s : Shape} {rank : Nat} (hrank : s.length ≤ rank) {index : List Nat}
    (hindex : index.length = rank) :
    (s.padTo rank).position (List.zipWith coordinate (s.padTo rank) index) =
      s.position (s.project index) := by
  unfold padTo
  obtain ⟨first, rest, rfl, hfirst, hrest⟩ : ∃ first rest, index = first ++ rest ∧
      first.length = rank - s.length ∧ rest.length = s.length := by
    refine ⟨index.take (rank - s.length), index.drop (rank - s.length),
      (List.take_append_drop _ _).symm, ?_, ?_⟩
    · rw [List.length_take]
      omega
    · rw [List.length_drop]
      omega
  rw [project_append hrest, ← hfirst]
  clear hindex hfirst hrank
  induction first with
  | nil => rfl
  | cons i first ih =>
    rw [List.length_cons, List.replicate_succ, List.cons_append, List.cons_append,
      List.zipWith_cons_cons, position, ih]
    simp [coordinate]

end Shape

/-! ## Partial results -/

section Partial

variable {β γ : Type} {x : OptionT (Except Error) β} {f : β → OptionT (Except Error) γ} {c : γ}

/-- A computation that may have no result has one if both parts do. -/
theorem optionT_bind_eq_some :
    (x >>= f).run = .ok (some c) ↔ ∃ b, x.run = .ok (some b) ∧ (f b).run = .ok (some c) := by
  rw [OptionT.run_bind, Option.elimM, except_bind_eq_ok]
  constructor
  · rintro ⟨found, hfound, h⟩
    cases found with
    | none => cases h
    | some b => exact ⟨b, hfound, h⟩
  · rintro ⟨b, hb, h⟩
    exact ⟨some b, hb, h⟩

theorem optionT_lift_eq_some {e : Except Error β} {b : β} :
    (liftM e : OptionT (Except Error) β).run = .ok (some b) ↔ e = .ok b := by
  cases e <;> simp [liftM, monadLift, MonadLift.monadLift, OptionT.lift, OptionT.run, OptionT.mk,
    Functor.map, Except.map]

/-- Past a guard the computation goes on. -/
theorem optionT_guard_eq_some {p : Prop} [Decidable p] {k : Unit → OptionT (Except Error) γ} :
    (if p then (failure : OptionT (Except Error) Unit) >>= k else k ()).run = .ok (some c) ↔
      ¬ p ∧ (k ()).run = .ok (some c) := by
  by_cases hp : p
  · simp only [hp, if_true, not_true_eq_false, false_and, iff_false]
    rw [optionT_bind_eq_some]
    rintro ⟨_, h, -⟩
    cases h
  · simp [hp]

end Partial

theorem optionT_run_lift_bind {β γ : Type} {e : Except Error β} {b : β}
    {f : β → OptionT (Except Error) γ} (he : e = .ok b) : (liftM e >>= f).run = (f b).run := by
  subst he
  rfl

/-! ## Broadcasting -/

section Broadcasting

variable {β : Type} {values out : List β} {shape target : Shape}

/-- A list of another length than the shape says is not broadcast. -/
theorem broadcastTo_of_length_ne (hshape : shape.HeadsFit) (h : values.length ≠ shape.prod) :
    (broadcastTo values shape target).run = .ok none := by
  rw [broadcastTo]
  by_cases hbroadcast : shape.broadcast? target = some target
  · rw [if_neg (not_not.mpr hbroadcast), optionT_run_lift_bind hshape.count_eq, if_pos h]
    rfl
  · rw [if_pos hbroadcast]
    rfl

/-- There is room for fewer elements than the limit. -/
theorem reserve_eq_ok_iff {count : Nat} : reserve count = .ok () ↔ count < capacityLimit := by
  rw [reserve]
  split <;> simp_all

/-- Behind the two checks there are the strides, the count of the target, the room for its elements
and the walk. -/
theorem broadcastTo_run (hbroadcast : shape.broadcast? target = some target)
    (hvalues : values.length = shape.prod) (hshape : shape.HeadsFit) :
    (broadcastTo values shape target).run = (do
      let strides ← (shape.padTo target.length).strides
      let total ← target.count
      reserve total
      let out ← walk values.toArray target strides.1 total (List.replicate target.length 0) #[]
      return some out.toList) := by
  rw [broadcastTo, if_neg (not_not.mpr hbroadcast), optionT_run_lift_bind hshape.count_eq,
    if_neg (not_not.mpr hvalues)]
  cases (shape.padTo target.length).strides with
  | error e => rfl
  | ok strides =>
    cases target.count with
    | error e => rfl
    | ok total =>
      show OptionT.run (liftM (reserve total) >>= fun _ =>
          liftM (walk values.toArray target strides.1 total _ #[]) >>= _) =
        reserve total >>= fun _ => walk values.toArray target strides.1 total _ #[] >>= _
      cases reserve total with
      | error e => rfl
      | ok _ =>
        show OptionT.run (liftM (walk values.toArray target strides.1 total _ #[]) >>= _) =
          walk values.toArray target strides.1 total _ #[] >>= _
        cases walk values.toArray target strides.1 total (List.replicate target.length 0) #[] <;> rfl

/-- Where the products and the strides are words and there is room, broadcasting gives as many
elements as the target has indices, each of them read at the projection of its index. -/
theorem broadcastTo_of_fits (hbroadcast : shape.broadcast? target = some target)
    (hvalues : values.length = shape.prod) (hshape : shape.HeadsFit) (htails : shape.TailsFit)
    (htarget : target.HeadsFit) (hroom : target.prod < capacityLimit) :
    ∃ out, (broadcastTo values shape target).run = .ok (some out) ∧ out.length = target.prod ∧
      ∀ index, target.Contains index →
        out[target.position index]? = values[shape.position (shape.project index)]? := by
  have hpadded : Shape.TailsFit (shape.padTo target.length) := Shape.tailsFit_padTo.mpr htails
  obtain ⟨strides, hstrides⟩ := Shape.strides_of_tailsFit hpadded
  obtain ⟨-, -, hoffset⟩ := Shape.strides_eq_ok hstrides
  have hranks : shape.length ≤ target.length := by
    obtain ⟨outer, inner, rfl, hinner⟩ := Shape.broadcast?_eq_right_iff.mp hbroadcast
    rw [List.length_append, hinner.length_eq]
    omega
  have hread : ∀ index, target.Contains index →
      Shape.offset index strides = shape.position (shape.project index) := by
    intro index hindex
    rw [hoffset index, Shape.position_padTo hranks hindex.1]
    simp [Shape.padTo, hindex.1, hranks]
  have hinside : ∀ index, target.Contains index →
      Shape.offset index strides < values.toArray.size := by
    intro index hindex
    rw [hread index hindex, List.size_toArray, hvalues]
    exact Shape.position_lt (Shape.contains_project hbroadcast hindex)
  have hsize : values.toArray.size ≤ wordLimit := by
    rw [List.size_toArray, hvalues]
    exact Nat.le_of_lt hshape.prod_lt
  obtain ⟨out, hwalk, hcount, hentries⟩ := walk_eq_ok htarget.prod_lt hsize hinside
  refine ⟨out.toList, ?_, hcount, fun index hindex => ?_⟩
  · rw [broadcastTo_run hbroadcast hvalues hshape, hstrides, except_ok_bind, htarget.count_eq,
      except_ok_bind, reserve_eq_ok_iff.mpr hroom, except_ok_bind, hwalk]
    rfl
  · rw [hentries index hindex, hread index hindex, List.getElem?_toArray]

/-- Without room for the elements of the target nothing is read. -/
theorem broadcastTo_of_capacity (hbroadcast : shape.broadcast? target = some target)
    (hvalues : values.length = shape.prod) (hshape : shape.HeadsFit) (htails : shape.TailsFit)
    (htarget : target.HeadsFit) (hroom : capacityLimit ≤ target.prod) :
    (broadcastTo values shape target).run = .error (.overflow .capacity) := by
  have hpadded : Shape.TailsFit (shape.padTo target.length) := Shape.tailsFit_padTo.mpr htails
  obtain ⟨strides, hstrides⟩ := Shape.strides_of_tailsFit hpadded
  rw [broadcastTo_run hbroadcast hvalues hshape, hstrides, except_ok_bind, htarget.count_eq,
    except_ok_bind, reserve, if_neg (Nat.not_lt.mpr hroom)]
  rfl

/-- What broadcasting gives, if it gives anything: as many elements as the target has indices, each
of them read at the projection of its index. -/
theorem broadcastTo_eq_some (h : (broadcastTo values shape target).run = .ok (some out)) :
    shape.broadcast? target = some target ∧ values.length = shape.prod ∧
      out.length = target.prod ∧
      ∀ index, target.Contains index →
        out[target.position index]? = values[shape.position (shape.project index)]? := by
  have hrun := h
  rw [broadcastTo] at h
  obtain ⟨hbroadcast, h⟩ := optionT_guard_eq_some.mp h
  rw [ne_eq, not_not] at hbroadcast
  obtain ⟨expected, hexpected, h⟩ := optionT_bind_eq_some.mp h
  obtain ⟨hlength, h⟩ := optionT_guard_eq_some.mp h
  obtain ⟨strides, hstrides, h⟩ := optionT_bind_eq_some.mp h
  obtain ⟨total, htotal, h⟩ := optionT_bind_eq_some.mp h
  obtain ⟨_, hroom, -⟩ := optionT_bind_eq_some.mp h
  obtain ⟨hshape, hprod⟩ := Shape.count_eq_ok_iff.mp (optionT_lift_eq_some.mp hexpected)
  obtain ⟨htarget, rfl⟩ := Shape.count_eq_ok_iff.mp (optionT_lift_eq_some.mp htotal)
  have hroom := reserve_eq_ok_iff.mp (optionT_lift_eq_some.mp hroom)
  have hvalues : values.length = shape.prod := (not_not.mp hlength).trans hprod
  have htails := Shape.tailsFit_padTo.mp (Shape.tailsFit_of_strides (optionT_lift_eq_some.mp hstrides))
  obtain ⟨written, hwritten, hspec⟩ :=
    broadcastTo_of_fits hbroadcast hvalues hshape htails htarget hroom
  cases hrun.symm.trans hwritten
  exact ⟨hbroadcast, hvalues, hspec⟩

end Broadcasting

end TensorGraph
