/-
  The shape that shapes broadcast to.

  "Broadcasts to" is an order of shapes, and the shape that two of them are broadcast to is the
  least one above both: `broadcast?` gives the join if there is one
  (`broadcast?_eq_some_iff_isJoin`), and there is one as soon as the two have any bound in common
  (`broadcast?_least`).

  The number of elements does not grow along the order, since an axis of dimension one may be
  stretched to none.  The `volume`, where such an axis counts as one, does (`volume_le`).  Where it
  is a word no product on the way is too large.  If there is also room for the elements,
  broadcasting gives an answer, and it gives none exactly for the two faults that it checks
  (`answers_broadcastTo`).
-/
import TensorGraph.Proofs.Broadcast

namespace TensorGraph

namespace Shape

/-! ## The order -/

theorem broadcastInner?_self (l : List Nat) : broadcastInner? l l = some l :=
  broadcastInner?_eq_right_iff.mpr
    ⟨l, [], (List.append_nil l).symm, List.forall₂_same.mpr fun _ _ => .inl rfl⟩

/-- A shape broadcasts with itself. -/
@[simp] theorem broadcast?_self (s : Shape) : s.broadcast? s = some s := by
  rw [broadcast?, broadcastInner?_self, Option.map_some, List.reverse_reverse]

/-- Shapes that stretch to each other are equal. -/
theorem broadcast?_antisymm {s t : Shape} (hst : s.broadcast? t = some t)
    (hts : t.broadcast? s = some s) : s = t := by
  rw [broadcast?_comm, hst] at hts
  exact (Option.some.inj hts).symm

/-! ## Joins -/

/-- The shape broadcasts to just the shapes that all of the given ones broadcast to. -/
def IsJoin (shapes : List Shape) (s : Shape) : Prop :=
  ∀ u, s.broadcast? u = some u ↔ ∀ t ∈ shapes, t.broadcast? u = some u

variable {shapes : List Shape} {a b s t u : Shape}

/-- All shapes stretch to their join. -/
theorem IsJoin.above (h : IsJoin shapes s) (ht : t ∈ shapes) : t.broadcast? s = some s :=
  (h s).mp (broadcast?_self s) t ht

/-- There is one join at most. -/
theorem IsJoin.unique (hs : IsJoin shapes s) (ht : IsJoin shapes t) : s = t := by
  apply broadcast?_antisymm
  · exact (hs t).mpr fun _ hu => ht.above hu
  · exact (ht s).mpr fun _ hu => hs.above hu

/-- A shape is the join of itself. -/
theorem isJoin_singleton (s : Shape) : IsJoin [s] s := by
  intro u
  rw [List.forall_mem_singleton]

/-- Some of the shapes may be replaced by their join. -/
theorem IsJoin.flatten {inner : List Shape} (h : IsJoin inner t) (front rest : List Shape) :
    IsJoin (front ++ t :: rest) s ↔ IsJoin (front ++ inner ++ rest) s := by
  refine forall_congr' fun u => iff_congr Iff.rfl ?_
  rw [List.forall_mem_append, List.forall_mem_cons, h u, List.forall_mem_append,
    List.forall_mem_append, and_assoc]

theorem broadcastInner?_left {l r c : List Nat} (h : broadcastInner? l r = some c) :
    broadcastInner? l c = some c := by
  induction l generalizing r c with
  | nil => rfl
  | cons a l ih =>
    cases r with
    | nil =>
      cases h
      exact broadcastInner?_self _
    | cons b r =>
      rw [broadcastInner?, Option.bind_eq_bind, Option.bind_eq_some_iff] at h
      obtain ⟨d, hd, h⟩ := h
      obtain ⟨rest, hrest, h⟩ := Option.bind_eq_some_iff.mp h
      cases h
      have hfirst : broadcastDim? a d = some d := by grind [broadcastDim?]
      rw [broadcastInner?, hfirst, ih hrest]
      rfl

/-- A shape stretches to what it broadcasts to. -/
theorem broadcast?_left (h : a.broadcast? b = some s) : a.broadcast? s = some s := by
  obtain ⟨c, hc, rfl⟩ := Option.map_eq_some_iff.mp h
  rw [broadcast?, List.reverse_reverse, broadcastInner?_left hc, Option.map_some]

/-- Dimensions that stretch to a third one broadcast to something below it. -/
theorem broadcastDim?_least {d e b : Nat} (hd : Stretches d b) (he : Stretches e b) :
    ∃ j, broadcastDim? d e = some j ∧ Stretches j b := by
  rcases hd with rfl | rfl
  · exact ⟨d, (broadcastDim?_comm d e).trans (broadcastDim?_eq_right_iff.mpr he), .inl rfl⟩
  · exact ⟨e, broadcastDim?_eq_right_iff.mpr (.inr rfl), he⟩

theorem broadcastInner?_least {l r b : List Nat} (hl : broadcastInner? l b = some b)
    (hr : broadcastInner? r b = some b) :
    ∃ j, broadcastInner? l r = some j ∧ broadcastInner? j b = some b := by
  induction l generalizing r b with
  | nil => exact ⟨r, rfl, hr⟩
  | cons d l ih =>
    cases r with
    | nil => exact ⟨d :: l, rfl, hl⟩
    | cons e r =>
      cases b with
      | nil => cases hl
      | cons f b =>
        obtain ⟨hd, hl⟩ := broadcastInner?_cons_eq_right_iff.mp hl
        obtain ⟨he, hr⟩ := broadcastInner?_cons_eq_right_iff.mp hr
        obtain ⟨k, hk, hkf⟩ := broadcastDim?_least hd he
        obtain ⟨j, hj, hjb⟩ := ih hl hr
        refine ⟨k :: j, ?_, broadcastInner?_cons_eq_right_iff.mpr ⟨hkf, hjb⟩⟩
        rw [broadcastInner?, hk, hj]
        rfl

/-- Shapes that stretch to a third one broadcast to something below it. -/
theorem broadcast?_least (ha : a.broadcast? u = some u) (hb : b.broadcast? u = some u) :
    ∃ s, a.broadcast? b = some s ∧ s.broadcast? u = some u := by
  have hinner : ∀ {t : Shape}, t.broadcast? u = some u →
      broadcastInner? t.reverse u.reverse = some u.reverse := by
    intro t ht
    obtain ⟨c, hc, rfl⟩ := Option.map_eq_some_iff.mp ht
    rw [hc, List.reverse_reverse]
  obtain ⟨j, hj, hju⟩ := broadcastInner?_least (hinner ha) (hinner hb)
  refine ⟨j.reverse, by rw [broadcast?, hj, Option.map_some], ?_⟩
  rw [broadcast?, List.reverse_reverse, hju, Option.map_some, List.reverse_reverse]

/-- Two shapes are broadcast to their join. -/
theorem broadcast?_eq_some_iff_isJoin : a.broadcast? b = some s ↔ IsJoin [a, b] s := by
  have hjoin : ∀ {s}, a.broadcast? b = some s → IsJoin [a, b] s := by
    intro s h u
    simp only [List.forall_mem_cons, List.not_mem_nil, false_imp_iff, implies_true, and_true]
    constructor
    · intro hu
      exact ⟨broadcast?_trans (broadcast?_left h) hu,
        broadcast?_trans (broadcast?_left ((broadcast?_comm b a).trans h)) hu⟩
    · rintro ⟨ha, hb⟩
      obtain ⟨t, ht, htu⟩ := broadcast?_least ha hb
      rwa [← Option.some.inj (ht.symm.trans h)]
  constructor
  · exact hjoin
  · intro h
    obtain ⟨t, ht, -⟩ := broadcast?_least (h.above List.mem_cons_self)
      (h.above (List.mem_cons_of_mem _ List.mem_cons_self))
    rw [ht, (hjoin ht).unique h]

/-- Shapes do not broadcast exactly if they have no join. -/
theorem broadcast?_eq_none_iff : a.broadcast? b = none ↔ ¬ ∃ s, IsJoin [a, b] s := by
  simp only [← broadcast?_eq_some_iff_isJoin, Option.eq_none_iff_forall_ne_some, not_exists, ne_eq]

/-! ## Volumes -/

/-- The product of the dimensions, with zero counted as one. -/
def volume (s : Shape) : Nat :=
  (s.map (max 1)).prod

/-- The volume counts zero dimensions as one. -/
@[simp] theorem volume_cons {d : Nat} : volume (d :: s) = max 1 d * s.volume := by
  rw [volume, volume, List.map_cons, List.prod_cons]

@[simp] theorem volume_append : volume (s ++ t) = s.volume * t.volume := by
  rw [volume, volume, volume, List.map_append, List.prod_append]

/-- The volume is never zero. -/
theorem volume_pos (s : Shape) : 0 < s.volume := by
  induction s with
  | nil => exact Nat.one_pos
  | cons d s ih =>
    rw [volume_cons]
    exact Nat.mul_pos (by omega) ih

/-- There are no more elements than the volume says. -/
theorem prod_le_volume (s : Shape) : s.prod ≤ s.volume := by
  induction s with
  | nil => exact Nat.le_refl 1
  | cons d s ih =>
    rw [volume_cons, List.prod_cons]
    exact Nat.mul_le_mul (by omega) ih

/-- Broadcasting does not make the volume smaller. -/
theorem volume_le (h : s.broadcast? t = some t) : s.volume ≤ t.volume := by
  obtain ⟨outer, inner, rfl, hinner⟩ := broadcast?_eq_right_iff.mp h
  have hle : s.volume ≤ inner.volume := by
    clear h
    induction hinner with
    | nil => exact Nat.le_refl _
    | @cons d e s inner hd _ ih =>
      rw [volume_cons, volume_cons]
      refine Nat.mul_le_mul ?_ ih
      unfold Stretches at hd
      omega
  rw [volume_append]
  exact Nat.le_trans hle (Nat.le_mul_of_pos_left _ (volume_pos outer))

/-- A small volume bounds the products of all parts. -/
theorem prod_part_lt {front rest : List Nat} (hs : volume s < wordLimit)
    (hsplit : s = front ++ rest) : front.prod < wordLimit ∧ rest.prod < wordLimit := by
  rw [hsplit, volume_append] at hs
  have hfront := Nat.le_mul_of_pos_right (volume front) (volume_pos rest)
  have hrest := Nat.le_mul_of_pos_left (volume rest) (volume_pos front)
  have hfront' := prod_le_volume front
  have hrest' := prod_le_volume rest
  omega

/-- A shape whose volume is a word has words as products of its first dimensions. -/
theorem headsFit_of_volume (hs : s.volume < wordLimit) : s.HeadsFit := by
  intro k
  exact (prod_part_lt hs (List.take_append_drop k s).symm).1

/-- A shape whose volume is a word has words as products of its last dimensions. -/
theorem tailsFit_of_volume (hs : s.volume < wordLimit) : s.TailsFit := by
  intro k
  exact (prod_part_lt hs (List.take_append_drop k s).symm).2

end Shape

/-! ## Answers -/

/-- The computation does not fail, and gives something just if the condition holds. -/
def Answers {β : Type} (x : OptionT (Except Error) β) (p : Prop) : Prop :=
  ∃ result, x.run = .ok result ∧ (result ≠ none ↔ p)

section Answers

variable {β γ : Type} {x : OptionT (Except Error) β} {p q : Prop}

/-- The condition for an answer may be replaced by an equivalent one. -/
theorem Answers.congr (h : Answers x p) (hpq : p ↔ q) : Answers x q := by
  obtain ⟨result, hrun, hresult⟩ := h
  exact ⟨result, hrun, hresult.trans hpq⟩

theorem answers_pure (b : β) : Answers (pure b) True :=
  ⟨some b, rfl, by simp⟩

theorem answers_failure : Answers (failure : OptionT (Except Error) β) False :=
  ⟨none, rfl, by simp⟩

/-- There is an answer if both parts have one. -/
theorem Answers.bind {f : β → OptionT (Except Error) γ} (hx : Answers x p)
    (hf : ∀ b, x.run = .ok (some b) → Answers (f b) q) : Answers (x >>= f) (p ∧ q) := by
  obtain ⟨result, hrun, hresult⟩ := hx
  cases result with
  | none =>
    have hp : ¬ p := fun hp => hresult.mpr hp rfl
    refine ⟨none, ?_, by simp [hp]⟩
    rw [OptionT.run_bind, hrun]
    rfl
  | some b =>
    have hp : p := hresult.mp (by simp)
    obtain ⟨result, hrun', hresult'⟩ := hf b hrun
    refine ⟨result, ?_, by rw [hresult']; simp [hp]⟩
    rw [OptionT.run_bind, hrun]
    exact hrun'

end Answers

section Volumes

variable {β : Type} {values : List β} {shape target : Shape}

/-- Along the order, a small volume of the target is enough, if there is room for its elements. -/
theorem exists_broadcastTo (hbroadcast : shape.broadcast? target = some target)
    (htarget : target.volume < wordLimit) (hroom : target.prod < capacityLimit)
    (hvalues : values.length = shape.prod) :
    ∃ out, (broadcastTo values shape target).run = .ok (some out) := by
  have hshape : shape.volume < wordLimit :=
    Nat.lt_of_le_of_lt (Shape.volume_le hbroadcast) htarget
  obtain ⟨out, hout, -⟩ := broadcastTo_of_fits hbroadcast hvalues (Shape.headsFit_of_volume hshape)
    (Shape.tailsFit_of_volume hshape) (Shape.headsFit_of_volume htarget) hroom
  exact ⟨out, hout⟩

/-- Both faults are found before room is asked for. -/
theorem broadcastTo_of_fault (hshape : shape.volume < wordLimit)
    (h : shape.broadcast? target ≠ some target ∨ values.length ≠ shape.prod) :
    (broadcastTo values shape target).run = .ok none := by
  by_cases hvalues : values.length = shape.prod
  · rw [broadcastTo, if_pos (h.resolve_right (not_not.mpr hvalues))]
    rfl
  · exact broadcastTo_of_length_ne (Shape.headsFit_of_volume hshape) hvalues

/-- Broadcasting gives the elements unless the shape does not broadcast to the target or does not
count the elements. -/
theorem answers_broadcastTo (hshape : shape.volume < wordLimit)
    (htarget : target.volume < wordLimit) (hroom : target.prod < capacityLimit) :
    Answers (broadcastTo values shape target)
      (shape.broadcast? target = some target ∧ values.length = shape.prod) := by
  by_cases haccepted : shape.broadcast? target = some target ∧ values.length = shape.prod
  · obtain ⟨out, hout⟩ := exists_broadcastTo haccepted.1 htarget hroom haccepted.2
    exact ⟨some out, hout, by simp [haccepted]⟩
  · refine ⟨none, broadcastTo_of_fault hshape ?_, by simp [haccepted]⟩
    exact not_and_or.mp haccepted

end Volumes

end TensorGraph
