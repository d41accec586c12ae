/-
  The laws of broadcasting.

  With volumes that are words, broadcasting gives nothing exactly for its two faults.  Otherwise
  each index of the target reads the source at its projection, as long as there is room for the
  elements of the target (`broadcastTo_reads`); `endlessShape` is a target without room.

  Its own checks ask for less.  They multiply the dimensions from the left, where a zero hides all
  that follows, while the strides are multiplied up from the right.  `broadcastTo_some_or_overflow`
  says which of three ways broadcasting ends where the checks accept: with the elements, for want of
  a stride that is a word, or for want of room.  The second happens only to tensors without
  elements, and `hollowShape` is one of them.

  On shapes, broadcasting is a partial join, so it is associative as far as it is defined
  (`broadcast?_assoc`); on elements, two steps are one (`broadcastTo_broadcastTo`) if there is room
  for both.  The step in between may need more room than the whole: an axis that it stretches can be
  next to one that becomes empty (`endlessColumn_detour`).
-/
import TensorGraph.Proofs.Join
import Mathlib.Algebra.BigOperators.Ring.List
import Mathlib.Algebra.GroupWithZero.Nat

namespace TensorGraph

/-! ## Exact answers -/

/-- **Broadcasting reads the source at the projection of every index.**  It gives nothing just if
the shape does not broadcast to the target or does not count the elements.  Otherwise it gives an
element for each index of the target, if there is room for them: that of the source at the trailing
coordinates, zero on the axes of dimension one, which lie inside.  It fails if there is no room. -/
theorem broadcastTo_reads {β : Type} (values : List β) (shape target : Shape)
    (hshape : shape.volume < wordLimit) (htarget : target.volume < wordLimit) :
    ((broadcastTo values shape target).run = .ok none ↔
      shape.broadcast? target ≠ some target ∨ values.length ≠ shape.prod) ∧
    (shape.broadcast? target = some target → values.length = shape.prod →
      (target.prod < capacityLimit →
        ∃ out, (broadcastTo values shape target).run = .ok (some out) ∧ out.length = target.prod ∧
          ∀ index, target.Contains index → shape.Contains (shape.project index) ∧
            ∃ value, values[shape.position (shape.project index)]? = some value ∧
              out[target.position index]? = some value) ∧
      (capacityLimit ≤ target.prod →
        (broadcastTo values shape target).run = .error (.overflow .capacity))) := by
  have hheads := Shape.headsFit_of_volume hshape
  have htails := Shape.tailsFit_of_volume hshape
  have hheads' := Shape.headsFit_of_volume htarget
  refine ⟨⟨fun hnone => ?_, broadcastTo_of_fault hshape⟩, fun hbroadcast hvalues => ⟨fun hroom => ?_,
    broadcastTo_of_capacity hbroadcast hvalues hheads htails hheads'⟩⟩
  · -- what is accepted gives elements or fails
    by_contra haccepted
    rw [not_or, not_not, not_not] at haccepted
    obtain ⟨hbroadcast, hvalues⟩ := haccepted
    rcases Nat.lt_or_ge target.prod capacityLimit with hroom | hroom
    · obtain ⟨out, hout⟩ := exists_broadcastTo hbroadcast htarget hroom hvalues
      cases hnone.symm.trans hout
    · cases hnone.symm.trans
        (broadcastTo_of_capacity hbroadcast hvalues hheads htails hheads' hroom)
  · obtain ⟨out, hrun⟩ := exists_broadcastTo hbroadcast htarget hroom hvalues
    obtain ⟨-, -, hlength, hentries⟩ := broadcastTo_eq_some hrun
    refine ⟨out, hrun, hlength, fun index hindex => ?_⟩
    have hinside := Shape.contains_project hbroadcast hindex
    have hplace : shape.position (shape.project index) < values.length := by
      rw [hvalues]
      exact Shape.position_lt hinside
    have hvalue := List.getElem?_eq_getElem hplace
    exact ⟨hinside, _, hvalue, (hentries index hindex).trans hvalue⟩

/-- A column is repeated in every column of the target. -/
theorem column_reads :
    Shape.volume [2, 1] < wordLimit ∧ Shape.volume [2, 3] < wordLimit ∧
      ∃ out, (broadcastTo [5, 7] [2, 1] [2, 3]).run = .ok (some out) ∧
        out.length = 6 ∧ out[5]? = some 7 := by
  have hshape : Shape.volume [2, 1] < wordLimit := by decide
  have htarget : Shape.volume [2, 3] < wordLimit := by decide
  obtain ⟨-, haccepted⟩ := broadcastTo_reads [5, 7] [2, 1] [2, 3] hshape htarget
  obtain ⟨out, hrun, hlength, hentries⟩ := (haccepted rfl rfl).1 (by decide)
  obtain ⟨-, value, hvalue, hentry⟩ := hentries [1, 2] (by decide)
  obtain rfl : 7 = value := Option.some.inj hvalue
  exact ⟨hshape, htarget, out, hrun, hlength, hentry⟩

/-- A shape whose elements can be counted but not stored. -/
def endlessShape : Shape := [2 ^ 61]

/-- A single element cannot be repeated so often, although nothing is wrong with it. -/
theorem endlessShape_without_room :
    Shape.volume [1] < wordLimit ∧ endlessShape.volume < wordLimit ∧
      Shape.broadcast? [1] endlessShape = some endlessShape ∧ [5].length = List.prod [1] ∧
      (broadcastTo [5] [1] endlessShape).run = .error (.overflow .capacity) :=
  ⟨by decide, by decide, by decide, rfl, rfl⟩

/-! ## Overflow -/

/-- Only a zero among the dimensions hides a trailing product that is no word. -/
theorem Shape.tailsFit_of_zero_notMem {s : Shape} (hzero : 0 ∉ s) (hs : s.prod < wordLimit) :
    s.TailsFit := by
  intro k
  have hfront : (s.take k).prod ≠ 0 := by
    rw [ne_eq, List.prod_eq_zero_iff]
    exact fun h => hzero (List.mem_of_mem_take h)
  have hle := Nat.le_mul_of_pos_left (s.drop k).prod (Nat.pos_of_ne_zero hfront)
  rw [List.prod_take_mul_prod_drop] at hle
  omega

/-- **The three ways in which broadcasting ends.**  Where the checks accept, it gives the elements
just if the trailing products are words and there is room for the elements of the target.  The
strides overflow just if a trailing product is no word, which happens only to a tensor without
elements, and otherwise there is no room. -/
theorem broadcastTo_some_or_overflow {β : Type} (values : List β) (shape target : Shape)
    (hbroadcast : shape.broadcast? target = some target) (hshape : shape.HeadsFit)
    (htarget : target.HeadsFit) (hvalues : values.length = shape.prod) :
    ((∃ out, (broadcastTo values shape target).run = .ok (some out)) ↔
      shape.TailsFit ∧ target.prod < capacityLimit) ∧
    ((broadcastTo values shape target).run = .error (.overflow .multiply) ↔ ¬ shape.TailsFit) ∧
    ((broadcastTo values shape target).run = .error (.overflow .capacity) ↔
      shape.TailsFit ∧ capacityLimit ≤ target.prod) ∧
    (¬ shape.TailsFit → 0 ∈ shape ∧ values = []) := by
  have hempty : ¬ shape.TailsFit → 0 ∈ shape ∧ values = [] := by
    intro htails
    have hzero : 0 ∈ shape := by
      by_contra hno
      exact htails (Shape.tailsFit_of_zero_notMem hno hshape.prod_lt)
    rw [List.prod_eq_zero hzero] at hvalues
    exact ⟨hzero, List.length_eq_zero_iff.mp hvalues⟩
  by_cases htails : shape.TailsFit
  · rcases Nat.lt_or_ge target.prod capacityLimit with hroom | hroom
    · obtain ⟨out, hrun, -⟩ := broadcastTo_of_fits hbroadcast hvalues hshape htails htarget hroom
      rw [hrun]
      simp [htails, hroom]
    · rw [broadcastTo_of_capacity hbroadcast hvalues hshape htails htarget hroom]
      simp [htails, hroom]
  · have hstrides : (shape.padTo target.length).strides = .error (.overflow .multiply) :=
      Shape.strides_of_not_tailsFit fun h => htails (Shape.tailsFit_padTo.mp h)
    have hrun : (broadcastTo values shape target).run = .error (.overflow .multiply) := by
      rw [broadcastTo_run hbroadcast hvalues hshape, hstrides]
      rfl
    rw [hrun]
    simp [htails, hempty htails]

/-- A shape without elements whose inner dimensions have a product that is no word. -/
def hollowShape : Shape := [0, 4294967296, 4294967296]

theorem hollowShape_overflows :
    ¬ ∀ (values : List Nat) (shape target : Shape), shape.broadcast? target = some target →
      shape.HeadsFit → target.HeadsFit → values.length = shape.prod →
      ∃ out, (broadcastTo values shape target).run = .ok (some out) := by
  intro h
  obtain ⟨out, hout⟩ := h [] hollowShape hollowShape (by decide) (by decide) (by decide) rfl
  have hstopped : (broadcastTo ([] : List Nat) hollowShape hollowShape).run =
      .error (.overflow .multiply) := rfl
  cases hstopped.symm.trans hout

/-- With one of the inner dimensions less there is room for the strides. -/
theorem emptyRows_broadcast :
    Shape.HeadsFit [0, 4294967296] ∧ Shape.TailsFit [0, 4294967296] ∧
      ∃ out, (broadcastTo ([] : List Nat) [0, 4294967296] [0, 4294967296]).run = .ok (some out) := by
  have hheads : Shape.HeadsFit [0, 4294967296] := by decide
  have htails : Shape.TailsFit [0, 4294967296] := Shape.tailsFit_of_volume (by decide)
  refine ⟨hheads, htails, ?_⟩
  exact (broadcastTo_some_or_overflow [] _ _ (by decide) hheads hheads rfl).1.mpr
    ⟨htails, by decide⟩

/-! ## The algebra of shapes -/

namespace Shape

variable {a b c s : Shape}

@[simp] theorem broadcast?_nil (s : Shape) : s.broadcast? [] = some s := by
  have hinner : broadcastInner? s.reverse [] = some s.reverse := by
    cases s.reverse <;> rfl
  rw [broadcast?, List.reverse_nil, hinner, Option.map_some, List.reverse_reverse]

/-- A shape is the least of those that two shapes broadcast to. -/
structure IsLeastAbove (a b s : Shape) : Prop where
  left : a.broadcast? s = some s
  right : b.broadcast? s = some s
  least : ∀ u, a.broadcast? u = some u → b.broadcast? u = some u → s.broadcast? u = some u

theorem isLeastAbove_iff_isJoin : IsLeastAbove a b s ↔ IsJoin [a, b] s := by
  constructor
  · intro h u
    simp only [List.forall_mem_cons, List.not_mem_nil, false_imp_iff, implies_true, and_true]
    exact ⟨fun hu => ⟨broadcast?_trans h.left hu, broadcast?_trans h.right hu⟩,
      fun hu => h.least u hu.1 hu.2⟩
  · intro h
    refine ⟨h.above (by simp), h.above (by simp), fun u ha hb => (h u).mpr ?_⟩
    simp [ha, hb]

/-- Two of the shapes may be joined first. -/
theorem IsJoin.regroup (front rest : List Shape) (h : IsJoin (front ++ [b, c] ++ rest) s) :
    ∃ bc, IsJoin [b, c] bc ∧ IsJoin (front ++ bc :: rest) s := by
  obtain ⟨bc, hbc, -⟩ := broadcast?_least (h.above (t := b) (by simp)) (h.above (t := c) (by simp))
  have hjoin := broadcast?_eq_some_iff_isJoin.mp hbc
  exact ⟨bc, hjoin, (hjoin.flatten front rest).mpr h⟩

/-- Both groupings are defined for the same shapes, and they agree. -/
theorem broadcast?_assoc (a b c : Shape) :
    ((a.broadcast? b).bind fun ab => ab.broadcast? c) =
      (b.broadcast? c).bind fun bc => a.broadcast? bc := by
  apply Option.ext
  intro s
  simp only [Option.bind_eq_some_iff, broadcast?_eq_some_iff_isJoin]
  -- each side says that the shape is the join of all three
  constructor
  · rintro ⟨ab, hab, hs⟩
    have hall : IsJoin [a, b, c] s := (hab.flatten [] [c]).mp hs
    exact IsJoin.regroup [a] [] hall
  · rintro ⟨bc, hbc, hs⟩
    have hall : IsJoin [a, b, c] s := (hbc.flatten [a] []).mp hs
    exact IsJoin.regroup [] [c] hall

end Shape

/-! ## Two steps -/

section Steps

variable {β : Type} {s t u : Shape}

/-- Broadcasting in two steps is broadcasting at once, if there is room for both steps. -/
theorem broadcastTo_broadcastTo {values : List β} (hst : s.broadcast? t = some t)
    (htu : t.broadcast? u = some u) (hu : u.volume < wordLimit) (hroom : t.prod < capacityLimit)
    (hroom' : u.prod < capacityLimit) (hvalues : values.length = s.prod) :
    ∃ out, (broadcastTo values s u).run = .ok (some out) ∧
      (broadcastTo values s t >>= fun mid => broadcastTo mid t u).run = .ok (some out) := by
  have ht : t.volume < wordLimit := Nat.lt_of_le_of_lt (Shape.volume_le htu) hu
  obtain ⟨mid, hmid⟩ := exists_broadcastTo hst ht hroom hvalues
  obtain ⟨-, -, hmidLength, hmidReads⟩ := broadcastTo_eq_some hmid
  obtain ⟨out, hout⟩ := exists_broadcastTo htu hu hroom' hmidLength
  obtain ⟨-, -, hlength, hreads⟩ := broadcastTo_eq_some hout
  obtain ⟨direct, hdirect⟩ := exists_broadcastTo (Shape.broadcast?_trans hst htu) hu hroom' hvalues
  obtain ⟨-, -, hdirectLength, hdirectReads⟩ := broadcastTo_eq_some hdirect
  have heq : direct = out := by
    refine Shape.eq_of_position hdirectLength hlength fun index hindex => ?_
    have hinner := hmidReads _ (Shape.contains_project htu hindex)
    rw [hdirectReads index hindex, hreads index hindex, hinner,
      Shape.project_project hst htu hindex]
  subst heq
  exact ⟨direct, hdirect, optionT_bind_eq_some.mpr ⟨mid, hmid, hout⟩⟩

end Steps

/-- **Broadcasting is a partial join of shapes.**  The shape of a scalar is its least element.  The
elements follow along the order in as many steps as one likes, if there is room for each of them. -/
theorem broadcasting_laws :
    (∀ a b : Shape, a.broadcast? b = b.broadcast? a) ∧
    (∀ a : Shape, a.broadcast? a = some a) ∧
    (∀ a : Shape, Shape.broadcast? [] a = some a ∧ a.broadcast? [] = some a) ∧
    (∀ a b c : Shape, ((a.broadcast? b).bind fun ab => ab.broadcast? c) =
      (b.broadcast? c).bind fun bc => a.broadcast? bc) ∧
    (∀ a b c : Shape, a.broadcast? b = some c ↔ Shape.IsLeastAbove a b c) ∧
    ∀ (β : Type) (values : List β) (s t u : Shape), s.broadcast? t = some t →
      t.broadcast? u = some u → u.volume < wordLimit → t.prod < capacityLimit →
      u.prod < capacityLimit → values.length = s.prod →
      ∃ out, (broadcastTo values s u).run = .ok (some out) ∧
        (broadcastTo values s t >>= fun mid => broadcastTo mid t u).run = .ok (some out) := by
  refine ⟨Shape.broadcast?_comm, Shape.broadcast?_self, fun a => ?_, Shape.broadcast?_assoc,
    fun a b c => ?_, fun β values s t u => broadcastTo_broadcastTo⟩
  · exact ⟨(Shape.broadcast?_comm [] a).trans (Shape.broadcast?_nil a), Shape.broadcast?_nil a⟩
  · rw [Shape.isLeastAbove_iff_isJoin, Shape.broadcast?_eq_some_iff_isJoin]

/-- A row is repeated, at once or after it has been given a second axis. -/
theorem row_broadcasts :
    Shape.broadcast? [2] [1, 2] = some [1, 2] ∧ Shape.broadcast? [1, 2] [3, 2] = some [3, 2] ∧
      ∃ out, (broadcastTo [5, 7] [2] [3, 2]).run = .ok (some out) ∧
        (broadcastTo [5, 7] [2] [1, 2] >>= fun mid => broadcastTo mid [1, 2] [3, 2]).run =
          .ok (some out) := by
  obtain ⟨-, -, -, -, -, hsteps⟩ := broadcasting_laws
  exact ⟨rfl, rfl, hsteps Nat [5, 7] [2] [1, 2] [3, 2] rfl rfl (by decide) (by decide) (by decide)
    rfl⟩

/-- One row of the shape has no elements, so that nothing has to be stored.  On the way through a
shape with one element in each row there is no room. -/
theorem endlessColumn_detour :
    Shape.broadcast? [1, 1] [2 ^ 61, 1] = some [2 ^ 61, 1] ∧
      Shape.broadcast? [2 ^ 61, 1] [2 ^ 61, 0] = some [2 ^ 61, 0] ∧
      Shape.volume [2 ^ 61, 0] < wordLimit ∧ [5].length = List.prod [1, 1] ∧
      (broadcastTo [5] [1, 1] [2 ^ 61, 0]).run = .ok (some []) ∧
      (broadcastTo [5] [1, 1] [2 ^ 61, 1] >>= fun mid =>
        broadcastTo mid [2 ^ 61, 1] [2 ^ 61, 0]).run = .error (.overflow .capacity) :=
  ⟨by decide, by decide, by decide, rfl, rfl, rfl⟩

end TensorGraph
