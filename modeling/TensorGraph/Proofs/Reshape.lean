/-
  Reshaping and tiling grids.

  A reshape reads the elements of a grid in row-major order at another shape, so reshaping twice is
  reshaping once (`reshape_reshape`).  A tile repeats a grid along one axis.  An appended unit axis
  is in nobody's way: tiling an axis and appending one can be exchanged (`tile_append_one`).

  The dimensions of a reshape operation are resolved as inference resolves them, but in exact
  numbers (`resolve?_of_resolveReshape`): large tensors have a meaning, too.

    1. `contains_append_one`, `position_append_one`: the indices and places of a shape with a unit
       axis behind the others are those of the shape.
    2. `reshape`, with its laws `reshape_self`, `reshape_reshape` and `reshape_appendOne`.
    3. `tile`, and `tile_append_one`.
    4. `Shape.resolve?`, which gives a meaning to the dimensions of an operation, and which finds
       the dimensions that are written out (`Shape.resolve?_ofNat`).
-/
import TensorGraph.Proofs.Broadcast

namespace TensorGraph

/-! ## A unit axis behind the others -/

namespace Shape

variable {s : Shape} {index : List Nat}

theorem contains_append_one :
    Contains (s ++ [1]) index ↔ ∃ rest, index = rest ++ [0] ∧ s.Contains rest := by
  constructor
  · intro h
    obtain ⟨first, rest, rfl, hlength, hrest⟩ := split_index h
    obtain ⟨i, empty, rfl, hi, hempty⟩ := contains_cons.mp hrest
    obtain rfl := contains_nil.mp hempty
    obtain rfl : i = 0 := by omega
    refine ⟨first, rfl, ((contains_append ?_).mp h).1⟩
    have htotal := h.1
    simp only [List.length_append, List.length_singleton] at htotal
    omega
  · rintro ⟨rest, rfl, hrest⟩
    have hunit : Contains [1] [0] := contains_cons_cons.mpr ⟨by decide, contains_nil.mpr rfl⟩
    exact (contains_append hrest.1).mpr ⟨hrest, hunit⟩

/-- A unit axis does not change places. -/
theorem position_append_one (h : index.length = s.length) :
    position (s ++ [1]) (index ++ [0]) = s.position index := by
  induction s generalizing index with
  | nil =>
    obtain rfl : index = [] := List.length_eq_zero_iff.mp h
    rfl
  | cons d s ih =>
    cases index with
    | nil => cases h
    | cons i index =>
      rw [List.cons_append, List.cons_append, position, position, ih (Nat.succ.inj h)]
      simp

end Shape

/-! ## Reshaping -/

namespace Grid

variable {β : Type}

/-- Grids are equal if they agree inside their shape. -/
theorem ext_of_contains {t u : Grid β} (hshape : t.shape = u.shape)
    (hentry : ∀ index, t.shape.Contains index → t.entry index = u.entry index) : t = u := by
  refine Grid.ext hshape (funext fun index => ?_)
  by_cases hindex : t.shape.Contains index
  · exact hentry index hindex
  · have ht : t.entry index = none := not_not.mp fun h => hindex ((t.defined index).mp h)
    have hu : u.entry index = none :=
      not_not.mp fun h => hindex (hshape ▸ (u.defined index).mp h)
    rw [ht, hu]

/-- The grid with its elements in the same order at another shape. -/
def reshape (t : Grid β) (shape : Shape) (h : shape.prod = t.shape.prod) : Grid β where
  shape := shape
  entry := fun index =>
    if shape.Contains index then t.entry (t.shape.indexAt (shape.position index)) else none
  defined := by
    intro index
    split
    · rename_i hindex
      refine iff_of_true ((t.defined _).mpr ?_) hindex
      exact Shape.contains_indexAt (h ▸ Shape.position_lt hindex)
    · rename_i hindex
      exact iff_of_false (fun h => h rfl) hindex

variable {t : Grid β}

/-- A reshape reads what is at the same place. -/
theorem entry_reshape {shape : Shape} {h : shape.prod = t.shape.prod} {index : List Nat}
    (hindex : shape.Contains index) :
    (t.reshape shape h).entry index = t.entry (t.shape.indexAt (shape.position index)) :=
  if_pos hindex

theorem reshape_self (h : t.shape.prod = t.shape.prod) : t.reshape t.shape h = t := by
  refine ext_of_contains rfl fun index (hindex : t.shape.Contains index) => ?_
  rw [entry_reshape hindex, Shape.indexAt_position hindex]

/-- Reshaping twice is reshaping once. -/
theorem reshape_reshape {s u : Shape} (hs : s.prod = t.shape.prod) (hu : u.prod = s.prod) :
    (t.reshape s hs).reshape u hu = t.reshape u (hu.trans hs) := by
  refine ext_of_contains rfl fun index (hindex : u.Contains index) => ?_
  have hplace : u.position index < s.prod := hu ▸ Shape.position_lt hindex
  calc ((t.reshape s hs).reshape u hu).entry index
      = (t.reshape s hs).entry (s.indexAt (u.position index)) := entry_reshape hindex
    _ = t.entry (t.shape.indexAt (u.position index)) := by
      rw [entry_reshape (Shape.contains_indexAt hplace), Shape.position_indexAt hplace]
    _ = (t.reshape u (hu.trans hs)).entry index := (entry_reshape hindex).symm

theorem prod_append_one (s : Shape) : (s ++ [1]).prod = s.prod := by
  rw [List.prod_append, List.prod_singleton, Nat.mul_one]

/-- The grid with a unit axis behind its own. -/
def appendOne (t : Grid β) : Grid β :=
  t.reshape (t.shape ++ [1]) (prod_append_one t.shape)

theorem entry_appendOne {index : List Nat} (hindex : t.shape.Contains index) :
    t.appendOne.entry (index ++ [0]) = t.entry index := by
  unfold appendOne
  rw [entry_reshape (Shape.contains_append_one.mpr ⟨index, rfl, hindex⟩),
    Shape.position_append_one hindex.1, Shape.indexAt_position hindex]

/-- A unit axis can be taken away again. -/
theorem reshape_appendOne (h : t.shape.prod = t.appendOne.shape.prod) :
    t.appendOne.reshape t.shape h = t :=
  (reshape_reshape (prod_append_one t.shape) h).trans (reshape_self _)

end Grid

/-! ## Tiling -/

/-- Inside a tiled shape, remainders are inside the shape. -/
theorem Shape.contains_modify {s : Shape} {axis tiles : Nat} (h : axis < s.length)
    {index : List Nat} (hindex : Contains (s.set axis (s[axis] * tiles)) index) :
    s.Contains (index.modify axis (· % s[axis])) := by
  induction s generalizing axis index with
  | nil => cases h
  | cons d s ih =>
    cases axis with
    | zero =>
      obtain ⟨i, rest, rfl, hi, hrest⟩ := contains_cons.mp hindex
      have hpos : 0 < d := Nat.pos_of_mul_pos_right (Nat.zero_lt_of_lt hi)
      exact contains_cons_cons.mpr ⟨Nat.mod_lt i hpos, hrest⟩
    | succ axis =>
      obtain ⟨i, rest, rfl, hi, hrest⟩ := contains_cons.mp hindex
      exact contains_cons_cons.mpr ⟨hi, ih (Nat.lt_of_succ_lt_succ h) hrest⟩

theorem modify_append {β : Type} {l l' : List β} {i : Nat} {f : β → β} (h : i < l.length) :
    (l ++ l').modify i f = l.modify i f ++ l' := by
  induction l generalizing i with
  | nil => cases h
  | cons x l ih =>
    cases i with
    | zero => rfl
    | succ i => exact congrArg (x :: ·) (ih (Nat.lt_of_succ_lt_succ h))

namespace Grid

variable {β : Type}

/-- The grid repeated along an axis. -/
def tile (t : Grid β) (axis tiles : Nat) (h : axis < t.shape.length) : Grid β where
  shape := t.shape.set axis (t.shape[axis] * tiles)
  entry := fun index =>
    if Shape.Contains (t.shape.set axis (t.shape[axis] * tiles)) index then
      t.entry (index.modify axis (· % t.shape[axis]))
    else none
  defined := by
    intro index
    split
    · rename_i hindex
      exact iff_of_true ((t.defined _).mpr (Shape.contains_modify h hindex)) hindex
    · rename_i hindex
      exact iff_of_false (fun h => h rfl) hindex

variable {t : Grid β} {axis tiles : Nat}

/-- A tile reads modulo the dimension of its axis. -/
theorem entry_tile {h : axis < t.shape.length} {index : List Nat}
    (hindex : (t.tile axis tiles h).shape.Contains index) :
    (t.tile axis tiles h).entry index = t.entry (index.modify axis (· % t.shape[axis])) :=
  if_pos hindex

theorem shape_appendOne : t.appendOne.shape = t.shape ++ [1] :=
  rfl

/-- A unit axis may be appended before or after tiling another one. -/
theorem tile_append_one (h : axis < t.shape.length) (h' : axis < t.appendOne.shape.length) :
    t.appendOne.tile axis tiles h' = (t.tile axis tiles h).appendOne := by
  have hdim : t.appendOne.shape[axis] = t.shape[axis] := List.getElem_append_left h
  have hshape : (t.appendOne.tile axis tiles h').shape = (t.tile axis tiles h).shape ++ [1] := by
    show (t.shape ++ [1]).set axis (t.appendOne.shape[axis] * tiles) = _
    rw [hdim, List.set_append_left _ _ h]
    rfl
  refine ext_of_contains hshape fun index hindex => ?_
  have hinside := hindex
  rw [hshape] at hinside
  obtain ⟨rest, rfl, hrest⟩ := Shape.contains_append_one.mp hinside
  have haxis : axis < rest.length := by
    rw [hrest.1]
    show axis < (t.shape.set axis _).length
    rwa [List.length_set]
  rw [entry_tile hindex, entry_appendOne hrest, entry_tile hrest, hdim, modify_append haxis,
    entry_appendOne (Shape.contains_modify h hrest)]

end Grid

/-! ## Reshape operations -/

/-- With the inferred dimension set to `n`, the elements are `n` times those that are known. -/
theorem resolveDims_prod {op : NodeId} {input : Shape} {position n : Nat} {inferred : Bool}
    {dims : List Int64} {resolved : List (Option Nat)}
    (h : resolveDims op input position inferred dims = .ok resolved) :
    (inferred = true → none ∉ resolved) ∧
      (resolved.map fun d => d.getD n).prod =
        (if none ∈ resolved then n else 1) * (resolved.map fun d => d.getD 1).prod := by
  induction dims generalizing position inferred resolved with
  | nil =>
    cases h
    simp
  | cons dim dims ih =>
    obtain ⟨first, -, h⟩ := except_bind_eq_ok.mp h
    dsimp only at h
    split at h
    · cases h
    · rename_i hmany
      obtain ⟨rest, hrest, h⟩ := except_bind_eq_ok.mp h
      cases h
      obtain ⟨hnone, hprod⟩ := ih hrest
      cases first with
      | none =>
        -- nothing else is inferred
        have hothers : none ∉ rest := hnone (by simp)
        rw [if_neg hothers, Nat.one_mul] at hprod
        refine ⟨fun hinferred => absurd (by simp [hinferred]) hmany, ?_⟩
        simp [hprod]
      | some d =>
        refine ⟨fun hinferred => ?_, ?_⟩
        · simpa using hnone (by simp [hinferred])
        · simp [hprod, Nat.mul_left_comm]

/-- The shape that the dimensions of a reshape give to a grid of shape `input`, if it has as many
elements. -/
def Shape.resolve? (op : NodeId) (input : Shape) (dims : List Int64) : Option Shape :=
  match resolveDims op input 0 false dims with
  | .error _ => none
  | .ok resolved =>
    let known := (resolved.map fun d => d.getD 1).prod
    let shape := resolved.map fun d => d.getD (input.prod / known)
    if shape.prod = input.prod then some shape else none

/-- Where inference finds the shape of a reshape, this is its meaning. -/
theorem Shape.resolve?_of_resolveReshape {op : NodeId} {input s : Shape} {dims : List Int64}
    (h : resolveReshape op input dims = .ok s) : resolve? op input dims = some s := by
  obtain ⟨resolved, hresolved, h⟩ := except_bind_eq_ok.mp h
  obtain ⟨total, htotal, h⟩ := except_bind_eq_ok.mp h
  obtain ⟨known, hknown, h⟩ := except_bind_eq_ok.mp h
  obtain rfl := count_eq_ok htotal
  have hknown := count_eq_ok hknown
  have hprod := (resolveDims_prod (n := input.prod / known) hresolved).2
  rw [← hknown] at hprod
  have hshape : s = resolved.map (fun d => d.getD (input.prod / known)) ∧
      (resolved.map fun d => d.getD (input.prod / known)).prod = input.prod := by
    rw [hprod]
    by_cases hnone : none ∈ resolved
    · rw [if_pos hnone]
      rw [if_pos (by simpa using hnone)] at h
      split at h
      · cases h
      · rename_i hdivides
        cases h
        simp only [Bool.or_eq_true, decide_eq_true_eq, not_or, not_not] at hdivides
        exact ⟨rfl, Nat.div_mul_cancel (Nat.dvd_of_mod_eq_zero hdivides.2)⟩
    · rw [if_neg hnone, Nat.one_mul]
      rw [if_neg (by simpa using hnone)] at h
      split at h
      · cases h
      · rename_i hsame
        cases h
        exact ⟨rfl, not_not.mp hsame⟩
  rw [resolve?, hresolved]
  dsimp only
  rw [← hknown, if_pos hshape.2, hshape.1]

/-- Dimensions that are written out are found again. -/
theorem Shape.resolve?_ofNat {op : NodeId} {input dims : Shape} (hdims : ∀ d ∈ dims, d < 2 ^ 63)
    (hprod : dims.prod = input.prod) (hzero : ∀ i : Nat, dims[i]? = some 0 → input[i]? = some 0) :
    resolve? op input (dims.map Int64.ofNat) = some dims := by
  have hresolved : resolveDims op input 0 false (dims.map Int64.ofNat) = .ok (dims.map some) :=
    resolveDims_ofNat hdims (by simpa using hzero)
  have hknown : ∀ n, (dims.map some).map (fun d => d.getD n) = dims := by simp
  rw [resolve?, hresolved]
  simp only [hknown, hprod, if_true]

namespace Grid

variable {β : Type}

/-- What a reshape makes of a grid. -/
def reshape? (t : Grid β) (op : NodeId) (dims : List Int64) : Option (Grid β) :=
  (Shape.resolve? op t.shape dims).bind fun s =>
    if h : s.prod = t.shape.prod then some (t.reshape s h) else none

/-- What a tile makes of a grid, if it has the axis. -/
def tile? (t : Grid β) (axis tiles : Nat) : Option (Grid β) :=
  if h : axis < t.shape.length then some (t.tile axis tiles h) else none

end Grid

end TensorGraph
