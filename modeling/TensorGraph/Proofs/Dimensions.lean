/-
  The dimensions of a reshape determine its shape.

  An entry gives a dimension, copies one of the input or leaves it open.  A shape fills the entries
  if it agrees with those that are given or copied and has the elements of the input (`Fills`).  A
  reshape is accepted exactly if there is one such shape and no other, and this is the shape that it
  gets (`reshape_ok_iff_determined`).

  With one entry left open the shapes that fill the others differ in one dimension `n`, and have `n`
  times as many elements as the others make together.  So there is no such shape, just one, or every
  `n` will do: the last if the others make zero elements and the input has none.

  Resolving goes through the entries from the left (`resolveDims_eq_ok_iff_readable`), while filling
  is a statement about all of them at once.  `determined_iff` brings them together: by the case with
  an open entry (`determined_iff_of_open`) and the case without one (`determined_iff_of_closed`).
-/
import TensorGraph.Proofs.Reshape

namespace TensorGraph.Reshape

/-! ## Reading the entries -/

/-- The entries can be read: at most one is left open, no other is negative, and a zero has an axis
of the input to copy. -/
structure Readable (input : Shape) (dims : List Int64) : Prop where
  inferred : dims.count (-1) ≤ 1
  others : ∀ d ∈ dims, d = -1 ∨ 0 ≤ d
  copies : ∀ i, dims[i]? = some 0 → i < input.length

/-- The dimension that an entry stands for, `none` if it is left open. -/
def entryAt (input : Shape) (position : Nat) (dim : Int64) : Option Nat :=
  if dim = -1 then none
  else if dim = 0 then some (input.getD position 1)
  else some dim.toInt.toNat

/-- The dimensions that the entries stand for. -/
def entries (input : Shape) (dims : List Int64) : List (Option Nat) :=
  dims.mapIdx (entryAt input)

/-- The shape with a number in the place that is left open. -/
def fillWith (input : Shape) (dims : List Int64) (n : Nat) : Shape :=
  (entries input dims).map fun entry => entry.getD n

section Reading

variable {op : NodeId} {input : Shape} {dims : List Int64} {position : Nat} {dim : Int64}

theorem entryAt_eq_none_iff : entryAt input position dim = none ↔ dim = -1 := by
  unfold entryAt
  split
  · simp [*]
  · split <;> simp [*]

theorem resolveDim_eq_ok_iff {entry : Option Nat} :
    resolveDim op input position dim = .ok entry ↔
      (dim = -1 ∨ 0 ≤ dim) ∧ (dim = 0 → position < input.length) ∧
        entry = entryAt input position dim := by
  rw [resolveDim, entryAt]
  by_cases hopen : dim = -1
  · subst hopen
    simp [eq_comm]
  · rw [if_neg hopen, if_neg hopen]
    by_cases hcopy : dim = 0
    · subst hcopy
      rw [if_pos rfl, if_pos rfl]
      by_cases hinside : position < input.length
      · simp [List.getD, hinside, eq_comm]
      · simp [hinside]
    · rw [if_neg hcopy, if_neg hcopy]
      by_cases hpos : dim > 0
      · rw [if_pos hpos]
        simp [Int64.le_of_lt hpos, hcopy, eq_comm]
      · rw [if_neg hpos]
        have hneg : ¬ 0 ≤ dim := fun h => hcopy (Int64.le_antisymm (Int64.not_lt.mp hpos) h)
        simp [hopen, hneg]

/-- One more entry may be open if it is the only one. -/
theorem count_open_cons (input : Shape) (position : Nat) {inferred : Bool} :
    (dim :: dims).count (-1) + inferred.toNat ≤ 1 ↔
      ¬ ((entryAt input position dim).isNone && inferred) = true ∧
        dims.count (-1) + (inferred || (entryAt input position dim).isNone).toNat ≤ 1 := by
  rw [List.count_cons]
  by_cases hopen : dim = -1
  · have hentry : entryAt input position dim = none := entryAt_eq_none_iff.mpr hopen
    rw [hentry]
    cases inferred <;> simp [hopen]
  · have hentry : entryAt input position dim ≠ none := mt entryAt_eq_none_iff.mp hopen
    obtain ⟨d, hd⟩ := Option.ne_none_iff_exists'.mp hentry
    rw [hd]
    cases inferred <;> simp [hopen]

/-- A zero copies the axis at its position. -/
theorem copies_cons :
    (∀ i, (dim :: dims)[i]? = some 0 → position + i < input.length) ↔
      (dim = 0 → position < input.length) ∧
        ∀ i, dims[i]? = some 0 → position + 1 + i < input.length := by
  constructor
  · intro h
    refine ⟨fun hdim => h 0 (by simp [hdim]), fun i hi => ?_⟩
    have hnext := h (i + 1) hi
    omega
  · rintro ⟨hfirst, hrest⟩ i hi
    cases i with
    | zero => exact hfirst (by simpa using hi)
    | succ i =>
      have hnext := hrest i hi
      omega

/-- The entries from a position on are read if each of them can be, and at most one is open. -/
theorem resolveDims_eq_ok_iff {inferred : Bool} {resolved : List (Option Nat)} :
    resolveDims op input position inferred dims = .ok resolved ↔
      dims.count (-1) + inferred.toNat ≤ 1 ∧ (∀ d ∈ dims, d = -1 ∨ 0 ≤ d) ∧
        (∀ i, dims[i]? = some 0 → position + i < input.length) ∧
        resolved = dims.mapIdx fun i d => entryAt input (position + i) d := by
  induction dims generalizing position inferred resolved with
  | nil => cases inferred <;> simp [resolveDims, eq_comm]
  | cons dim dims ih =>
    have hentries : ((dim :: dims).mapIdx fun i d => entryAt input (position + i) d) =
        entryAt input position dim :: dims.mapIdx fun i d => entryAt input (position + 1 + i) d := by
      simp [List.mapIdx_cons, Nat.add_assoc, Nat.add_comm 1]
    rw [hentries, count_open_cons input position, copies_cons,
      List.forall_mem_cons, resolveDims, except_bind_eq_ok]
    constructor
    · rintro ⟨first, hfirst, h⟩
      obtain ⟨hdim, hcopy, rfl⟩ := resolveDim_eq_ok_iff.mp hfirst
      dsimp only at h
      split at h
      · cases h
      · rename_i hmany
        obtain ⟨rest, hrest, h⟩ := except_bind_eq_ok.mp h
        cases h
        obtain ⟨hcount, hothers, hcopies, rfl⟩ := ih.mp hrest
        exact ⟨⟨hmany, hcount⟩, ⟨hdim, hothers⟩, ⟨hcopy, hcopies⟩, rfl⟩
    · rintro ⟨⟨hmany, hcount⟩, ⟨hdim, hothers⟩, ⟨hcopy, hcopies⟩, rfl⟩
      refine ⟨_, resolveDim_eq_ok_iff.mpr ⟨hdim, hcopy, rfl⟩, ?_⟩
      dsimp only
      rw [if_neg hmany, ih.mpr ⟨hcount, hothers, hcopies, rfl⟩]
      rfl

theorem resolveDims_eq_ok_iff_readable {resolved : List (Option Nat)} :
    resolveDims op input 0 false dims = .ok resolved ↔
      Readable input dims ∧ resolved = entries input dims := by
  rw [resolveDims_eq_ok_iff]
  simp only [Bool.toNat_false, Nat.add_zero, Nat.zero_add]
  constructor
  · rintro ⟨hcount, hothers, hcopies, rfl⟩
    exact ⟨⟨hcount, hothers, hcopies⟩, rfl⟩
  · rintro ⟨h, rfl⟩
    exact ⟨h.inferred, h.others, h.copies, rfl⟩

end Reading

/-! ## Filling the entries -/

/-- A shape has a dimension for each entry: the given one, or that of the input at a zero.  It has
as many elements as the input. -/
structure Fills (input : Shape) (dims : List Int64) (t : Shape) : Prop where
  rank : t.length = dims.length
  given : ∀ (i : Nat) (d : Int64) (e : Nat),
    dims[i]? = some d → t[i]? = some e → 0 < d → e = d.toInt
  copied : ∀ (i : Nat) (e : Nat), dims[i]? = some 0 → t[i]? = some e → input[i]? = some e
  elements : t.prod = input.prod

/-- A shape of words is the only one that fills the entries. -/
structure Determined (input : Shape) (dims : List Int64) (s : Shape) : Prop where
  words : ∀ d ∈ s, d < wordLimit
  fills : Fills input dims s
  unique : ∀ t : Shape, (∀ d ∈ t, d < wordLimit) → Fills input dims t → t = s

section Filling

variable {input s t : Shape} {dims : List Int64}

/-- With at most one open entry, the lists that agree with the others are given by one number. -/
theorem forall₂_iff_exists_getD {list : List (Option Nat)} {t : List Nat}
    (h : list.count none ≤ 1) :
    list.Forall₂ (fun entry e => ∀ k ∈ entry, e = k) t ↔
      ∃ n, t = list.map fun entry => entry.getD n := by
  induction list generalizing t with
  | nil => simp
  | cons entry list ih =>
    cases t with
    | nil => simp
    | cons e t =>
      rw [List.forall₂_cons]
      cases entry with
      | some k =>
        rw [List.count_cons_of_ne (by simp)] at h
        rw [ih h]
        simp
      | none =>
        rw [List.count_cons_self] at h
        have hclosed : none ∉ list := List.count_eq_zero.mp (by omega)
        rw [ih (by omega)]
        constructor
        · rintro ⟨-, n, rfl⟩
          refine ⟨e, List.cons_eq_cons.mpr ⟨rfl, List.map_congr_left fun entry hentry => ?_⟩⟩
          cases entry with
          | none => exact absurd hentry hclosed
          | some k => rfl
        · rintro ⟨n, hn⟩
          obtain ⟨-, rfl⟩ := List.cons_eq_cons.mp hn
          exact ⟨by simp, n, rfl⟩

theorem count_none_mapIdx {f : Nat → Int64 → Option Nat} (hf : ∀ i d, f i d = none ↔ d = -1) :
    (dims.mapIdx f).count none = dims.count (-1) := by
  induction dims generalizing f with
  | nil => rfl
  | cons d dims ih =>
    rw [List.mapIdx_cons, List.count_cons, List.count_cons, ih fun i => hf (i + 1)]
    simp [hf]

/-- What an entry asks of the dimension in its place. -/
theorem forall_mem_entryAt_iff {i e : Nat} {d : Int64} (hdim : d = -1 ∨ 0 ≤ d)
    (hcopy : d = 0 → i < input.length) :
    (∀ k ∈ entryAt input i d, e = k) ↔ (0 < d → e = d.toInt) ∧ (d = 0 → input[i]? = some e) := by
  unfold entryAt
  by_cases hopen : d = -1
  · subst hopen
    simp
  · rw [if_neg hopen]
    by_cases hzero : d = 0
    · have hinside := hcopy hzero
      subst hzero
      simp [List.getD, hinside, eq_comm]
    · have hnonneg : 0 ≤ d := hdim.resolve_left hopen
      have hpos : 0 < d := by
        rw [← Int64.not_le]
        exact fun hle => hzero (Int64.le_antisymm hle hnonneg)
      have htoInt : 0 ≤ d.toInt := Int64.le_iff_toInt_le.mp hnonneg
      rw [if_neg hzero]
      simp only [Option.mem_some_iff, forall_eq', hpos, hzero, forall_const, false_imp_iff, and_true]
      omega

/-- The shapes that fill the entries, in terms of the dimension that is left open. -/
theorem fills_iff (h : Readable input dims) :
    Fills input dims t ↔
      (∃ n, t = fillWith input dims n) ∧ t.prod = input.prod := by
  have hcount : (entries input dims).count none ≤ 1 := by
    rw [entries, count_none_mapIdx fun i d => entryAt_eq_none_iff]
    exact h.inferred
  unfold fillWith
  rw [← forall₂_iff_exists_getD hcount, List.forall₂_iff_get]
  have hentry : ∀ {i : Nat} (hi : i < dims.length) (e : Nat),
      (∀ k ∈ entryAt input i dims[i], e = k) ↔
        (0 < dims[i] → e = dims[i].toInt) ∧ (dims[i] = 0 → input[i]? = some e) :=
    fun {i} hi e => forall_mem_entryAt_iff (h.others _ (List.getElem_mem hi)) fun hzero =>
      h.copies i (by rw [List.getElem?_eq_getElem hi, hzero])
  constructor
  · intro hfills
    refine ⟨⟨by simp [entries, hfills.rank], fun i hi hit => ?_⟩, hfills.elements⟩
    have hi' : i < dims.length := by simpa [entries] using hi
    have hread := List.getElem?_eq_getElem hit
    simp only [entries, List.get_eq_getElem, List.getElem_mapIdx]
    refine (hentry hi' _).mpr ⟨?_, fun hzero => ?_⟩
    · exact hfills.given i _ _ (List.getElem?_eq_getElem hi') hread
    · exact hfills.copied i _ (by rw [List.getElem?_eq_getElem hi', hzero]) hread
  · rintro ⟨⟨hlength, hentries⟩, hprod⟩
    have hrank : dims.length = t.length := by simpa [entries] using hlength
    have hagrees : ∀ {i : Nat} {d : Int64} {e : Nat}, dims[i]? = some d → t[i]? = some e →
        (0 < d → e = d.toInt) ∧ (d = 0 → input[i]? = some e) := by
      intro i d e hd he
      obtain ⟨hi, rfl⟩ := List.getElem?_eq_some_iff.mp hd
      obtain ⟨hit, rfl⟩ := List.getElem?_eq_some_iff.mp he
      have hplace := hentries i (by simpa [entries] using hi) hit
      simp only [entries, List.get_eq_getElem, List.getElem_mapIdx] at hplace
      exact (hentry hi _).mp hplace
    exact ⟨hrank.symm, fun i d e hd he => (hagrees hd he).1, fun i e hd he => (hagrees hd he).2 rfl,
      hprod⟩

/-- The number of elements of such a shape. -/
theorem prod_fillWith (h : Readable input dims) (n : Nat) :
    (fillWith input dims n).prod =
      (if none ∈ entries input dims then n else 1) * (fillWith input dims 1).prod := by
  have hresolved : resolveDims 0 input 0 false dims = .ok (entries input dims) :=
    resolveDims_eq_ok_iff_readable.mpr ⟨h, rfl⟩
  exact (resolveDims_prod hresolved).2

/-- An entry is a word if the dimensions of the input are. -/
theorem mem_entries_lt (h : Readable input dims) (hinput : ∀ d ∈ input, d < wordLimit) {k : Nat}
    (hk : some k ∈ entries input dims) : k < wordLimit := by
  obtain ⟨i, hi, hentry⟩ := List.getElem_of_mem hk
  have hi' : i < dims.length := by simpa [entries] using hi
  simp only [entries, List.getElem_mapIdx, entryAt] at hentry
  split at hentry
  · cases hentry
  · split at hentry
    · rename_i hzero
      have hinside := h.copies i (by rw [List.getElem?_eq_getElem hi', hzero])
      obtain rfl : input[i] = k := by simpa [List.getD, hinside] using hentry
      exact hinput _ (List.getElem_mem hinside)
    · have hlt := Int64.toInt_lt dims[i]
      obtain rfl : dims[i].toInt.toNat = k := Option.some.inj hentry
      have hlimit : wordLimit = 2 ^ 64 := rfl
      omega

theorem mem_fillWith_lt (h : Readable input dims) (hinput : ∀ d ∈ input, d < wordLimit) {n : Nat}
    (hn : n < wordLimit) : ∀ d ∈ fillWith input dims n, d < wordLimit := by
  intro d hd
  obtain ⟨entry, hentry, rfl⟩ := List.mem_map.mp hd
  cases entry with
  | none => exact hn
  | some k => exact mem_entries_lt h hinput hentry

theorem fillWith_congr (hclosed : none ∉ entries input dims) (n m : Nat) :
    fillWith input dims n = fillWith input dims m := by
  refine List.map_congr_left fun entry hentry => ?_
  cases entry with
  | none => exact absurd hentry hclosed
  | some k => rfl

theorem fillWith_injective (hopen : none ∈ entries input dims) {n m : Nat}
    (h : fillWith input dims n = fillWith input dims m) : n = m :=
  List.map_inj_left.mp h none hopen

end Filling

/-! ## The only choice -/

/-- The size of the input leaves one choice for the open entry, or there is nothing to choose and
the sizes agree. -/
def LeavesOne (input : Shape) (dims : List Int64) : Prop :=
  if none ∈ entries input dims then
    (fillWith input dims 1).prod ≠ 0 ∧ (fillWith input dims 1).prod ∣ input.prod
  else (fillWith input dims 1).prod = input.prod

/-- The shape with what is left of the elements in the open place. -/
def filledUp (input : Shape) (dims : List Int64) : Shape :=
  fillWith input dims (input.prod / (fillWith input dims 1).prod)

section Choice

variable {input s : Shape} {dims : List Int64}

/-- A reshape is accepted if its entries can be read and leave one choice. -/
theorem resolveReshape_eq_ok_iff {op : NodeId} (hinput : input.HeadsFit)
    (hfilled : Readable input dims → (fillWith input dims 1).HeadsFit) :
    resolveReshape op input dims = .ok s ↔
      Readable input dims ∧ LeavesOne input dims ∧ s = filledUp input dims := by
  by_cases hread : Readable input dims
  · have hresolved : resolveDims op input 0 false dims = .ok (entries input dims) :=
      resolveDims_eq_ok_iff_readable.mpr ⟨hread, rfl⟩
    have hknown : Shape.count ((entries input dims).map fun d => d.getD 1) =
        .ok (fillWith input dims 1).prod := (hfilled hread).count_eq
    have hresult : (Except.ok (filledUp input dims) : Except Error Shape) = .ok s ↔
        s = filledUp input dims := by rw [Except.ok.injEq, eq_comm]
    rw [resolveReshape, hresolved, except_ok_bind, hinput.count_eq, except_ok_bind, hknown,
      except_ok_bind, and_iff_right hread, LeavesOne]
    by_cases hopen : none ∈ entries input dims
    · rw [if_pos (List.contains_iff_mem.mpr hopen), if_pos hopen, except_guard_eq_ok]
      refine and_congr ?_ hresult
      rw [Nat.dvd_iff_mod_eq_zero]
      simp
    · rw [if_neg (mt List.contains_iff_mem.mp hopen), if_neg hopen, except_guard_eq_ok, not_not]
      exact and_congr_right fun _ => hresult
  · refine iff_of_false (fun h => ?_) fun h => hread h.1
    obtain ⟨resolved, hresolved, -⟩ := except_bind_eq_ok.mp h
    exact hread (resolveDims_eq_ok_iff_readable.mp hresolved).1

/-- With an open entry, the others have to make a divisor of the elements.  If they make none, zero
and one would both do. -/
theorem determined_iff_of_open (h : Readable input dims) (hwords : ∀ d ∈ input, d < wordLimit)
    (htotal : input.prod < wordLimit) (hopen : none ∈ entries input dims) :
    Determined input dims s ↔
      ((fillWith input dims 1).prod ≠ 0 ∧ (fillWith input dims 1).prod ∣ input.prod) ∧
        s = filledUp input dims := by
  have hfills : ∀ n, Fills input dims (fillWith input dims n) ↔
      n * (fillWith input dims 1).prod = input.prod := by
    intro n
    rw [fills_iff h, prod_fillWith h, if_pos hopen]
    exact and_iff_right ⟨n, rfl⟩
  constructor
  · intro hs
    obtain ⟨⟨n, rfl⟩, -⟩ := (fills_iff h).mp hs.fills
    have hn := (hfills n).mp hs.fills
    have hknown : (fillWith input dims 1).prod ≠ 0 := by
      intro hzero
      have hchoice : ∀ m < wordLimit, fillWith input dims m = fillWith input dims n := by
        intro m hm
        refine hs.unique _ (mem_fillWith_lt h hwords hm) ((hfills m).mpr ?_)
        rw [← hn, hzero, Nat.mul_zero, Nat.mul_zero]
      have hboth := (hchoice 0 (by decide)).trans (hchoice 1 (by decide)).symm
      cases fillWith_injective hopen hboth
    refine ⟨⟨hknown, Dvd.intro_left n hn⟩, ?_⟩
    rw [filledUp, ← hn, Nat.mul_div_cancel n (Nat.pos_of_ne_zero hknown)]
  · rintro ⟨⟨hknown, hdivides⟩, rfl⟩
    have hword := Nat.lt_of_le_of_lt (Nat.div_le_self input.prod (fillWith input dims 1).prod) htotal
    refine ⟨mem_fillWith_lt h hwords hword, (hfills _).mpr (Nat.div_mul_cancel hdivides), ?_⟩
    intro t _ ht
    obtain ⟨⟨n, rfl⟩, -⟩ := (fills_iff h).mp ht
    rw [filledUp, ← (hfills n).mp ht, Nat.mul_div_cancel n (Nat.pos_of_ne_zero hknown)]

/-- Without an open entry there is one shape that agrees with the entries. -/
theorem determined_iff_of_closed (h : Readable input dims) (hwords : ∀ d ∈ input, d < wordLimit)
    (hclosed : none ∉ entries input dims) :
    Determined input dims s ↔
      (fillWith input dims 1).prod = input.prod ∧ s = filledUp input dims := by
  have hfills : ∀ t, Fills input dims t ↔
      t = fillWith input dims 1 ∧ (fillWith input dims 1).prod = input.prod := by
    intro t
    rw [fills_iff h]
    constructor
    · rintro ⟨⟨n, rfl⟩, hprod⟩
      rw [fillWith_congr hclosed n 1] at hprod ⊢
      exact ⟨rfl, hprod⟩
    · rintro ⟨rfl, hprod⟩
      exact ⟨⟨1, rfl⟩, hprod⟩
  have hfilled : filledUp input dims = fillWith input dims 1 := fillWith_congr hclosed _ _
  rw [hfilled]
  constructor
  · intro hs
    obtain ⟨hs, hprod⟩ := (hfills s).mp hs.fills
    exact ⟨hprod, hs⟩
  · rintro ⟨hprod, rfl⟩
    exact ⟨mem_fillWith_lt h hwords (by decide), (hfills _).mpr ⟨rfl, hprod⟩,
      fun t _ ht => ((hfills t).mp ht).1⟩

/-- The entries determine a shape if they leave one choice. -/
theorem determined_iff (h : Readable input dims) (hwords : ∀ d ∈ input, d < wordLimit)
    (htotal : input.prod < wordLimit) :
    Determined input dims s ↔ LeavesOne input dims ∧ s = filledUp input dims := by
  by_cases hopen : none ∈ entries input dims
  · rw [LeavesOne, if_pos hopen]
    exact determined_iff_of_open h hwords htotal hopen
  · rw [LeavesOne, if_neg hopen]
    exact determined_iff_of_closed h hwords hopen

/-- Inference reads the entries against the shape of the operand. -/
theorem run_reshape_eq_ok_iff {α : Type} {g : Graph α} {op : NodeId} {operator : Operator}
    (hoperator : g.operator op = .ok operator) (hdims : operator.operation = .reshape dims)
    (hinput : g.operandShape op 0 = .ok input) :
    Inference.reshape.run g op = .ok [s] ↔ resolveReshape op input dims = .ok s := by
  rw [Inference.run, hoperator, except_ok_bind, hdims]
  dsimp only
  rw [hinput, except_ok_bind, except_bind_eq_ok]
  constructor
  · rintro ⟨shape, hshape, h⟩
    cases h
    exact hshape
  · exact fun h => ⟨s, h, rfl⟩

/-- A reshape is accepted, on its own and where it is inferred in a graph, just if its entries can
be read and determine a shape.  It gets this shape, and with it the elements of its input. -/
theorem reshape_ok_iff_determined (op : NodeId) (input : Shape) (dims : List Int64) (s : Shape)
    (hwords : ∀ d ∈ input, d < wordLimit) (hinput : input.HeadsFit)
    (hfilled : Readable input dims → (fillWith input dims 1).HeadsFit) :
    (resolveReshape op input dims = .ok s ↔ Readable input dims ∧ Determined input dims s) ∧
      (∀ (α : Type) (g : Graph α) (operator : Operator), g.operator op = .ok operator →
        operator.operation = .reshape dims → g.operandShape op 0 = .ok input →
        (Inference.reshape.run g op = .ok [s] ↔ Readable input dims ∧ Determined input dims s)) ∧
      (resolveReshape op input dims = .ok s → s.prod = input.prod) := by
  have hresolve : resolveReshape op input dims = .ok s ↔
      Readable input dims ∧ Determined input dims s := by
    rw [resolveReshape_eq_ok_iff hinput hfilled]
    exact and_congr_right fun hread => (determined_iff hread hwords hinput.prod_lt).symm
  refine ⟨hresolve, ?_, fun h => (hresolve.mp h).2.fills.elements⟩
  intro α g operator hoperator hdims hoperand
  rw [run_reshape_eq_ok_iff hoperator hdims hoperand, hresolve]

end Choice

/-- A tensor and its reshape, which copies the first axis and gives the rest of the elements to the
second. -/
def copyingGraph : Graph Nat where
  layout := .nchw
  nodes := [⟨0, "x", .data ⟨some [2, 3, 4], none, none⟩, ⟨[]⟩⟩,
    ⟨1, "rows", .op (.ofOperation (.reshape [0, -1])), ⟨[]⟩⟩]
  edges := [⟨⟨0, 0, 1, 0⟩, 0⟩]
  nextNode := 2
  nextEdge := 1
  incoming := [[], [0]]
  outgoing := [[0], []]
  names := ⟨[("x", 0), ("rows", 1)]⟩
  knownOrder := none

theorem copyingGraph_determined :
    (∀ d ∈ [2, 3, 4], d < wordLimit) ∧ Shape.HeadsFit [2, 3, 4] ∧
      Shape.HeadsFit (fillWith [2, 3, 4] [0, -1] 1) ∧
      Determined [2, 3, 4] [0, -1] [2, 12] ∧
      Inference.reshape.run copyingGraph 1 = .ok [[2, 12]] := by
  have hwords : ∀ d ∈ [2, 3, 4], d < wordLimit := by decide
  have hinput : Shape.HeadsFit [2, 3, 4] := by decide
  have hfilled : Shape.HeadsFit (fillWith [2, 3, 4] [0, -1] 1) := by decide
  obtain ⟨hresolve, hrun, -⟩ :=
    reshape_ok_iff_determined 1 [2, 3, 4] [0, -1] [2, 12] hwords hinput fun _ => hfilled
  have hdetermined := hresolve.mp (by decide)
  refine ⟨hwords, hinput, hfilled, hdetermined.2, ?_⟩
  exact (hrun Nat copyingGraph (.ofOperation (.reshape [0, -1])) rfl rfl rfl).mpr hdetermined

end TensorGraph.Reshape
