/-
  What a pipeline keeps of the shapes of a graph.

  `Shaped` is the invariant: every operator infers by default and is settled, tiles see shapes that
  fit, and values have their shape stored and come from constants.  `Kept v₀ v` adds that the
  operators at the boundary, outputs and custom ones, still read the shapes that they read in `v₀`.

  A change of the graph keeps both if all operators but a few go on seeing the same shapes, and
  these few are settled again (`Kept.step`).  The changes that rules are made of follow.

    * `Kept.erase`: a node that nothing reads can go;
    * `Kept.moveReaders`: readers can be moved to data of the same shape;
    * `Kept.refeed`: a port can be fed with other data of the same shape;
    * `Kept.store`: a value of another shape can be stored where nobody cares (`Indifferent`).
-/
import TensorGraph.Proofs.Inference
import TensorGraph.Proofs.Shape

namespace TensorGraph

open Function (update)

variable {α : Type} {v₀ v v' : View α}

/-- Operators through which a graph is seen from outside. -/
def AtBoundary (operation : Operation) : Prop :=
  operation.type = .output ∨ operation.type = .custom

/-- An operator infers by default, is settled and, as a tile, sees shapes that fit. -/
structure Legal (v : View α) (op : NodeId) (o : Operator) : Prop where
  default : o.inference = Inference.ofOperation? o.operation
  settled : Settled op o.operation (fun i => v.reading ⟨op, i⟩) (v.writing ⟨op, 0⟩)
  fits : o.operation.type = .tile →
    (∀ s, v.reading ⟨op, 0⟩ = some (some s) → s.Fits) ∧
      ∀ s, v.writing ⟨op, 0⟩ = some (some s) → s.Fits

/-- A value has its shape as the resolved one, and comes from a constant if it comes from anything.
-/
def Valued (v : View α) : Prop :=
  ∀ d c value, v.content d = some c → c.value = some value →
    c.knownShape = some value.shape ∧
      ∀ q, v.output q = some d → ∃ inference, v.operator q.node = some ⟨.const, inference⟩

/-- The shapes of a graph are consistent. -/
structure Shaped (v : View α) : Prop where
  legal : ∀ op o, v.operator op = some o → Legal v op o
  valued : Valued v

/-- The shapes are consistent and, at the boundary, those of `v₀`. -/
structure Kept (v₀ v : View α) : Prop extends Shaped v where
  boundary : ∀ op o, v.operator op = some o → AtBoundary o.operation →
    v₀.operator op = some o ∧ ∀ i, v.reading ⟨op, i⟩ = v₀.reading ⟨op, i⟩

/-- Only constants make values. -/
theorem Valued.value_eq_none (h : Valued v) {q : OutputPort} {d : NodeId} {c : Content α}
    {o : Operator} (hc : v.content d = some c) (hmade : v.output q = some d)
    (ho : v.operator q.node = some o) (hconst : o.operation ≠ .const) : c.value = none := by
  refine Option.eq_none_iff_forall_ne_some.mpr fun value hvalue => ?_
  obtain ⟨inference, ho'⟩ := (h d c value hc hvalue).2 q hmade
  obtain rfl := Option.some.inj (ho.symm.trans ho')
  exact hconst rfl

/-- A change that adds no values, gives no producer to old data and leaves constants alone. -/
theorem Valued.step (h : Valued v)
    (hcontent : ∀ d c value, v'.content d = some c → c.value = some value → v.content d = some c)
    (hmade : ∀ q d, v'.output q = some d → v.content d ≠ none → v.output q = some d)
    (hconst : ∀ q d inference, v'.output q = some d →
      v.operator q.node = some ⟨.const, inference⟩ → v'.operator q.node = some ⟨.const, inference⟩) :
    Valued v' := by
  intro d c value hc hvalue
  have hold := hcontent d c value hc hvalue
  obtain ⟨hshape, hfrom⟩ := h d c value hold hvalue
  refine ⟨hshape, fun q hq => ?_⟩
  obtain ⟨inference, ho⟩ := hfrom q (hmade q d hq (by simp [hold]))
  exact ⟨inference, hconst q d inference hq ho⟩

theorem Shaped.kept (h : Shaped v) : Kept v v :=
  ⟨h, fun _ _ ho _ => ⟨ho, fun _ => rfl⟩⟩

/-- Only tiles are asked for shapes that fit, and only the boundary for those of before. -/
theorem Legal.inner {op : NodeId} {o : Operator}
    (hdefault : o.inference = Inference.ofOperation? o.operation)
    (hsettled : Settled op o.operation (fun i => v.reading ⟨op, i⟩) (v.writing ⟨op, 0⟩))
    (htype : o.operation.type ∉ [.tile, .output, .custom]) :
    Legal v op o ∧ ¬ AtBoundary o.operation := by
  simp only [List.mem_cons, List.not_mem_nil, or_false, not_or] at htype
  exact ⟨⟨hdefault, hsettled, fun htile => absurd htile htype.1⟩, not_or.mpr htype.2⟩

theorem Legal.congr {op : NodeId} {o : Operator} (h : Legal v op o)
    (hreading : ∀ i, v'.reading ⟨op, i⟩ = v.reading ⟨op, i⟩)
    (hwriting : v'.writing ⟨op, 0⟩ = v.writing ⟨op, 0⟩) : Legal v' op o where
  default := h.default
  settled := by
    simp only [hreading, hwriting]
    exact h.settled
  fits := by
    rw [hreading, hwriting]
    exact h.fits

/-- An operator other than a source stays legal without its result. -/
theorem Legal.congr_none {op : NodeId} {o : Operator} (h : Legal v op o)
    (hreading : ∀ i, v'.reading ⟨op, i⟩ = v.reading ⟨op, i⟩) (hwriting : v'.writing ⟨op, 0⟩ = none)
    (hsource : o.operation ≠ .parameter ∧ o.operation ≠ .const) : Legal v' op o where
  default := h.default
  settled := by
    have hsettled := h.settled
    obtain ⟨operation, inference⟩ := o
    simp only [hreading, hwriting]
    cases operation with
    | parameter => exact absurd rfl hsource.1
    | const => exact absurd rfl hsource.2
    | output | stridedSlice | custom => trivial
    | mul | quantize | permute | tile | reshape =>
      obtain ⟨s, hs, -⟩ := hsettled
      exact ⟨s, hs, by simp [Stores]⟩
  fits := fun htile => by
    rw [hreading, hwriting]
    refine ⟨(h.fits htile).1, fun s hs => ?_⟩
    cases hs

/-- A change keeps the shapes if every operator it leaves sees the shapes it saw and stays legal, or
is legal and not at the boundary. -/
theorem Kept.step (h : Kept v₀ v)
    (hop : ∀ op o, v'.operator op = some o →
      (v.operator op = some o ∧ (∀ i, v'.reading ⟨op, i⟩ = v.reading ⟨op, i⟩) ∧ Legal v' op o) ∨
        (Legal v' op o ∧ ¬ AtBoundary o.operation))
    (hvalued : Valued v') : Kept v₀ v' where
  legal := fun op o ho => by
    rcases hop op o ho with ⟨_, _, hlegal⟩ | ⟨hlegal, _⟩
    · exact hlegal
    · exact hlegal
  valued := hvalued
  boundary := fun op o ho hboundary => by
    rcases hop op o ho with ⟨hold, hreading, _⟩ | ⟨_, hinner⟩
    · obtain ⟨hfirst, hsame⟩ := h.boundary op o hold hboundary
      exact ⟨hfirst, fun i => (hreading i).trans (hsame i)⟩
    · exact absurd hboundary hinner

/-! ## Changes that rules are made of -/

theorem reading_congr {q : InputPort} (hinput : v'.input q = v.input q)
    (hcontent : ∀ d, v.input q = some d → v'.content d = v.content d) :
    v'.reading q = v.reading q := by
  rw [View.reading, View.reading, hinput]
  cases hq : v.input q with
  | none => rfl
  | some d => simp [View.shape, hcontent d hq]

theorem writing_congr {q : OutputPort} (houtput : v'.output q = v.output q)
    (hcontent : ∀ d, v.output q = some d → v'.content d = v.content d) :
    v'.writing q = v.writing q := by
  rw [View.writing, View.writing, houtput]
  cases hq : v.output q with
  | none => rfl
  | some d => simp [hcontent d hq]

theorem erase_operator_eq_some {id op : NodeId} {o : Operator}
    (h : (v.erase id).operator op = some o) : op ≠ id ∧ v.operator op = some o := by
  by_cases hop : op = id
  · subst hop
    simp [View.operator] at h
  · exact ⟨hop, by simpa [View.operator, hop] using h⟩

theorem erase_content_eq_some {id d : NodeId} {c : Content α}
    (h : (v.erase id).content d = some c) : d ≠ id ∧ v.content d = some c := by
  by_cases hd : d = id
  · subst hd
    simp [View.content] at h
  · exact ⟨hd, by rwa [View.erase_content_of_ne hd] at h⟩

/-- Erasing a node that is not read, and that no source makes. -/
theorem Kept.erase (h : Kept v₀ v) {id : NodeId} (hunread : ∀ q, v.input q ≠ some id)
    (hmade : ∀ q o, v.output q = some id → v.operator q.node = some o →
      o.operation ≠ .parameter ∧ o.operation ≠ .const) : Kept v₀ (v.erase id) := by
  refine h.step (fun op o ho => .inl ?_) (h.valued.step
    (fun d c value hc _ => (erase_content_eq_some hc).2)
    (fun q d hq _ => (View.erase_output_iff.mp hq).2.2) fun q d inference hq ho => ?_)
  · obtain ⟨hne, hold⟩ := erase_operator_eq_some ho
    have hreading : ∀ i, (v.erase id).reading ⟨op, i⟩ = v.reading ⟨op, i⟩ := fun i =>
      reading_congr (by simp [hne, hunread]) fun d hd =>
        View.erase_content_of_ne fun heq => hunread _ (heq ▸ hd)
    refine ⟨hold, hreading, ?_⟩
    by_cases hid : v.output ⟨op, 0⟩ = some id
    · exact (h.legal op o hold).congr_none hreading (by simp [View.writing, hid])
        (hmade _ o hid hold)
    · exact (h.legal op o hold).congr hreading (writing_congr (by simp [hne, hid]) fun d hd =>
        View.erase_content_of_ne fun heq => hid (heq ▸ hd))
  · simpa [View.operator, (View.erase_output_iff.mp hq).1] using ho

/-- Moving readers to data of the same shape. -/
theorem Kept.moveReaders (h : Kept v₀ v) {old new : NodeId} (hshape : v.shape new = v.shape old) :
    Kept v₀ (v.moveReaders old new) := by
  have hreading : ∀ q, (v.moveReaders old new).reading q = v.reading q := fun q => by
    rw [View.reading, View.reading, View.moveReaders_input]
    split
    · rename_i hq
      rw [hq]
      exact congrArg some hshape
    · rfl
  exact h.step (fun op o ho => .inl ⟨ho, fun i => hreading _, (h.legal op o ho).congr
    (fun i => hreading _) rfl⟩) h.valued

/-- Reading other data of the same shape at one port. -/
theorem Kept.refeed (h : Kept v₀ v) {q : InputPort} {d : NodeId}
    (hshape : v.reading q = some (v.shape d)) : Kept v₀ ((v.unplug q).feed d q) := by
  have hreading : ∀ q', ((v.unplug q).feed d q).reading q' = v.reading q' := fun q' => by
    by_cases hq : q' = q
    · subst hq
      rw [hshape]
      exact View.reading_of_input (by simp)
    · exact reading_congr (by simp [hq]) fun _ _ => rfl
  exact h.step (fun op o ho => .inl ⟨ho, fun i => hreading _, (h.legal op o ho).congr
    (fun i => hreading _) rfl⟩) h.valued

/-- The operator does not look at the shape at the input port. -/
def Indifferent (operation : Operation) (index : Nat) : Prop :=
  (∃ levels, operation = .quantize levels ∧ index ≠ 0) ∨ ∃ masks, operation = .stridedSlice masks

/-- Storing another value where the shape does not matter. -/
theorem Kept.store (h : Kept v₀ v) {d : NodeId} {c : Content α} {value old : Tensor α}
    (hc : v.content d = some c) (hold : c.value = some old)
    (hreaders : ∀ q, v.input q = some d →
      ∃ o, v.operator q.node = some o ∧ Indifferent o.operation q.index) :
    Kept v₀ (v.store d value) := by
  have hmade := (h.valued d c old hc hold).2
  have hreading : ∀ q, v.input q ≠ some d → (v.store d value).reading q = v.reading q := fun q hq =>
    reading_congr (congrFun View.store_input q) fun e he =>
      View.store_content_of_ne fun heq => hq (heq ▸ he)
  have hwriting : ∀ q, v.output q ≠ some d → (v.store d value).writing q = v.writing q := fun q hq =>
    writing_congr (congrFun View.store_output q) fun e he =>
      View.store_content_of_ne fun heq => hq (heq ▸ he)
  refine h.step (fun op o ho => ?_) fun e c' value' hc' hvalue' => ?_
  · rw [View.store_operator] at ho
    have hlegal := h.legal op o ho
    by_cases hreads : ∃ i, v.input ⟨op, i⟩ = some d
    · obtain ⟨i, hi⟩ := hreads
      obtain ⟨o', ho', hindifferent⟩ := hreaders _ hi
      obtain rfl : o = o' := Option.some.inj (ho.symm.trans ho')
      obtain ⟨operation, inference⟩ := o
      rcases hindifferent with ⟨levels, rfl, -⟩ | ⟨masks, rfl⟩
      · -- a quantisation looks at its first input only, and is no source
        have hzero : v.input ⟨op, 0⟩ ≠ some d := fun h₀ => by
          obtain ⟨o', ho', h₀⟩ := hreaders _ h₀
          obtain rfl := Option.some.inj (ho.symm.trans ho')
          rcases h₀ with ⟨_, _, hne⟩ | ⟨_, hslice⟩
          · exact hne rfl
          · cases hslice
        have hother : v.output ⟨op, 0⟩ ≠ some d := fun h₀ => by
          obtain ⟨_, hconst⟩ := hmade _ h₀
          cases ho.symm.trans hconst
        obtain ⟨s, hs, hstores⟩ := hlegal.settled
        refine .inr (Legal.inner hlegal.default ⟨s, ?_, ?_⟩ (by simp [Operation.type]))
        · exact (hreading _ hzero).trans hs
        · rwa [hwriting _ hother]
      · exact .inr (Legal.inner hlegal.default trivial (by simp [Operation.type]))
    · have hsame : ∀ i, (v.store d value).reading ⟨op, i⟩ = v.reading ⟨op, i⟩ := fun i =>
        hreading _ fun hi => hreads ⟨i, hi⟩
      refine .inl ⟨ho, hsame, ?_⟩
      by_cases houtput : v.output ⟨op, 0⟩ = some d
      · -- a constant takes the shape that is stored, whichever it is
        obtain ⟨_, hconst⟩ := hmade _ houtput
        obtain rfl := Option.some.inj (ho.symm.trans hconst)
        refine (Legal.inner hlegal.default ⟨value.shape, ?_⟩ (by simp [Operation.type])).1
        rw [View.writing, View.store_output, houtput, Option.map_some, View.store_content_self hc]
        rfl
      · exact hlegal.congr hsame (hwriting _ houtput)
  · simp only [View.store_output, View.store_operator]
    by_cases he : e = d
    · subst he
      rw [View.store_content_self hc] at hc'
      cases hc'
      cases hvalue'
      exact ⟨rfl, hmade⟩
    · rw [View.store_content_of_ne he] at hc'
      exact h.valued e c' value' hc' hvalue'

end TensorGraph
