/-
  Values and what is stored beside them.

  A data node with a value stores a shape and an element type as well.  They agree with the value if
  they are its own (`Content.Agrees`).  Fusing a multiplication and re-indexing a slice write a
  value and its shape together, and keep the type, so the values of a graph go on agreeing.
  Wrapping a tile and fusing permutes write a shape only, at the result of a tile or of a permute:

    * a wrapped tile stores one more axis at its result, so the result must have no value;
    * fused permutes store at the result of the first one the shape of the second one, so a value
      there must happen to have that shape.  Permutes that cancel store nothing.

  Results of tiles and permutes without values (`View.Unevaluated`) are therefore enough.  Every
  rule keeps that condition, so that a whole run keeps the agreement as well.
-/
import TensorGraph.Proofs.Pipeline.Shapes

namespace TensorGraph

open Edit TensorGraph.Graph

variable {α : Type} {g : Graph α} {v : View α}

/-! ## Agreement -/

namespace Content

variable {c : Content α}

/-- The stored shape and type are those of the value, if there is one. -/
def Agrees (c : Content α) : Prop :=
  ∀ value ∈ c.value, c.shape = some value.shape ∧ c.type = some value.type

instance : Decidable c.Agrees :=
  inferInstanceAs (Decidable (∀ value ∈ c.value, c.shape = some value.shape ∧
    c.type = some value.type))

/-- Without a value there is nothing to agree with. -/
theorem agrees_of_value_eq_none (h : c.value = none) : c.Agrees := by
  intro value hvalue
  rw [h] at hvalue
  cases hvalue

/-- A constant has the shape and the type of its value. -/
theorem agrees_constant (value : Tensor α) : (constant value).Agrees := by
  rintro value' ⟨⟩
  exact ⟨rfl, rfl⟩

/-- Another shape has to be that of the value. -/
theorem Agrees.reshape_iff (h : c.Agrees) {shape : Option Shape} :
    Agrees { c with shape } ↔ ∀ value ∈ c.value, shape = some value.shape :=
  ⟨fun h' value hvalue => (h' value hvalue).1,
    fun hshape value hvalue => ⟨hshape value hvalue, (h value hvalue).2⟩⟩

/-- A value of the same type replaces another one. -/
theorem Agrees.store (h : c.Agrees) {old value : Tensor α} (hold : c.value = some old)
    (htype : old.type = value.type) :
    Agrees { c with value := some value, shape := some value.shape } := by
  rintro value' ⟨⟩
  exact ⟨rfl, htype ▸ (h old hold).2⟩

end Content

/-- All values agree with what is stored beside them. -/
def View.Agrees (v : View α) : Prop :=
  ∀ d c, v.content d = some c → c.Agrees

/-- It is enough to look at the nodes that there are. -/
theorem Graph.agrees_iff_ids : g.view.Agrees ↔ ∀ d ∈ g.ids, ∀ c ∈ g.content? d, c.Agrees := by
  refine ⟨fun h d _ c hc => h d c hc, fun h d c hc => h d ?_ c hc⟩
  obtain ⟨n, hn, -⟩ := Option.bind_eq_some_iff.mp hc
  exact mem_ids_of_node? hn

instance (g : Graph α) : Decidable g.view.Agrees :=
  decidable_of_iff _ agrees_iff_ids.symm

/-- The operations for whose results some rule stores another shape. -/
def Operation.Resized (operation : Operation) : Prop :=
  operation.type = .tile ∨ operation.type = .permute

instance (operation : Operation) : Decidable operation.Resized :=
  inferInstanceAs (Decidable (_ ∨ _))

/-- No result of a tile or a permute has a value. -/
def View.Unevaluated (v : View α) : Prop :=
  ∀ op o d c, v.operator op = some o → o.operation.Resized → v.output ⟨op, 0⟩ = some d →
    v.content d = some c → c.value = none

/-- It is enough to look at the operators that there are. -/
theorem Graph.unevaluated_iff_ids : g.view.Unevaluated ↔
    ∀ op ∈ g.ids, ∀ o ∈ g.operator? op, o.operation.Resized →
      ∀ d ∈ g.view.output ⟨op, 0⟩, ∀ c ∈ g.content? d, c.value = none := by
  refine ⟨fun h op _ o ho hresized d hd c hc => h op o d c ho hresized hd hc,
    fun h op o d c ho hresized hd hc => h op ?_ o ho hresized d hd c hc⟩
  obtain ⟨n, hn, -⟩ := Option.bind_eq_some_iff.mp ho
  exact mem_ids_of_node? hn

instance (g : Graph α) : Decidable g.view.Unevaluated :=
  decidable_of_iff _ unevaluated_iff_ids.symm

namespace View

variable {d : NodeId} {c : Content α} {old value : Tensor α}

theorem Agrees.store (h : v.Agrees) (hc : v.content d = some c) (hold : c.value = some old)
    (htype : old.type = value.type) : (v.store d value).Agrees := by
  intro d' c' hc'
  by_cases hd : d' = d
  · subst hd
    obtain rfl := Option.some.inj ((store_content_self hc).symm.trans hc')
    exact (h d' c hc).store hold htype
  · rw [store_content_of_ne hd] at hc'
    exact h d' c' hc'

/-- Fewer nodes agree if all of them do. -/
theorem Agrees.erase (h : v.Agrees) {id : NodeId} : (v.erase id).Agrees :=
  fun d c hc => h d c (erase_content_eq_some hc).2

/-- What has a value already may get another one. -/
theorem Unevaluated.store (h : v.Unevaluated) (hc : v.content d = some c)
    (hold : c.value = some old) : (v.store d value).Unevaluated := by
  intro op o d' c' ho hresized hmakes hc'
  rw [store_operator] at ho
  rw [store_output] at hmakes
  by_cases hd : d' = d
  · subst hd
    cases hold.symm.trans (h op o d' c ho hresized hmakes hc)
  · rw [store_content_of_ne hd] at hc'
    exact h op o d' c' ho hresized hmakes hc'

/-- Fewer results have no value if none of them has. -/
theorem Unevaluated.erase (h : v.Unevaluated) {id : NodeId} : (v.erase id).Unevaluated :=
  fun op o d c ho hresized hmakes hc => h op o d c (erase_operator_eq_some ho).2 hresized
    (erase_output_iff.mp hmakes).2.2 (erase_content_eq_some hc).2

end View

/-! ## Tiles -/

namespace TileRule

variable {p : Plan} {input : NodeId} {c : Content α} {w : Wrapping α}

/-- The result of the tile has no value. -/
def Unvalued (g : Graph α) (p : Plan) : Prop :=
  ∃ c, g.content? p.result = some c ∧ c.value = none

/-- A wrapped tile agrees exactly if its result has no value. -/
theorem agrees_wrapped_iff (h : g.view.Agrees) (ha : Accepted g p input)
    (hc : g.content? p.result = some c) (hw : w.Fresh p g.view) :
    (wrapped g.view p input c w).Agrees ↔ Unvalued g p := by
  have hresult := View.node_ne_none_of_kind (View.kind_of_content (v := g.view) hc)
  constructor
  · intro h'
    obtain ⟨-, hwidened, -⟩ := wrapped_contents hw input c hc
    refine ⟨c, hc, Option.eq_none_iff_forall_ne_some.mpr fun value hvalue => ?_⟩
    -- the value had the shape that was stored before, which has one axis less
    obtain ⟨after, hafter, hknown⟩ := ha.after
    obtain rfl := Option.some.inj (hc.symm.trans hafter)
    rw [Content.knownShape, (h _ c hc value hvalue).1] at hknown
    have hshape : value.shape = p.outShape := Option.some.inj hknown
    have hwide : p.outShape ++ [1] = value.shape :=
      Option.some.inj ((h' _ _ hwidened) value hvalue).1
    rw [hshape] at hwide
    have hlength := congrArg List.length hwide
    rw [List.length_append, List.length_singleton] at hlength
    omega
  · rintro ⟨c', hc', hvalue⟩ d content hcontent
    obtain rfl := Option.some.inj (hc.symm.trans hc')
    rcases wrapped_content hw input c hresult hvalue hcontent with hnone | hold
    · exact Content.agrees_of_value_eq_none hnone
    · exact h d content hold

/-- In a graph without evaluated results, the tile has none. -/
theorem Accepted.unvalued (ha : Accepted g p input) (h : g.view.Unevaluated) : Unvalued g p := by
  obtain ⟨axis, tiles, inference, ho, -⟩ := ha.operator
  obtain ⟨c, hc, -⟩ := ha.after
  exact ⟨c, hc, h p.tile _ p.result c ho (.inl rfl) ha.makes hc⟩

/-- Wrapping a tile evaluates nothing. -/
theorem unevaluated_wrapped (hg : g.WellFormed) (h : g.view.Unevaluated) (ha : Accepted g p input)
    (hc : g.content? p.result = some c) (hw : w.Fresh p g.view) :
    (wrapped g.view p input c w).Unevaluated := by
  have hresult := (hg.live_of_output ha.makes).2
  obtain ⟨c', hc', hvalue⟩ := ha.unvalued h
  obtain rfl := Option.some.inj (hc.symm.trans hc')
  intro op o d content ho hresized hmakes hcontent
  rcases wrapped_operator hw input c hresult ho with ⟨-, rfl⟩ | ⟨-, rfl⟩ | hold
  · exact absurd hresized (by simp [Operation.Resized, Operator.ofOperation, Operation.reshapeTo,
      Operation.type])
  · exact absurd hresized (by simp [Operation.Resized, Operator.ofOperation, Operation.reshapeTo,
      Operation.type])
  · rcases wrapped_content hw input c hresult hvalue hcontent with hnone | hcontent
    · exact hnone
    · have hlive := View.node_ne_none_of_kind (View.kind_of_content hcontent)
      exact h op o d content hold hresized (wrapped_output hw input c hlive hmakes) hcontent

section Runs

variable {notes : List LogEntry} {E : Graph α → Prop} (hg : g.WellFormed) (ha : Accepted g p input)
include hg ha

/-- A tile that is wrapped agrees exactly if its result has no value. -/
theorem runs_commit_agrees (h : g.view.Agrees) :
    Runs (commit p) ⟨g, notes⟩ (fun _ g' => g'.view.Agrees ↔ Unvalued g p) E := by
  refine runs_commit hg ha fun g' c w hc hw _ hview => ?_
  rw [hview]
  exact agrees_wrapped_iff h ha hc hw

/-- Wrapping a tile keeps a graph without evaluated results so. -/
theorem runs_commit_unevaluated (h : g.view.Unevaluated) :
    Runs (commit p) ⟨g, notes⟩ (fun _ g' => g'.WellFormed ∧ g'.view.Unevaluated) E := by
  refine runs_commit hg ha fun g' c w hc hw hg' hview => ⟨hg', ?_⟩
  rw [hview]
  exact unevaluated_wrapped hg h ha hc hw

end Runs

end TileRule

/-! ## Permutes -/

namespace PermuteRule

variable {p : Plan} {o : Operator} {c : Content α}

/-- The permutes cancel, or what is between them has no value or one of the shape behind them. -/
def Fits (g : Graph α) (p : Plan) : Prop :=
  p.composed.isIdentity = true ∨
    ∃ c, g.content? p.mid = some c ∧ ∀ value ∈ c.value, p.lastShape = some value.shape

/-- Two permutes that cancel leave no node behind that disagrees. -/
theorem agrees_cancelled (h : v.Agrees) : (cancelled v p).Agrees :=
  have hmoved : (v.moveReaders p.last p.input).Agrees := h
  hmoved.erase.erase.erase.erase

/-- Cancelling permutes evaluates nothing. -/
theorem unevaluated_cancelled (h : v.Unevaluated) : (cancelled v p).Unevaluated :=
  have hmoved : (v.moveReaders p.last p.input).Unevaluated := h
  hmoved.erase.erase.erase.erase

section Fused

variable (hg : g.WellFormed) (ha : Accepted g p)
include hg ha

/-- Two permutes in one agree exactly if the value in between fits the new shape. -/
theorem agrees_fused_iff (h : g.view.Agrees) (hc : g.content? p.mid = some c)
    (hidentity : p.composed.isIdentity = false) : (fused g.view p o c).Agrees ↔ Fits g p := by
  have hfits : Fits g p ↔ ∀ value ∈ c.value, p.lastShape = some value.shape := by
    simp [Fits, hidentity, hc]
  rw [hfits, ← (h _ c hc).reshape_iff]
  constructor
  · exact fun h' => h' p.mid _ (fused_content_mid hg ha hc)
  · intro hmid d c' hc'
    rcases fused_content hc' with rfl | hold
    · exact hmid
    · exact h d c' hold

omit hg in
/-- In a graph without evaluated results, the data in between has none. -/
theorem Accepted.value_mid (h : g.view.Unevaluated) (hc : g.content? p.mid = some c) :
    c.value = none := by
  obtain ⟨_, _, _, _, _, _, ho, -⟩ := ha.orders
  exact h p.first _ p.mid c ho (.inr rfl) ha.makes_mid hc

/-- Without a value every shape fits. -/
theorem Accepted.fits (h : g.view.Unevaluated) : Fits g p := by
  obtain ⟨c, hc⟩ := kind?_eq_data.mp (hg.view_output_kinds ha.makes_mid).2
  refine .inr ⟨c, hc, fun value hvalue => ?_⟩
  cases hvalue.symm.trans (ha.value_mid h hc)

omit hg in
/-- Joining permutes evaluates nothing. -/
theorem unevaluated_fused (h : g.view.Unevaluated) (hc : g.content? p.mid = some c) :
    (fused g.view p o c).Unevaluated := by
  intro op o' d c' ho' hresized hmakes hc'
  rcases fused_content hc' with rfl | hold
  · exact ha.value_mid (c := c) h hc
  have hmade : g.view.output ⟨op, 0⟩ = some d := by
    have hmade : (detached g.view p p.mid).output ⟨op, 0⟩ = some d := hmakes
    simp only [detached, View.erase_output_iff] at hmade
    exact hmade.2.2.2.2
  rcases fused_operator ho' with ⟨rfl, -⟩ | ⟨-, -, hop⟩
  · obtain ⟨_, _, _, _, _, _, hpermute, -⟩ := ha.orders
    exact h p.first _ d c' hpermute (.inr rfl) hmade hold
  · exact h op o' d c' hop hresized hmade hold

variable {notes : List LogEntry}

/-- Permutes that are joined agree exactly if the value in between fits. -/
theorem runs_commit_agrees (h : g.view.Agrees) :
    Runs (commit p) ⟨g, notes⟩ (fun _ g' => g'.view.Agrees ↔ Fits g p) fun _ => True := by
  refine runs_commit hg ha (fun _ hidentity g' o c _ hc _ hview => ?_)
    (fun _ hidentity _ g' _ hview => ?_) (fun _ _ _ => trivial) fun _ _ _ _ _ => trivial
  · rw [hview]
    exact agrees_fused_iff hg ha h hc hidentity
  · rw [hview]
    exact iff_of_true (agrees_cancelled h) (.inl hidentity)

/-- Joining permutes keeps a graph without evaluated results so. -/
theorem runs_commit_unevaluated (h : g.view.Unevaluated) :
    Runs (commit p) ⟨g, notes⟩ (fun _ g' => g'.WellFormed ∧ g'.view.Unevaluated) fun _ => True := by
  refine runs_commit hg ha (fun _ _ g' o c _ hc hg' hview => ⟨hg', ?_⟩)
    (fun _ _ _ g' hg' hview => ⟨hg', ?_⟩) (fun _ _ _ => trivial) fun _ _ _ _ _ => trivial
  · rw [hview]
    exact unevaluated_fused ha h hc
  · rw [hview]
    exact unevaluated_cancelled h

end Fused

end PermuteRule

/-! ## Multiplications -/

namespace MultiplierRule

/-- A property that is kept when a value is replaced by one of the same type is kept when several
are. -/
theorem stored_of_store {I : View α → Prop}
    (hI : ∀ v d c old value, I v → v.content d = some c → c.value = some old →
      old.type = value.type → I (v.store d value))
    {values : List (NodeId × Tensor α)} (h : I v)
    (hvalues : ∀ t ∈ values, ∃ c old, v.content t.1 = some c ∧ c.value = some old ∧
      old.type = t.2.type) : I (stored v values) := by
  induction values generalizing v with
  | nil => exact h
  | cons t values ih =>
    obtain ⟨⟨c, old, hc, hold, htype⟩, hrest⟩ := List.forall_mem_cons.mp hvalues
    refine ih (hI v t.1 c old t.2 h hc hold htype) fun t' ht' => ?_
    obtain ⟨c', old', hc', hold', htype'⟩ := hrest t' ht'
    by_cases hsame : t'.1 = t.1
    · rw [hsame] at hc' ⊢
      obtain rfl := Option.some.inj (hc.symm.trans hc')
      obtain rfl := Option.some.inj (hold.symm.trans hold')
      exact ⟨_, t.2, View.store_content_self hc, rfl, htype.symm.trans htype'⟩
    · rw [View.store_content_of_ne hsame]
      exact ⟨c', old', hc', hold', htype'⟩

variable [Scalar α]

/-- A constant is written back with the type that is asked for. -/
theorem type_of_toTensor {constant : Constant α} {type : ElementType} {tensor : Tensor α}
    (h : toTensor constant type = .ok tensor) : tensor.type = type := by
  obtain ⟨expected, -, h⟩ := except_bind_eq_ok.mp h
  dsimp only at h
  split at h
  · cases h
  · split at h
    · cases h
      rfl
    · cases h
      rfl
    · cases h

variable {m : Match} {p : Plan α} {tensor multiplier : NodeId} {shape : Shape}
  {factors : Constant α} {old new : Thresholds α}

/-- A threshold is replaced by one of the same type. -/
theorem Replaces.type_eq {port : Nat} {before after : Constant α}
    (h : Replaces g p port before after) (hdistinct : (p.thresholds.map Prod.fst).Nodup)
    {t : NodeId × Tensor α} (ht : t ∈ p.thresholds)
    (hread : g.view.input ⟨p.quantize, port⟩ = some t.1) :
    ∃ c value, g.content? t.1 = some c ∧ c.value = some value ∧ value.type = t.2.type := by
  obtain ⟨data, type, value, hmem, hinput, hconstant, hbuilt⟩ := h
  obtain ⟨data', value'⟩ := t
  obtain rfl : data' = data := Option.some.inj (hread.symm.trans hinput)
  obtain rfl : value' = value :=
    congrArg Prod.snd (List.inj_on_of_nodup_map hdistinct ht hmem rfl)
  obtain ⟨c, old, hc, hold, htype, -⟩ := exists_value_of_floatConstant? hconstant
  exact ⟨c, old, hc, hold, htype.trans (type_of_toTensor hbuilt).symm⟩

/-- A threshold is replaced by a value of the same type. -/
theorem Folds.type_eq (hfolds : Folds m g p multiplier shape factors old new)
    (ha : Accepted g p tensor multiplier shape) :
    ∀ t ∈ p.thresholds, ∃ c value, g.content? t.1 = some c ∧ c.value = some value ∧
      value.type = t.2.type := by
  intro t ht
  obtain ⟨port, hport, hread, -⟩ := ha.thresholds t ht
  simp only [thresholdPorts, List.mem_cons, List.not_mem_nil, or_false] at hport
  rcases hport with rfl | rfl | rfl | rfl
  · exact hfolds.minIn.type_eq hfolds.distinct ht hread
  · exact hfolds.maxIn.type_eq hfolds.distinct ht hread
  · exact hfolds.minOut.type_eq hfolds.distinct ht hread
  · exact hfolds.maxOut.type_eq hfolds.distinct ht hread

section Fused

variable (hfolds : Folds m g p multiplier shape factors old new)
  (ha : Accepted g p tensor multiplier shape)
include hfolds ha

/-- A folded multiplier leaves thresholds of the old types. -/
theorem agrees_fused (h : g.view.Agrees) : (fused g.view p tensor).Agrees := by
  have hstored : (stored g.view p.thresholds).Agrees := stored_of_store
    (fun _ _ _ _ _ h hc hold htype => h.store hc hold htype) h (hfolds.type_eq ha)
  have hswitched : (switched g.view p tensor).Agrees := hstored
  exact hswitched.erase.erase

theorem unevaluated_fused (h : g.view.Unevaluated) : (fused g.view p tensor).Unevaluated := by
  have hstored : (stored g.view p.thresholds).Unevaluated := stored_of_store
    (fun _ _ _ _ _ h hc hold _ => h.store hc hold) h (hfolds.type_eq ha)
  have hswitched : (switched g.view p tensor).Unevaluated := hstored
  exact hswitched.erase.erase

variable {notes : List LogEntry} (hg : g.WellFormed)
include hg

/-- Folding a multiplier keeps shapes and values in agreement. -/
theorem runs_commit_agrees (h : g.view.Agrees) :
    Runs (commit p) ⟨g, notes⟩ (fun _ g' => g'.view.Agrees) fun _ => True := by
  refine runs_commit hg ha (fun _ g' _ hview => ?_) fun _ _ _ => trivial
  rw [hview]
  exact agrees_fused hfolds ha h

/-- Folding a multiplier keeps a graph without evaluated results so. -/
theorem runs_commit_unevaluated (h : g.view.Unevaluated) :
    Runs (commit p) ⟨g, notes⟩ (fun _ g' => g'.WellFormed ∧ g'.view.Unevaluated) fun _ => True := by
  refine runs_commit hg ha (fun _ g' hg' hview => ⟨hg', ?_⟩) fun _ _ _ => trivial
  rw [hview]
  exact unevaluated_fused hfolds ha h

end Fused

end MultiplierRule

/-! ## Slices -/

namespace SliceRule

variable {p : Plan α} {slice : NodeId} {b : Bound α} {constant copy : Node α}

/-- The copy of a bound agrees, and all other data stays. -/
theorem agrees_copied (h : g.view.Agrees) (hcopies : Copies g.view b constant copy) :
    (copied g.view slice b constant copy).Agrees := by
  intro d c hc
  rcases copied_content hcopies hc with ⟨-, rfl⟩ | hold
  · exact Content.agrees_constant b.value
  · exact h d c hold

/-- The copy is made by a constant. -/
theorem unevaluated_copied (hg : g.WellFormed) (h : g.view.Unevaluated)
    (hcopies : Copies g.view b constant copy) :
    (copied g.view slice b constant copy).Unevaluated := by
  intro op o d c ho hresized hmakes hc
  rcases copied_operator hcopies ho with ⟨-, rfl⟩ | hop
  · exact absurd hresized (by simp [Operation.Resized, Operator.ofOperation, Operation.type])
  have hne : op ≠ constant.id := fun heq =>
    View.node_ne_none_of_operator hop (heq ▸ hcopies.constant_unused)
  have hmade : g.view.output ⟨op, 0⟩ = some d := by
    simpa [copied, hne] using hmakes
  rcases copied_content hcopies hc with ⟨rfl, -⟩ | hold
  · exact absurd hcopies.copy_unused (hg.live_of_output hmade).2
  · exact h op o d c hop hresized hmade hold

variable {notes : List LogEntry} {E : Graph α → Prop} (hg : g.WellFormed) (ha : Accepted g p)
include hg ha

/-- Rewriting a slice keeps shapes and values in agreement. -/
theorem runs_commit_agrees (h : g.view.Agrees) :
    Runs (commit p) ⟨g, notes⟩ (fun _ g' => g'.view.Agrees) E := by
  refine (runs_commit (I := View.Agrees) hg ha (fun o ho => ?_) (fun g₁ b _ h₁ hb _ => ?_)
    fun g₁ b constant copy _ h₁ _ hcopies => agrees_copied h₁ hcopies).imp
    (fun _ _ h' => h'.2) fun _ hE => hE
  · intro d c hc
    rw [View.setPayload_content (v := g.view) ho] at hc
    exact h d c hc
  · obtain ⟨-, c, old, hc, hold, htype⟩ := hb
    exact h₁.store hc hold htype

/-- Rewriting a slice keeps a graph without evaluated results so. -/
theorem runs_commit_unevaluated (h : g.view.Unevaluated) :
    Runs (commit p) ⟨g, notes⟩ (fun _ g' => g'.WellFormed ∧ g'.view.Unevaluated) E := by
  refine runs_commit hg ha (fun o ho => ?_) (fun g₁ b _ h₁ hb _ => ?_)
    fun g₁ b constant copy hg₁ h₁ _ hcopies => unevaluated_copied hg₁ h₁ hcopies
  · intro op o' d c ho' hresized hmakes hc
    rw [View.setPayload_content (v := g.view) ho] at hc
    rw [View.setPayload_operator (v := g.view) ho, Function.update_apply] at ho'
    split at ho'
    · obtain rfl := Option.some.inj ho'
      exact absurd hresized (by simp [Operation.Resized, Operation.type])
    · exact h op o' d c ho' hresized hmakes hc
  · obtain ⟨-, c, old, hc, hold, -⟩ := hb
    exact h₁.store hc hold

end SliceRule

/-! ## All rules -/

/-- The graph is well-formed, its values agree, and tiles and permutes have results without values.
-/
structure Truthful (g : Graph α) : Prop where
  wellFormed : g.WellFormed
  agrees : g.view.Agrees
  unevaluated : g.view.Unevaluated

/-- Removing a node keeps graphs truthful. -/
theorem keeps_removeNode_truthful (id : NodeId) :
    Keeps Truthful Truthful (removeNode id : Edit α (Node α)) := by
  intro s hs
  refine runs_removeNode hs.wellFormed (fun _ _ _ => ?_) fun _ => hs
  have hview := hs.wellFormed.view_eraseNode id
  refine ⟨hs.wellFormed.eraseNode id, ?_, ?_⟩
  · rw [hview]
    exact hs.agrees.erase
  · rw [hview]
    exact hs.unevaluated.erase

/-- Every built-in rule keeps graphs truthful. -/
theorem builtinRules_preserve_truthful [Scalar α] {rule : Rule α} (h : rule ∈ builtinRules) :
    rule.Preserves Truthful fun _ => True := by
  simp only [builtinRules, List.mem_cons, List.not_mem_nil, or_false] at h
  rcases h with rfl | rfl | rfl | rfl | rfl
  · intro _ _ s m hs _
    refine runs_planThenCommit (fun planned hplan notes => ?_) (fun _ _ => hs) fun _ _ => trivial
    obtain ⟨input, ha⟩ := TileRule.plan_accepted hplan
    refine ((TileRule.runs_commit_agrees hs.wellFormed ha hs.agrees).and
      (TileRule.runs_commit_unevaluated hs.wellFormed ha hs.unevaluated)).imp
      (fun _ g' h' => ?_) fun _ hE => hE
    exact ⟨h'.2.1, h'.1.mpr (ha.unvalued hs.unevaluated), h'.2.2⟩
  · intro _ hp s m hs hm
    refine runs_planThenCommit (fun planned hplan notes => ?_) (fun _ _ => hs) fun _ _ => trivial
    have ha := PermuteRule.plan_accepted hs.wellFormed hp hm hplan
    refine ((PermuteRule.runs_commit_agrees hs.wellFormed ha hs.agrees).and
      (PermuteRule.runs_commit_unevaluated hs.wellFormed ha hs.unevaluated)).imp
      (fun _ g' h' => ?_) fun _ hE => hE
    exact ⟨h'.2.1, h'.1.mpr (ha.fits hs.wellFormed hs.unevaluated), h'.2.2⟩
  · intro _ hp s m hs hm
    refine runs_planThenCommit (fun planned hplan notes => ?_) (fun _ _ => hs) fun _ _ => trivial
    obtain ⟨_, _, _, _, _, _, ha, hfolds⟩ := MultiplierRule.plan_folds hs.wellFormed hp hm hplan
    exact ((MultiplierRule.runs_commit_agrees hfolds ha hs.wellFormed hs.agrees).and
      (MultiplierRule.runs_commit_unevaluated hfolds ha hs.wellFormed hs.unevaluated)).imp
      (fun _ g' h' => ⟨h'.2.1, h'.1, h'.2.2⟩) fun _ hE => hE
  · intro _ _ s m hs _
    refine runs_planThenCommit (fun planned hplan notes => ?_) (fun _ _ => hs) fun _ _ => trivial
    have ha := SliceRule.plan_accepted hplan
    exact ((SliceRule.runs_commit_agrees hs.wellFormed ha hs.agrees).and
      (SliceRule.runs_commit_unevaluated hs.wellFormed ha hs.unevaluated)).imp
      (fun _ g' h' => ⟨h'.2.1, h'.1, h'.2.2⟩) fun _ hE => hE
  · intro s hs
    refine runs_bind (runs_graph fun notes => ?_)
    exact (DeadRule.keeps_removeRounds keeps_removeNode_truthful _ ⟨s.graph, notes⟩ hs).imp
      (fun _ _ h' => h') fun _ _ => trivial

/-! ## Replacements and runs -/

/-- Replacing the match leaves values that agree exactly if the condition holds. -/
def AgreesAfterIff (replace : Match → Edit α Bool) (g : Graph α) (m : Match) (condition : Prop) :
    Prop :=
  ∀ notes s', replace m ⟨g, notes⟩ = .ok true s' → (s'.graph.view.Agrees ↔ condition)

/-- What holds after a commit holds after a rule that plans and commits. -/
theorem agreesAfterIff_of_runs {π : Type} {name : String} {plan : Match → Graph α → Planning π}
    {commit : π → Edit α Unit} {m : Match} {condition : Prop}
    (h : ∀ planned, plan m g = .ok planned → ∀ notes,
      Runs (commit planned) ⟨g, notes⟩ (fun _ g' => g'.view.Agrees ↔ condition) fun _ => True) :
    AgreesAfterIff (fun m => planThenCommit name (plan m) commit) g m condition := by
  intro notes s' hrun
  have hruns : Runs (planThenCommit name (plan m) commit) ⟨g, notes⟩
      (fun replaced g' => replaced = true → (g'.view.Agrees ↔ condition)) fun _ => True :=
    runs_planThenCommit (fun planned hplan notes => (h planned hplan notes).imp
      (fun _ _ hiff _ => hiff) fun _ hE => hE) (fun _ _ hfalse => nomatch hfalse)
      fun _ _ => trivial
  exact hruns.of_ok hrun rfl

/-- A replacement keeps the values of a graph in agreement, except that a wrapped tile must have a
result without a value, and that a value between two permutes that are fused must have the shape
behind them.  A run of the built-in rules keeps them in agreement if no tile or permute has a result
with a value. -/
theorem values_agree_after_iff [Scalar α] (hg : Reachable g) (h : g.view.Agrees) :
    (∀ pat, TileRule.pattern = .ok pat → ∀ m ∈ pat.allMatches g,
      AgreesAfterIff TileRule.replace g m
        (∃ p, TileRule.plan m g = .ok p ∧ TileRule.Unvalued g p)) ∧
    (∀ pat, PermuteRule.pattern = .ok pat → ∀ m ∈ pat.allMatches g,
      AgreesAfterIff PermuteRule.replace g m
        (∃ p, PermuteRule.plan m g = .ok p ∧ PermuteRule.Fits g p)) ∧
    (∀ pat, MultiplierRule.pattern = .ok pat → ∀ m ∈ pat.allMatches g,
      AgreesAfterIff MultiplierRule.replace g m True) ∧
    (∀ pat, SliceRule.pattern = .ok pat → ∀ m ∈ pat.allMatches g,
      AgreesAfterIff SliceRule.replace g m True) ∧
    (g.view.Unevaluated → ∀ disabled limit notes report s',
      (⟨builtinRules, disabled, limit⟩ : PipelineDescription α).execute ⟨g, notes⟩ =
        .ok report s' → s'.graph.view.Agrees) := by
  have hwf := hg.wellFormed
  refine ⟨fun _ _ m _ => ?_, fun _ hpat m hm => ?_, fun _ hpat m hm => ?_, fun _ _ m _ => ?_,
    fun hunevaluated disabled limit notes report s' hrun => ?_⟩
  · refine agreesAfterIff_of_runs fun p hplan notes => ?_
    obtain ⟨input, ha⟩ := TileRule.plan_accepted hplan
    simpa [hplan] using TileRule.runs_commit_agrees hwf ha h
  · refine agreesAfterIff_of_runs fun p hplan notes => ?_
    have ha := PermuteRule.plan_accepted hwf hpat hm hplan
    simpa [hplan] using PermuteRule.runs_commit_agrees hwf ha h
  · refine agreesAfterIff_of_runs fun p hplan notes => ?_
    obtain ⟨_, _, _, _, _, _, ha, hfolds⟩ := MultiplierRule.plan_folds hwf hpat hm hplan
    simpa using MultiplierRule.runs_commit_agrees hfolds ha hwf h
  · refine agreesAfterIff_of_runs fun p hplan notes => ?_
    simpa using SliceRule.runs_commit_agrees hwf (SliceRule.plan_accepted hplan) h
  · have htruthful : Truthful g := ⟨hwf, h, hunevaluated⟩
    exact ((PipelineDescription.keeps_execute (fun _ _ => trivial)
      (fun rule hrule => builtinRules_preserve_truthful hrule) ⟨g, notes⟩ htruthful).of_ok
      hrun).agrees

/-- Three rewrites and two removals, after which the values agree as before. -/
theorem reshapedCommands_agree :
    Reachable (runCommands .nhwc reshapedCommands) ∧
    (runCommands .nhwc reshapedCommands).view.Agrees ∧
    (runCommands .nhwc reshapedCommands).view.Unevaluated ∧
    ∃ report g' notes', (⟨builtinRules, [], 10⟩ : PipelineDescription Float).execute
      ⟨runCommands .nhwc reshapedCommands, []⟩ = .ok report ⟨g', notes'⟩ ∧ report.total = 5 ∧
      g'.view.Agrees := by
  have hagrees : (runCommands .nhwc reshapedCommands).view.Agrees := by decide +kernel
  have hunevaluated : (runCommands .nhwc reshapedCommands).view.Unevaluated := by decide +kernel
  obtain ⟨report, g', notes', hrun, htotal⟩ := reshapedCommands_run
  obtain ⟨-, -, -, -, hpipeline⟩ := values_agree_after_iff ⟨_, _, rfl⟩ hagrees
  exact ⟨⟨_, _, rfl⟩, hagrees, hunevaluated, report, g', notes', hrun, htotal,
    hpipeline hunevaluated [] 10 [] report ⟨g', notes'⟩ hrun⟩

/-- A tile of rank three and two permutes; the results of the tile and of the first permute are
known beforehand. -/
def evaluatedCommands : List (Command Float) :=
  [.addOperator "x" .parameter, .addOperator "tile" (.tile 0 2),
    .addOperator "first" (.permute [1, 2, 0]), .addOperator "second" (.permute [1, 2, 0]),
    .addOperator "out" .output, .link ⟨0, 0⟩ ⟨1, 0⟩, .link ⟨1, 0⟩ ⟨2, 0⟩, .link ⟨2, 0⟩ ⟨3, 0⟩,
    .link ⟨3, 0⟩ ⟨4, 0⟩, .modifyContent 5 fun _ => ⟨some [1, 1, 2], none, none⟩,
    .modifyContent 6 fun _ => .constant ⟨[2, 1, 2], .int64 [1, 2, 1, 2]⟩,
    .modifyContent 7 fun _ => .constant ⟨[1, 2, 2], .int64 [1, 1, 2, 2]⟩,
    .modifyContent 8 fun _ => ⟨some [2, 2, 1], none, none⟩]

/-- Each of the two rules, and with them a whole run, leaves a shape beside a value of another one.
-/
theorem evaluatedCommands_disagree :
    Reachable (runCommands .nchw evaluatedCommands) ∧
    (runCommands .nchw evaluatedCommands).view.Agrees ∧
    (∃ pat, TileRule.pattern = .ok pat ∧
      ∃ m ∈ pat.allMatches (runCommands .nchw evaluatedCommands),
        ∃ s', TileRule.replace m ⟨runCommands .nchw evaluatedCommands, []⟩ = .ok true s' ∧
          ¬ s'.graph.view.Agrees) ∧
    (∃ pat, PermuteRule.pattern = .ok pat ∧
      ∃ m ∈ pat.allMatches (runCommands .nchw evaluatedCommands),
        ∃ s', PermuteRule.replace m ⟨runCommands .nchw evaluatedCommands, []⟩ = .ok true s' ∧
          ¬ s'.graph.view.Agrees) ∧
    ∃ report s', (⟨builtinRules, [], 10⟩ : PipelineDescription Float).execute
      ⟨runCommands .nchw evaluatedCommands, []⟩ = .ok report s' ∧ ¬ s'.graph.view.Agrees := by
  refine ⟨⟨_, _, rfl⟩, by decide +kernel, ⟨_, rfl, ⟨[("tile", 1)]⟩, by decide +kernel, ?_⟩,
    ⟨_, rfl, ⟨[("first", 2), ("mid", 7), ("second", 3)]⟩, by decide +kernel, ?_⟩,
    exists_ok _ _ (fun _ g' => ¬ g'.view.Agrees) (by decide +kernel)⟩
  · obtain ⟨replaced, s', hs', rfl, hdisagrees⟩ := exists_ok (TileRule.replace ⟨[("tile", 1)]⟩)
      ⟨runCommands .nchw evaluatedCommands, []⟩
      (fun replaced g' => replaced = true ∧ ¬ g'.view.Agrees) (by decide +kernel)
    exact ⟨s', hs', hdisagrees⟩
  · obtain ⟨replaced, s', hs', rfl, hdisagrees⟩ :=
      exists_ok (PermuteRule.replace ⟨[("first", 2), ("mid", 7), ("second", 3)]⟩)
        ⟨runCommands .nchw evaluatedCommands, []⟩
        (fun replaced g' => replaced = true ∧ ¬ g'.view.Agrees) (by decide +kernel)
    exact ⟨s', hs', hdisagrees⟩

end TensorGraph
