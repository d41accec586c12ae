/-
  Fusing a multiplication into a quantisation.

  The match and an accepted plan fix the multiplication, its operands and the thresholds
  (`Accepted`), and what the plan computes are the constants at the four thresholds with the
  multiplier divided out (`Folds`, `plan_folds`).  The commit stores the new thresholds and moves
  the tensor from the multiplication to the quantisation.  Only then is the multiplication removed,
  which is refused if it has another result that is read and has no value.

  The plan collects nodes and constants in loops over the four thresholds, and what it knows of them
  is a relation between two lists, entry by entry (`thresholds_replaced`).  The commit goes through
  three views: `stored` with the new thresholds, `switched` where the quantisation reads the tensor,
  and `fused` without the multiplication.  `runs_commit` says in which of them it can end.
-/
import TensorGraph.Proofs.Graph.Step
import TensorGraph.Proofs.Pattern.Match
import TensorGraph.Proofs.Rule.Threshold
import Mathlib.Data.List.Nodup

namespace TensorGraph.MultiplierRule

open Edit TensorGraph.Graph

variable {α : Type} {g : Graph α} {p : Plan α}

/-- What the match and an accepted plan say about the multiplication, the quantisation and the data
around them. -/
structure Accepted (g : Graph α) (p : Plan α) (tensor multiplier : NodeId) (shape : Shape) :
    Prop where
  mul : ∃ inference, g.operator? p.mul = some ⟨.mul, inference⟩
  quantize : ∃ levels inference, g.operator? p.quantize = some ⟨.quantize levels, inference⟩
  makes : g.view.output ⟨p.mul, 0⟩ = some p.product
  reads : g.view.input ⟨p.quantize, 0⟩ = some p.product
  one_reader : ∀ q, g.view.input q = some p.product → q = ⟨p.quantize, 0⟩
  port : p.tensorPort < 2
  takes_tensor : g.view.input ⟨p.mul, p.tensorPort⟩ = some tensor
  takes_multiplier : g.view.input ⟨p.mul, 1 - p.tensorPort⟩ = some multiplier
  tensor : ∃ c, g.content? tensor = some c ∧ c.knownShape = some shape
  multiplier : ∃ c value, g.content? multiplier = some c ∧ c.value = some value ∧
    shape.absorbs value.shape = true
  thresholds : ∀ t ∈ p.thresholds, ∃ port ∈ thresholdPorts,
    g.view.input ⟨p.quantize, port⟩ = some t.1 ∧
    (∀ q, g.view.input q = some t.1 → q = ⟨p.quantize, port⟩) ∧
    ∃ c value, g.content? t.1 = some c ∧ c.value = some value

/-- The threshold at a port, and the constant that the plan puts in its place. -/
def Replaces [Scalar α] (g : Graph α) (p : Plan α) (port : Nat) (old new : Constant α) : Prop :=
  ∃ data type tensor, (data, tensor) ∈ p.thresholds ∧
    g.view.input ⟨p.quantize, port⟩ = some data ∧
    floatConstant? g data = .ok (some (old, type)) ∧ toTensor new type = .ok tensor

/-- What an accepted plan has computed: the factor at the multiplier is folded into the thresholds,
and the results are what is going to be stored. -/
structure Folds [Scalar α] (m : Match) (g : Graph α) (p : Plan α) (multiplier : NodeId)
    (shape : Shape) (factors : Constant α) (old new : Thresholds α) : Prop where
  roles : m.get "preop" = .ok p.mul ∧ m.get "preoped" = .ok p.product ∧
    m.get "quantize" = .ok p.quantize
  binary : ∃ levels inference, g.operator? p.quantize = some ⟨.quantize levels, inference⟩ ∧
    hasTwoLevels levels = true
  constant : ∃ type, floatConstant? g multiplier = .ok (some (factors, type))
  nonzero : ∀ f ∈ factors.values, Scalar.isZero f = false
  folded : (foldMultiplier factors old).run = .ok (some new)
  absorbed : ∀ part ∈ new.parts, shape.absorbs part.shape = true
  distinct : (p.thresholds.map Prod.fst).Nodup
  minIn : Replaces g p 1 old.minIn new.minIn
  maxIn : Replaces g p 2 old.maxIn new.maxIn
  minOut : Replaces g p 3 old.minOut new.minOut
  maxOut : Replaces g p 4 old.maxOut new.maxOut

/-! ## The plan -/

/-- Each entry of the second list has a partner in the first. -/
theorem forall₂_exists_left {β γ : Type} {R : β → γ → Prop} {l : List β} {l' : List γ}
    (h : l.Forall₂ R l') {y : γ} (hy : y ∈ l') : ∃ x ∈ l, R x y := by
  induction h with
  | nil => cases hy
  | cons hfirst _ ih =>
    rcases List.mem_cons.mp hy with rfl | hy
    · exact ⟨_, List.mem_cons_self, hfirst⟩
    · obtain ⟨x, hx, hxy⟩ := ih hy
      exact ⟨x, List.mem_cons_of_mem _ hx, hxy⟩

/-- A loop that succeeds has succeeded at every entry. -/
theorem except_mapM_forall₂ {ε β γ : Type} {f : β → Except ε γ} {list : List β} {results : List γ}
    (h : list.mapM f = .ok results) : list.Forall₂ (fun x y => f x = .ok y) results := by
  induction list generalizing results with
  | nil =>
    rw [List.mapM_nil] at h
    cases h
    exact .nil
  | cons x rest ih =>
    rw [List.mapM_cons] at h
    obtain ⟨y, hy, h⟩ := except_bind_eq_ok.mp h
    obtain ⟨ys, hys, h⟩ := except_bind_eq_ok.mp h
    cases h
    exact .cons hy (ih hys)

/-- The data node at an input of an operator that is read nowhere else. -/
def Feeds (g : Graph α) (op : NodeId) (port : Nat) (data : NodeId) : Prop :=
  g.view.input ⟨op, port⟩ = some data ∧ ∀ q, g.view.input q = some data → q = ⟨op, port⟩

/-- A port is fed by one data node, which feeds it alone. -/
theorem feeds_biUnique {op : NodeId} : Relator.BiUnique (Feeds g op) := by
  constructor
  · intro port data port' h h'
    injection h'.2 _ h.1
  · intro port data data' h h'
    exact Option.some.inj (h.1.symm.trans h'.1)

/-- The thresholds that are found feed their ports, one by one. -/
theorem thresholdNodes_eq_ok (hg : g.WellFormed) {quantize : NodeId}
    (hop : g.kind? quantize = some .op) {ports : List Nat} {nodes : List NodeId}
    (h : thresholdNodes g quantize ports = .ok nodes) :
    ports.Forall₂ (Feeds g quantize) nodes := by
  induction ports generalizing nodes with
  | nil =>
    cases h
    exact .nil
  | cons port ports ih =>
    rw [thresholdNodes] at h
    split at h
    case h_2 => cases h
    rename_i first hfirst
    dsimp only at h
    split at h
    case isTrue => cases h
    rename_i hone
    rw [ne_eq, not_not] at hone
    obtain ⟨rest, hrest, h⟩ := except_bind_eq_ok.mp h
    cases h
    rw [← view_input_of_op hop] at hfirst
    have hdata := (hg.view_input_kinds hfirst).2
    exact .cons ⟨hfirst, fun q hq => hg.view_input_unique hdata hone hq hfirst⟩ (ih hrest)

/-- The pattern leaves one operation for each of the two operators. -/
theorem matched_operations (hg : g.WellFormed) {pat : Pattern} (hpat : pattern = .ok pat)
    {m : Match} (hm : m ∈ pat.allMatches g) {mul quantize : NodeId}
    (hmul : m.get "preop" = .ok mul) (hquantize : m.get "quantize" = .ok quantize) :
    (∃ inference, g.operator? mul = some ⟨.mul, inference⟩) ∧
      ∃ levels inference, g.operator? quantize = some ⟨.quantize levels, inference⟩ := by
  have hfits := (Pattern.mem_allMatches_iff hg hpat).mp hm
  constructor
  · obtain ⟨⟨operation, inference⟩, ho, htype⟩ := hfits.operator_type .mul (by simp) hmul
    cases operation with
    | mul => exact ⟨inference, ho⟩
    | _ => cases htype
  · obtain ⟨⟨operation, inference⟩, ho, htype⟩ :=
      hfits.operator_type .quantize (by simp) hquantize
    cases operation with
    | quantize levels => exact ⟨levels, inference, ho⟩
    | _ => cases htype

variable [Scalar α]

/-- A constant that is read is the value of its node. -/
theorem exists_value_of_floatConstant? {data : NodeId} {constant : Constant α} {type : ElementType}
    (h : floatConstant? g data = .ok (some (constant, type))) :
    ∃ c value, g.content? data = some c ∧ c.value = some value ∧ value.type = type ∧
      value.shape = constant.shape ∧ value.floats = .ok constant.values := by
  obtain ⟨c, hc, h⟩ := except_bind_eq_ok.mp h
  rw [content_eq_ok] at hc
  split at h
  · cases h
  · rename_i value hvalue
    split at h
    · obtain ⟨floats, hfloats, h⟩ := except_bind_eq_ok.mp h
      cases h
      exact ⟨c, value, hc, hvalue, rfl, rfl, hfloats⟩
    · cases h

theorem floatConstant?_eq_ok {data : NodeId} {constant : Constant α} {type : ElementType}
    (h : floatConstant? g data = .ok (some (constant, type))) :
    ∃ c value, g.content? data = some c ∧ c.value = some value ∧ value.shape = constant.shape ∧
      value.floats = .ok constant.values := by
  obtain ⟨c, value, hc, hvalue, -, hrest⟩ := exists_value_of_floatConstant? h
  exact ⟨c, value, hc, hvalue, hrest⟩

/-- The constants that are read are those of the nodes, one by one. -/
theorem thresholdConstants_eq_ok {nodes : List NodeId} {constants : List (Constant α × ElementType)}
    (h : thresholdConstants g nodes = .ok constants) :
    nodes.Forall₂ (fun data constant => floatConstant? g data = .ok (some constant)) constants := by
  induction nodes generalizing constants with
  | nil =>
    cases h
    exact .nil
  | cons first nodes ih =>
    rw [thresholdConstants] at h
    obtain ⟨found, hfound, h⟩ := planning_bind_eq_ok.mp h
    split at h
    case h_2 => cases h
    rename_i constant
    obtain ⟨rest, hrest, h⟩ := except_bind_eq_ok.mp h
    cases h
    exact .cons hfound (ih hrest)

section Thresholds

variable {nodes : List NodeId} {tensors : List (Tensor α)}
  (hp : p.thresholds = nodes.zip tensors)
  (hfeeds : thresholdPorts.Forall₂ (Feeds g p.quantize) nodes)
include hp hfeeds

/-- Each new threshold goes to a node that only the quantizer reads. -/
theorem thresholds_read {constants : List (Constant α × ElementType)}
    (hvalues : nodes.Forall₂ (fun data c => floatConstant? g data = .ok (some c)) constants) :
    ∀ t ∈ p.thresholds, ∃ port ∈ thresholdPorts,
      g.view.input ⟨p.quantize, port⟩ = some t.1 ∧
      (∀ q, g.view.input q = some t.1 → q = ⟨p.quantize, port⟩) ∧
      ∃ c value, g.content? t.1 = some c ∧ c.value = some value := by
  intro t ht
  rw [hp] at ht
  have hmem := (List.of_mem_zip ht).1
  obtain ⟨port, hport, hfed⟩ := forall₂_exists_left hfeeds hmem
  obtain ⟨constant, -, hconstant⟩ := forall₂_exists_left hvalues.flip hmem
  obtain ⟨c, value, hc, hvalue, -⟩ := floatConstant?_eq_ok hconstant
  exact ⟨port, hport, hfed.1, hfed.2, c, value, hc, hvalue⟩

omit [Scalar α] in
/-- No threshold is written twice. -/
theorem thresholds_nodup (hlength : nodes.length ≤ tensors.length) :
    (p.thresholds.map Prod.fst).Nodup := by
  rw [hp, List.map_fst_zip hlength]
  exact (List.rel_nodup feeds_biUnique hfeeds).mp (by decide)

/-- The nodes, the constants there, and the tensors to be stored are three lists of four. -/
theorem thresholds_replaced (old new : Thresholds α) {t₁ t₂ t₃ t₄ : ElementType}
    (hvalues : nodes.Forall₂ (fun data c => floatConstant? g data = .ok (some c))
      [(old.minIn, t₁), (old.maxIn, t₂), (old.minOut, t₃), (old.maxOut, t₄)])
    (hbuilt : List.Forall₂ (fun c t => toTensor c.1 c.2 = .ok t)
      [(new.minIn, t₁), (new.maxIn, t₂), (new.minOut, t₃), (new.maxOut, t₄)] tensors) :
    Replaces g p 1 old.minIn new.minIn ∧ Replaces g p 2 old.maxIn new.maxIn ∧
      Replaces g p 3 old.minOut new.minOut ∧ Replaces g p 4 old.maxOut new.maxOut := by
  obtain _ | ⟨hfed₁, _ | ⟨hfed₂, _ | ⟨hfed₃, _ | ⟨hfed₄, _ | _⟩⟩⟩⟩ := hfeeds
  obtain _ | ⟨hold₁, _ | ⟨hold₂, _ | ⟨hold₃, _ | ⟨hold₄, _ | _⟩⟩⟩⟩ := hvalues
  obtain _ | ⟨hnew₁, _ | ⟨hnew₂, _ | ⟨hnew₃, _ | ⟨hnew₄, _ | _⟩⟩⟩⟩ := hbuilt
  refine ⟨⟨_, _, _, ?_, hfed₁.1, hold₁, hnew₁⟩, ⟨_, _, _, ?_, hfed₂.1, hold₂, hnew₂⟩,
    ⟨_, _, _, ?_, hfed₃.1, hold₃, hnew₃⟩, ⟨_, _, _, ?_, hfed₄.1, hold₄, hnew₄⟩⟩ <;> simp [hp]

end Thresholds

/-- What an accepted plan says about the graph, and what it has computed. -/
theorem plan_folds (hg : g.WellFormed) {pat : Pattern} (hpat : pattern = .ok pat) {m : Match}
    (hm : m ∈ pat.allMatches g) (h : plan m g = .ok p) :
    ∃ tensor multiplier shape factors old new,
      Accepted g p tensor multiplier shape ∧ Folds m g p multiplier shape factors old new := by
  have hfits := (Pattern.mem_allMatches_iff hg hpat).mp hm
  rw [plan] at h
  obtain ⟨mul, hmul, h⟩ := planning_bind_eq_ok.mp h
  obtain ⟨product, hproduct, h⟩ := planning_bind_eq_ok.mp h
  obtain ⟨quantize, hquantize, h⟩ := planning_bind_eq_ok.mp h
  obtain ⟨⟨inference', hmulOperator⟩, levels, inference, ho⟩ :=
    matched_operations hg hpat hm hmul hquantize
  obtain ⟨o, ho', h⟩ := planning_bind_eq_ok.mp h
  obtain rfl : ⟨.quantize levels, inference⟩ = o :=
    Option.some.inj (ho.symm.trans (operator_eq_ok.mp ho'))
  obtain ⟨hlevels, h⟩ := planning_halt_unless_eq_ok.mp h
  obtain ⟨hone, h⟩ := planning_halt_if_eq_ok.mp h
  rw [ne_eq, not_not] at hone
  obtain ⟨nodes, hnodes, h⟩ := except_bind_eq_ok.mp h
  obtain ⟨lhs, hlhs, h⟩ := planning_bind_eq_ok.mp h
  obtain ⟨rhs, hrhs, h⟩ := planning_bind_eq_ok.mp h
  obtain ⟨lhsContent, hlhsContent, h⟩ := planning_bind_eq_ok.mp h
  obtain ⟨rhsContent, hrhsContent, h⟩ := planning_bind_eq_ok.mp h
  obtain ⟨_, h⟩ := planning_halt_if_eq_ok.mp h
  obtain ⟨found, hfound, h⟩ := planning_bind_eq_ok.mp h
  cases found with
  | none => cases h
  | some found =>
  obtain ⟨factor, type⟩ := found
  obtain ⟨hzeros, h⟩ := planning_halt_if_eq_ok.mp h
  obtain ⟨tensorContent, htensor, h⟩ := planning_bind_eq_ok.mp h
  cases hshape : tensorContent.knownShape with
  | none =>
    rw [hshape] at h
    cases h
  | some shape =>
  rw [hshape] at h
  obtain ⟨habsorbs, h⟩ := planning_halt_unless_eq_ok.mp h
  obtain ⟨constants, hconstants, h⟩ := except_bind_eq_ok.mp h
  -- the plan goes on with four thresholds only
  rcases constants with _ | ⟨⟨a, t₁⟩, _ | ⟨⟨b, t₂⟩, _ | ⟨⟨c, t₃⟩, _ | ⟨⟨d, t₄⟩, _ | _⟩⟩⟩⟩
  case cons.cons.cons.cons.nil =>
    obtain ⟨folded, hfolded, h⟩ := planning_bind_eq_ok.mp h
    cases folded with
    | none => cases h
    | some folded =>
    dsimp only at h
    split at h
    case h_1 => cases h
    rename_i hparts
    obtain ⟨tensors, htensors, h⟩ := planning_bind_eq_ok.mp h
    cases h
    have hreads := hfits.input_eq hg (k := 0) (by simp) (by simp) hproduct hquantize
    have hdata := hfits.kind_eq_data (by simp) hproduct
    rw [operand_eq_ok, ← view_input_of_op (kind?_eq_op.mpr ⟨_, hmulOperator⟩)] at hlhs hrhs
    obtain ⟨factorContent, value, hfactor, hvalue, hfactorShape, -⟩ := floatConstant?_eq_ok hfound
    rw [← hfactorShape] at habsorbs
    have hfeeds := thresholdNodes_eq_ok hg (kind?_eq_op.mpr ⟨_, ho⟩) hnodes
    have hvalues := thresholdConstants_eq_ok hconstants
    have hbuilt := except_mapM_forall₂ htensors
    have hlength : nodes.length = tensors.length := hvalues.length_eq.trans hbuilt.length_eq
    have habsorbed := List.find?_eq_none.mp
      (Option.eq_none_iff_forall_ne_some.mpr (Prod.forall.mpr hparts))
    obtain ⟨hminIn, hmaxIn, hminOut, hmaxOut⟩ := thresholds_replaced
      (p := ⟨mul, _, product, quantize, nodes.zip tensors⟩) rfl hfeeds
      ⟨a, b, c, d⟩ folded hvalues hbuilt
    refine ⟨if lhsContent.isConstant then rhs else lhs, if lhsContent.isConstant then lhs else rhs,
      shape, factor, ⟨a, b, c, d⟩, folded, ?_, ?_⟩
    case refine_1 =>
      refine {
        mul := ⟨_, hmulOperator⟩
        quantize := ⟨_, _, ho⟩
        makes := hfits.output_eq hg (k := 0) (by simp) (by simp) hmul hproduct
        reads := hreads
        one_reader := fun q hq => hg.view_input_unique hdata hone hq hreads
        port := ?_
        takes_tensor := ?_
        takes_multiplier := ?_
        tensor := ⟨tensorContent, content_eq_ok.mp htensor, hshape⟩
        multiplier := ⟨factorContent, value, hfactor, hvalue, habsorbs⟩
        thresholds := thresholds_read rfl hfeeds hvalues }
      all_goals
        dsimp only
        split
      exacts [by decide, by decide, hrhs, hlhs, hlhs, hrhs]
    case refine_2 =>
      exact {
        roles := ⟨hmul, hproduct, hquantize⟩
        binary := ⟨_, _, ho, hlevels⟩
        constant := ⟨_, hfound⟩
        nonzero := by simpa using hzeros
        folded := hfolded
        absorbed := by simpa [Thresholds.parts] using habsorbed
        distinct := thresholds_nodup rfl hfeeds (Nat.le_of_eq hlength)
        minIn := hminIn
        maxIn := hmaxIn
        minOut := hminOut
        maxOut := hmaxOut }
  all_goals cases h

/-- What a plan of a multiplier says about the graph. -/
theorem plan_accepted (hg : g.WellFormed) {pat : Pattern} (hpat : pattern = .ok pat) {m : Match}
    (hm : m ∈ pat.allMatches g) (h : plan m g = .ok p) :
    ∃ tensor multiplier shape, Accepted g p tensor multiplier shape := by
  obtain ⟨tensor, multiplier, shape, -, -, -, ha, -⟩ := plan_folds hg hpat hm h
  exact ⟨tensor, multiplier, shape, ha⟩

/-! ## The commit -/

omit [Scalar α]

/-- The graph with new values at data nodes. -/
def stored (v : View α) (values : List (NodeId × Tensor α)) : View α :=
  values.foldl (fun v t => v.store t.1 t.2) v

section Stored

variable {v : View α} {values : List (NodeId × Tensor α)} {d : NodeId}

/-- Storing tensors connects nothing and takes nothing apart. -/
@[simp] theorem stored_input : (stored v values).input = v.input := by
  induction values generalizing v with
  | nil => rfl
  | cons t values ih => exact ih.trans View.store_input

@[simp] theorem stored_output : (stored v values).output = v.output := by
  induction values generalizing v with
  | nil => rfl
  | cons t values ih => exact ih.trans View.store_output

/-- Storing tensors leaves all other nodes as they are. -/
theorem stored_node_of_not_mem (hd : ∀ t ∈ values, d ≠ t.1) :
    (stored v values).node d = v.node d := by
  induction values generalizing v with
  | nil => rfl
  | cons t values ih =>
    exact (ih fun t' ht' => hd t' (List.mem_cons_of_mem _ ht')).trans
      (View.store_node_of_ne (hd t List.mem_cons_self))

/-- Content stays content; what is written to a node is a value with its shape. -/
theorem stored_content {c : Content α} (hc : v.content d = some c) :
    ∃ c', (stored v values).content d = some c' ∧
      (c' = c ∨ ∃ value, c' = { c with value := some value, shape := some value.shape }) := by
  induction values generalizing v c with
  | nil => exact ⟨c, hc, .inl rfl⟩
  | cons t values ih =>
    by_cases hd : d = t.1
    · subst hd
      obtain ⟨c', hc', h⟩ := ih (View.store_content_self hc)
      refine ⟨c', hc', .inr ?_⟩
      rcases h with rfl | ⟨value, rfl⟩
      · exact ⟨t.2, rfl⟩
      · exact ⟨value, rfl⟩
    · refine ih ?_
      rw [View.content, View.store_node_of_ne hd]
      exact hc

@[simp] theorem stored_kind : (stored v values).kind d = v.kind d := by
  induction values generalizing v with
  | nil => rfl
  | cons t values ih => exact ih.trans View.store_kind

/-- Storing values needs data nodes and nothing else. -/
theorem runs_stored {notes : List LogEntry} {Q : Unit → Graph α → Prop} {E : Graph α → Prop}
    {rank : NodeId → Nat} (hg : g.Presents v rank)
    (hdata : ∀ t ∈ values, v.kind t.1 = some .data)
    (h : ∀ g', g'.Presents (stored v values) rank → Q () g') :
    Runs (values.forM fun (data, value) =>
      modifyContent data fun d => { d with value := some value, shape := some value.shape })
      ⟨g, notes⟩ Q E := by
  induction values generalizing g v notes with
  | nil => exact runs_pure (h g hg)
  | cons t values ih =>
    refine runs_bind (hg.runs_store (hdata t List.mem_cons_self) fun g₁ h₁ notes => ?_)
    refine ih h₁ (fun t' ht' => ?_) h
    rw [View.store_kind]
    exact hdata t' (List.mem_cons_of_mem _ ht')

end Stored

/-- The graph in which the quantisation has new thresholds and reads the tensor, and the
multiplication does not. -/
def switched (v : View α) (p : Plan α) (tensor : NodeId) : View α :=
  (((stored v p.thresholds).unplug ⟨p.quantize, 0⟩).unplug ⟨p.mul, p.tensorPort⟩).feed tensor
    ⟨p.quantize, 0⟩

/-- The graph without the multiplication. -/
def fused (v : View α) (p : Plan α) (tensor : NodeId) : View α :=
  ((switched v p tensor).erase p.mul).erase p.product

namespace Accepted

variable {tensor multiplier : NodeId} {shape : Shape} (ha : Accepted g p tensor multiplier shape)
include ha

/-- The tensor, the multiplier, its product and the quantizer follow each other. -/
theorem chain {rank : NodeId → Nat} (hrank : g.view.Ranked rank) :
    rank tensor < rank p.mul ∧ rank p.mul < rank p.product ∧ rank p.product < rank p.quantize :=
  ⟨hrank.1 _ _ ha.takes_tensor, hrank.2 _ _ ha.makes, hrank.1 _ _ ha.reads⟩

variable (hg : g.WellFormed)
include hg

theorem mul_ne_quantize : p.mul ≠ p.quantize := by
  obtain ⟨-, h₁, h₂⟩ := ha.chain (hg.ranked_view.mpr hg.ranked_topologicalOrder)
  intro h
  rw [h] at h₁
  exact absurd h₁ (Nat.lt_asymm h₂)

theorem tensor_ne_product : tensor ≠ p.product := by
  obtain ⟨h₁, h₂, -⟩ := ha.chain (hg.ranked_view.mpr hg.ranked_topologicalOrder)
  intro h
  rw [h] at h₁
  exact absurd h₁ (Nat.lt_asymm h₂)

/-- After the switch, the quantizer reads the tensor and the multiplier reads nothing. -/
theorem switched_input_iff {q : InputPort} {d : NodeId} :
    (switched g.view p tensor).input q = some d ↔
      (q = ⟨p.quantize, 0⟩ ∧ d = tensor) ∨
        (q ≠ ⟨p.quantize, 0⟩ ∧ q ≠ ⟨p.mul, p.tensorPort⟩ ∧ g.view.input q = some d) := by
  have hne := ha.mul_ne_quantize hg
  simp only [switched, View.feed_input, View.unplug_input, stored_input, Function.update_apply]
  grind

/-- Once the tensor is switched, the multiplication can be removed unless one of its other results
is needed. -/
theorem removable_mul :
    (switched g.view p tensor).Removable p.mul ↔ ¬ g.view.Strands p.mul p.product p.mul := by
  have hrank := hg.ranked_view.mpr hg.ranked_topologicalOrder
  obtain ⟨h₁, h₂, h₃⟩ := ha.chain hrank
  have hop : (switched g.view p tensor).kind p.mul = some .op :=
    stored_kind.trans (hg.view_output_kinds ha.makes).1
  rw [View.removable_op hop]
  constructor
  · rintro h ⟨i, d, q, c, hmakes, hne, hreads, -, hc, hvalue⟩
    refine h i d (by simpa [switched] using hmakes) ⟨⟨q, ?_⟩, c, ?_, hvalue⟩
    · refine (ha.switched_input_iff hg).mpr (.inr ⟨?_, ?_, hreads⟩)
      · rintro rfl
        exact hne (Option.some.inj (hreads.symm.trans ha.reads))
      · rintro rfl
        obtain rfl := Option.some.inj (hreads.symm.trans ha.takes_tensor)
        exact absurd (hrank.2 _ _ hmakes) (Nat.lt_asymm h₁)
    · refine (congrArg (Option.bind · Node.content?) (stored_node_of_not_mem ?_)).trans hc
      rintro t ht rfl
      obtain ⟨-, -, -, -, c', value, hc', hvalue'⟩ := ha.thresholds t ht
      obtain rfl := Option.some.inj (hc.symm.trans hc')
      exact absurd (hvalue.symm.trans hvalue') (by simp)
  · rintro h i d hmakes ⟨⟨q, hq⟩, c', hc', hvalue⟩
    replace hmakes : g.view.output ⟨p.mul, i⟩ = some d := by simpa [switched] using hmakes
    have hlow := hrank.2 _ _ hmakes
    rcases (ha.switched_input_iff hg).mp hq with ⟨-, rfl⟩ | ⟨hq₁, -, hreads⟩
    · exact absurd hlow (Nat.lt_asymm h₁)
    · obtain ⟨c, hc⟩ := kind?_eq_data.mp (hg.view_output_kinds hmakes).2
      obtain ⟨c'', hc'', hsame⟩ : ∃ c'', (stored g.view p.thresholds).content d = some c'' ∧ _ :=
        stored_content hc
      obtain rfl : c' = c'' := Option.some.inj (hc'.symm.trans hc'')
      rcases hsame with rfl | ⟨value, rfl⟩
      · refine h ⟨i, d, q, c', hmakes, ?_, hreads, ?_, hc, hvalue⟩
        · rintro rfl
          exact hq₁ (ha.one_reader q hreads)
        · intro hnode
          have hhigh := hrank.1 _ _ hreads
          rw [hnode] at hhigh
          exact absurd hlow (Nat.lt_asymm hhigh)
      · cases hvalue

end Accepted

/-- The edits in front of the removals, which cannot fail. -/
theorem runs_switch {notes : List LogEntry} {Q : Unit → Graph α → Prop} {E : Graph α → Prop}
    {rank : NodeId → Nat} (hg : g.Presents g.view rank) {tensor multiplier : NodeId} {shape : Shape}
    (ha : Accepted g p tensor multiplier shape) {rest : Edit α Unit}
    (hrest : ∀ g' notes, g'.Presents (switched g.view p tensor) rank → Runs rest ⟨g', notes⟩ Q E) :
    Runs (do
      p.thresholds.forM fun (data, value) =>
        Edit.modifyContent data fun d => { d with value := some value, shape := some value.shape }
      let _ ← Edit.unplug ⟨p.quantize, 0⟩
      Edit.moveInput ⟨p.mul, p.tensorPort⟩ ⟨p.quantize, 0⟩
      rest) ⟨g, notes⟩ Q E := by
  obtain ⟨hr₁, hr₂, hr₃⟩ := ha.chain hg.ranked
  have hne := ha.mul_ne_quantize hg.wellFormed
  refine runs_bind (runs_stored hg (fun t ht => ?_) fun g₁ h₁ _ => ?_)
  · obtain ⟨port, -, hreads, -⟩ := ha.thresholds t ht
    exact (hg.wellFormed.view_input_kinds hreads).2
  refine runs_bind (h₁.runs_unplug (by simpa using ha.reads) fun g₂ h₂ _ => ?_)
  refine runs_bind (h₂.runs_moveInput (d := tensor) ?_ ?_ ?_ ?_ fun g₃ h₃ _ => hrest _ _ h₃)
  · simpa [hne] using ha.takes_tensor
  · exact stored_kind.trans (hg.wellFormed.view_input_kinds ha.reads).1
  · simp
  · exact Nat.lt_trans hr₁ (Nat.lt_trans hr₂ hr₃)

/-- The commit of an accepted plan fuses the multiplication, unless another result of it is needed:
then the tensor has been switched and the multiplication stays. -/
theorem runs_commit {notes : List LogEntry} {Q : Unit → Graph α → Prop} {E : Graph α → Prop}
    (hg : g.WellFormed) {tensor multiplier : NodeId} {shape : Shape}
    (ha : Accepted g p tensor multiplier shape)
    (hfused : ¬ g.view.Strands p.mul p.product p.mul → ∀ g', g'.WellFormed →
      g'.view = fused g.view p tensor → Q () g')
    (hstranded : g.view.Strands p.mul p.product p.mul → ∀ g', g' ≠ g → E g') :
    Runs (commit p) ⟨g, notes⟩ Q E := by
  obtain ⟨hmul, hproduct⟩ := hg.view_output_kinds ha.makes
  have hmul' : (switched g.view p tensor).kind p.mul = some .op := stored_kind.trans hmul
  have hproduct' : ((switched g.view p tensor).erase p.mul).kind p.product = some .data := by
    rw [View.erase_kind_of_ne (op_ne_data hmul hproduct).symm]
    exact stored_kind.trans hproduct
  refine runs_switch (hg.presents hg.ranked_topologicalOrder) ha fun g₃ _ h₃ => ?_
  refine runs_bind (h₃.runs_removeNode (View.node_ne_none_of_kind hmul')
    (fun hremovable _ g₄ h₄ _ => ?_) fun hrefused => ?_)
  · have hkept := (ha.removable_mul hg).mp hremovable
    refine runs_bind (h₄.runs_removeNode (View.node_ne_none_of_kind hproduct')
      (fun _ _ g₅ h₅ _ => runs_pure (hfused hkept g₅ h₅.wellFormed h₅.view_eq)) fun hrefused => ?_)
    refine absurd (View.removable_data hproduct' fun q hq => ?_) hrefused
    rcases (ha.switched_input_iff hg).mp (View.erase_input_iff.mp hq).2.2 with
      ⟨-, h⟩ | ⟨hq, -, h⟩
    · exact ha.tensor_ne_product hg h.symm
    · exact hq (ha.one_reader q h)
  · refine hstranded ?_ g₃ ?_
    · exact not_not.mp fun h => hrefused ((ha.removable_mul hg).mpr h)
    · rintro rfl
      have hself := congrFun (congrArg View.input h₃.view_eq) ⟨p.quantize, 0⟩
      rw [ha.reads, switched, View.feed_input, Function.update_self] at hself
      exact ha.tensor_ne_product hg (Option.some.inj hself).symm

end TensorGraph.MultiplierRule
