/-
  How the offers of rules fail.

  A round that is stopped because it has no step left fails with an error of its own.  No plan and
  no commit of a built-in rule fails with this error (`throwsOnly_offer`), so where it does not show
  the rounds have come to an end.

  An error is `Genuine` if it is not that one.  Planning is arithmetic on words, lookups and guards,
  and each of them fails with errors of its own, so the plans of all rules are gone through from
  their parts up: checked arithmetic and broadcasting first (`failsOnly_broadcastTo`), then one
  section for each rule with its plan (`failsOnly_plan`) and its commit (`refuses_commit`), which
  can only be refused.
-/
import TensorGraph.Proofs.Graph.Errors
import TensorGraph.Proofs.Reachable

namespace TensorGraph

open Edit TensorGraph.Graph

variable {α β π : Type}

/-- Any error but that a rule was stopped. -/
def Genuine (error : Error) : Prop :=
  error ≠ .exhausted

/-- A refusal is not the error of a rule that was stopped. -/
theorem Refusal.genuine {error : Error} (h : Refusal error) : Genuine error := by
  rintro rfl
  cases h

/-! ## Plans -/

/-- If the plan fails then with such an error; it may decline. -/
def Halt.Genuine : Halt → Prop
  | .fail error => TensorGraph.Genuine error
  | .decline _ => True

/-- A plan fails with what it looks up fails with. -/
theorem failsOnly_lift {e : Except Error β} (h : FailsOnly Genuine e) :
    FailsOnly Halt.Genuine (liftM e : Planning β) := by
  cases e with
  | ok b => exact failsOnly_pure b
  | error error => exact failsOnly_throw (h error rfl)

/-- What is refused to a plan does not stop it. -/
theorem failsOnly_refusal {e : Except Error β} (h : FailsOnly Refusal e) :
    FailsOnly Halt.Genuine (liftM e : Planning β) :=
  failsOnly_lift (h.imp fun _ => Refusal.genuine)

/-- A role without a node is an error of its own. -/
theorem failsOnly_get (m : Match) (role : String) :
    FailsOnly Halt.Genuine (liftM (m.get role) : Planning NodeId) := by
  refine failsOnly_lift ?_
  rw [Match.get]
  split
  · exact failsOnly_pure _
  · exact failsOnly_throw Error.noConfusion

/-- To decline is not to fail. -/
theorem failsOnly_decline : FailsOnly Halt.Genuine (Planning.decline : Planning β) :=
  failsOnly_throw trivial

theorem failsOnly_declineWith (note : String) :
    FailsOnly Halt.Genuine (Planning.declineWith note : Planning β) :=
  failsOnly_throw trivial

/-- A rule that plans and then commits fails with an error of its plan or with a refusal. -/
theorem throwsOnly_planThenCommit {name : String} {plan : Graph α → Planning π}
    {commit : π → Edit α Unit} (hplan : ∀ g, FailsOnly Halt.Genuine (plan g))
    (hcommit : ∀ planned, ThrowsOnly Refusal (commit planned)) :
    ThrowsOnly Genuine (planThenCommit name plan commit) := by
  refine throwsOnly_graph.bind fun g => ?_
  split
  · rename_i error hfail
    exact throwsOnly_throw (hplan g (.fail error) hfail)
  · exact throwsOnly_pure _
  · exact (throwsOnly_log _ _).bind fun _ => throwsOnly_pure _
  · exact ((hcommit _).imp fun _ => Refusal.genuine).bind fun _ => throwsOnly_pure _

/-! ## Arithmetic -/

section Arithmetic

/-- A product that is no word is an error of its own, and so are sums and lists that are too large.
-/
theorem failsOnly_checkedMul (a b : Nat) : FailsOnly Genuine (checkedMul a b) := by
  rw [checkedMul]
  split
  · exact failsOnly_pure _
  · exact failsOnly_throw Error.noConfusion

theorem failsOnly_checkedAdd (a b : Nat) : FailsOnly Genuine (checkedAdd a b) := by
  rw [checkedAdd]
  split
  · exact failsOnly_pure _
  · exact failsOnly_throw Error.noConfusion

theorem failsOnly_reserve (count : Nat) : FailsOnly Genuine (reserve count) := by
  rw [reserve]
  split
  · exact failsOnly_pure _
  · exact failsOnly_throw Error.noConfusion

/-- Counting elements fails for a product at most. -/
theorem failsOnly_count (shape : Shape) : FailsOnly Genuine shape.count := by
  have hfold : ∀ (dims : List Nat) (start : Nat), FailsOnly Genuine (dims.foldlM checkedMul start) := by
    intro dims
    induction dims with
    | nil => exact fun _ => failsOnly_pure _
    | cons d dims ih =>
      intro start
      rw [List.foldlM_cons]
      exact (failsOnly_checkedMul start d).bind ih
  exact hfold shape 1

/-- Strides fail for a product at most. -/
theorem failsOnly_strides (shape : Shape) : FailsOnly Genuine shape.strides := by
  induction shape with
  | nil => exact failsOnly_pure _
  | cons d shape ih =>
    exact ih.bind fun _ => (failsOnly_checkedMul _ _).bind fun _ => failsOnly_pure _

/-- The next index fails for a sum at most. -/
theorem failsOnly_advance (shape : Shape) (index : List Nat) :
    FailsOnly Genuine (shape.advance index) := by
  induction shape generalizing index with
  | nil => exact failsOnly_pure _
  | cons d shape ih =>
    cases index with
    | nil => exact failsOnly_pure _
    | cons i index =>
      refine (ih index).bind fun moved => ?_
      obtain ⟨inner, carry⟩ := moved
      cases carry with
      | true => exact (failsOnly_checkedAdd _ _).bind fun _ => failsOnly_pure _
      | false => exact failsOnly_pure _

/-- An offset fails for a product or a sum at most. -/
theorem failsOnly_addOffset (sum : Nat) (index strides : List Nat) :
    FailsOnly Genuine (Shape.addOffset sum index strides) := by
  induction index generalizing sum strides with
  | nil => exact failsOnly_pure _
  | cons i index ih =>
    cases strides with
    | nil => exact failsOnly_pure _
    | cons stride strides =>
      exact (failsOnly_checkedMul _ _).bind fun _ =>
        (failsOnly_checkedAdd _ _).bind fun _ => ih _ _

/-- A walk over all indices fails as one of its steps does. -/
theorem failsOnly_walk (values : Array β) (shape : Shape) (strides : List Nat) (count : Nat)
    (index : List Nat) (out : Array β) :
    FailsOnly Genuine (walk values shape strides count index out) := by
  induction count generalizing index out with
  | zero => exact failsOnly_pure _
  | succ count ih =>
    refine (failsOnly_addOffset _ _ _).bind fun offset => FailsOnly.bind ?_ fun _ =>
      (failsOnly_advance _ _).bind fun _ => ih _ _
    rw [elementAt]
    split
    · exact failsOnly_pure _
    · exact failsOnly_throw Error.noConfusion

/-! A computation without a result does not fail. -/

section Partial

variable {γ ε : Type} {F : ε → Prop} {x : OptionT (Except ε) β} {f : β → OptionT (Except ε) γ}

/-- A computation that may have no result fails in one of its parts. -/
theorem failsOnly_run_bind (hx : FailsOnly F x.run) (hf : ∀ b, FailsOnly F (f b).run) :
    FailsOnly F (x >>= f).run := by
  refine FailsOnly.bind hx fun result => ?_
  cases result with
  | none => exact failsOnly_pure _
  | some b => exact hf b

theorem failsOnly_run_pure (b : β) : FailsOnly F (pure b : OptionT (Except ε) β).run :=
  failsOnly_pure _

theorem failsOnly_run_failure : FailsOnly F (failure : OptionT (Except ε) β).run :=
  failsOnly_pure _

theorem failsOnly_run_when {c : Prop} [Decidable c] {g : PUnit → OptionT (Except ε) γ}
    (hg : ∀ u, FailsOnly F (g u).run) :
    FailsOnly F (if c then failure >>= g else g ⟨⟩ : OptionT (Except ε) γ).run := by
  split
  · exact failsOnly_pure _
  · exact hg ⟨⟩

theorem failsOnly_run_lift {e : Except ε β} (h : FailsOnly F e) :
    FailsOnly F (liftM e : OptionT (Except ε) β).run :=
  h.bind fun _ => failsOnly_pure _

end Partial

/-- Broadcasting fails for a size or for the room at most. -/
theorem failsOnly_broadcastTo (values : List β) (shape target : Shape) :
    FailsOnly Genuine (broadcastTo values shape target).run := by
  refine failsOnly_run_when fun _ => failsOnly_run_bind (failsOnly_run_lift (failsOnly_count _))
    fun expected => ?_
  refine failsOnly_run_when fun _ => ?_
  exact failsOnly_run_bind (failsOnly_run_lift (failsOnly_strides _)) fun _ =>
    failsOnly_run_bind (failsOnly_run_lift (failsOnly_count _)) fun _ =>
    failsOnly_run_bind (failsOnly_run_lift (failsOnly_reserve _)) fun _ =>
    failsOnly_run_bind (failsOnly_run_lift (failsOnly_walk _ _ _ _ _ _)) fun _ =>
    failsOnly_run_pure _

end Arithmetic

/-! ## Tiles -/

namespace TileRule

/-- The plan of a tile is not stopped. -/
theorem failsOnly_plan (m : Match) (g : Graph α) : FailsOnly Halt.Genuine (plan m g) := by
  refine (failsOnly_get m _).bind fun tile =>
    (failsOnly_refusal (g.refuses_operator tile)).bind fun o => ?_
  split
  case h_2 => exact failsOnly_decline
  refine (failsOnly_refusal (g.refuses_operand _)).bind fun input => ?_
  split
  case h_2 => exact failsOnly_declineWith _
  refine (failsOnly_refusal (g.refuses_content _)).bind fun before =>
    (failsOnly_refusal (g.refuses_content _)).bind fun after => ?_
  split
  case h_2 => exact failsOnly_declineWith _
  split
  case h_2 => exact failsOnly_declineWith _
  refine failsOnly_when failsOnly_decline fun _ => failsOnly_when (failsOnly_throw ?_) fun _ =>
    failsOnly_when (failsOnly_declineWith _) fun _ => ?_
  · exact Error.noConfusion
  · exact (failsOnly_refusal (g.refuses_node _)).bind fun _ => failsOnly_pure _

/-- A tile is wrapped by edits, each of which may be refused. -/
theorem refuses_commit (p : Plan) : ThrowsOnly Refusal (commit p : Edit α Unit) :=
  throwsOnly_graph.bind fun _ => (refuses_addNode _ _).bind fun _ =>
  throwsOnly_graph.bind fun _ => (refuses_addNode _ _).bind fun _ =>
  throwsOnly_graph.bind fun _ => (refuses_addNode _ _).bind fun _ =>
  throwsOnly_graph.bind fun _ => (refuses_addNode _ _).bind fun _ =>
  (refuses_produce _ _).bind fun _ => (refuses_produce _ _).bind fun _ =>
  (refuses_moveReaders _ _).bind fun _ => (refuses_moveInput _ _).bind fun _ =>
  (refuses_feed _ _).bind fun _ => (refuses_feed _ _).bind fun _ => refuses_modifyContent _ _

end TileRule

/-! ## Permutes -/

namespace PermuteRule

/-- Reading the order of a permute is not stopped. -/
theorem failsOnly_permutationOf (g : Graph α) (op : NodeId) :
    FailsOnly Genuine (permutationOf g op) := by
  refine ((g.refuses_operator op).imp fun _ => Refusal.genuine).bind fun o => ?_
  split
  · rw [axisOrder]
    split
    · exact failsOnly_pure _
    · exact failsOnly_throw Error.noConfusion
  · exact failsOnly_throw Error.noConfusion

/-- The plan of two permutes is not stopped. -/
theorem failsOnly_plan (m : Match) (g : Graph α) : FailsOnly Halt.Genuine (plan m g) := by
  refine (failsOnly_get m _).bind fun first => (failsOnly_get m _).bind fun mid =>
    (failsOnly_get m _).bind fun second => ?_
  refine failsOnly_when (failsOnly_declineWith _) fun _ => ?_
  refine (failsOnly_lift (failsOnly_permutationOf g first)).bind fun firstOrder =>
    (failsOnly_lift (failsOnly_permutationOf g second)).bind fun secondOrder => ?_
  split
  case h_2 => exact failsOnly_throw Error.noConfusion
  refine (failsOnly_refusal (g.refuses_operand _)).bind fun input => ?_
  split
  case h_2 => exact failsOnly_declineWith _
  exact (failsOnly_refusal (g.refuses_content _)).bind fun _ => failsOnly_pure _

/-- Permutes are joined by edits, each of which may be refused. -/
theorem refuses_commit (p : Plan) : ThrowsOnly Refusal (commit p : Edit α Unit) := by
  rw [commit]
  split
  · exact (refuses_moveReaders _ _).bind fun _ => (refuses_removeNode _).bind fun _ =>
      (refuses_removeNode _).bind fun _ => (refuses_removeNode _).bind fun _ =>
      (refuses_removeNode _).bind fun _ => throwsOnly_pure _
  · exact (refuses_moveReaders _ _).bind fun _ => (refuses_removeNode _).bind fun _ =>
      (refuses_removeNode _).bind fun _ => (refuses_setOperation _ _).bind fun _ =>
      refuses_modifyContent _ _

end PermuteRule

/-! ## Slices -/

namespace SliceRule

/-- The rank of data is refused where there is no data. -/
theorem failsOnly_rank (g : Graph α) (data : Option NodeId) :
    FailsOnly Refusal (rank g data) := by
  rw [rank.eq_def]
  split
  · exact failsOnly_pure _
  · exact (g.refuses_content _).bind fun _ => failsOnly_pure _

/-- Reading integers is not stopped. -/
theorem failsOnly_integers (t : Tensor α) : FailsOnly Genuine t.integers := by
  rw [Tensor.integers]
  split
  · exact failsOnly_pure _
  · exact failsOnly_pure _
  · exact failsOnly_throw Error.noConfusion
  · exact failsOnly_throw Error.noConfusion
  · split <;> exact failsOnly_throw Error.noConfusion

/-- The bounds of a slice are planned one by one, and none of them is stopped. -/
theorem failsOnly_planBounds (g : Graph α) (slice : NodeId) (p : Permutation)
    (ellipsis : Option Nat) (ports : List (Nat × Int64)) :
    FailsOnly Halt.Genuine (planBounds g slice p ellipsis ports) := by
  induction ports with
  | nil => exact failsOnly_pure _
  | cons entry ports ih =>
    rw [planBounds]
    split
    · exact ih
    · refine (failsOnly_refusal (g.refuses_content _)).bind fun c => ?_
      split
      case h_2 => exact failsOnly_declineWith _
      refine failsOnly_unless (failsOnly_declineWith _) fun _ => ?_
      refine (failsOnly_lift (failsOnly_integers _)).bind fun entries => ?_
      exact ih.bind fun _ => failsOnly_pure _

/-- The plan of a slice is not stopped. -/
theorem failsOnly_plan (m : Match) (g : Graph α) : FailsOnly Halt.Genuine (plan m g) := by
  rw [plan]
  refine failsOnly_when failsOnly_decline fun _ => (failsOnly_get m _).bind fun slice =>
    (failsOnly_refusal (g.refuses_operator slice)).bind fun o => ?_
  split
  case h_2 => exact failsOnly_decline
  refine failsOnly_when failsOnly_decline fun _ =>
    (failsOnly_refusal (failsOnly_rank g _)).bind fun inRank =>
    (failsOnly_refusal (failsOnly_rank g _)).bind fun outRank => ?_
  split
  case h_2 => exact failsOnly_declineWith _
  refine failsOnly_when failsOnly_decline fun _ => (failsOnly_lift ?_).bind fun maskRank =>
    (failsOnly_planBounds g _ _ _ _).bind fun _ => failsOnly_pure _
  exact failsOnly_checkedAdd _ _

/-- A bound is stored by edits, in place or in a copy. -/
theorem refuses_storeBound (slice : NodeId) (bound : Bound α) :
    ThrowsOnly Refusal (storeBound slice bound) := by
  refine throwsOnly_graph.bind fun g => ?_
  split
  · exact refuses_modifyContent _ _
  · exact (throwsOnly_query fun g => g.refuses_node _).bind fun _ =>
      throwsOnly_graph.bind fun _ => (refuses_addNode _ _).bind fun _ =>
      throwsOnly_graph.bind fun _ => (refuses_addNode _ _).bind fun _ =>
      (refuses_produce _ _).bind fun _ => (refuses_unplug _).bind fun _ =>
      (refuses_feed _ _).bind fun _ => throwsOnly_log _ _

/-- A slice is rewritten bound by bound. -/
theorem refuses_commit (p : Plan α) : ThrowsOnly Refusal (commit p) :=
  (refuses_setOperation _ _).bind fun _ => throwsOnly_forM fun _ _ => refuses_storeBound _ _

end SliceRule

/-! ## Multiplications -/

namespace MultiplierRule

/-- Finding the thresholds of a quantizer is not stopped. -/
theorem failsOnly_thresholdNodes (g : Graph α) (quantize : NodeId) (ports : List Nat) :
    FailsOnly Halt.Genuine (thresholdNodes g quantize ports) := by
  induction ports with
  | nil => exact failsOnly_pure _
  | cons port ports ih =>
    rw [thresholdNodes]
    split
    · exact failsOnly_when (failsOnly_declineWith _) fun _ => ih.bind fun _ => failsOnly_pure _
    · exact failsOnly_declineWith _

/-- A multiplier is folded by edits, each of which may be refused. -/
theorem refuses_commit (p : Plan α) : ThrowsOnly Refusal (commit p) :=
  (throwsOnly_forM fun _ _ => refuses_modifyContent _ _).bind fun _ =>
  (refuses_unplug _).bind fun _ => (refuses_moveInput _ _).bind fun _ =>
  (refuses_removeNode _).bind fun _ => (refuses_removeNode _).bind fun _ => throwsOnly_pure _

variable [Scalar α]

/-- Dividing a threshold fails as broadcasting does. -/
theorem failsOnly_divide (threshold : Constant α) (factors : List α) (shape : Shape) :
    FailsOnly Genuine (divide threshold factors shape).run := by
  rw [divide]
  split
  · exact failsOnly_run_bind (failsOnly_broadcastTo _ _ _) fun _ =>
      failsOnly_run_bind (failsOnly_broadcastTo _ _ _) fun _ => failsOnly_run_pure _
  · exact failsOnly_run_failure

/-- Folding a multiplier fails as one of the divisions does. -/
theorem failsOnly_foldMultiplier (multiplier : Constant α) (old : Thresholds α) :
    FailsOnly Genuine (foldMultiplier multiplier old).run := by
  rw [foldMultiplier]
  split
  case h_2 => exact failsOnly_run_failure
  split
  case h_2 => exact failsOnly_run_failure
  exact failsOnly_run_bind (failsOnly_broadcastTo _ _ _) fun _ =>
    failsOnly_run_bind (failsOnly_broadcastTo _ _ _) fun _ =>
    failsOnly_run_bind (failsOnly_broadcastTo _ _ _) fun _ =>
    failsOnly_run_bind (failsOnly_divide _ _ _) fun _ =>
    failsOnly_run_bind (failsOnly_divide _ _ _) fun _ => failsOnly_run_pure _

/-- Reading floats is not stopped. -/
theorem failsOnly_floats (t : Tensor α) : FailsOnly Genuine t.floats := by
  rw [Tensor.floats]
  split
  · exact failsOnly_pure _
  · exact failsOnly_pure _
  · exact failsOnly_pure _
  · exact failsOnly_pure _
  · split <;> exact failsOnly_throw Error.noConfusion

/-- Reading a constant is not stopped. -/
theorem failsOnly_floatConstant? (g : Graph α) (data : NodeId) :
    FailsOnly Genuine (floatConstant? g data) := by
  refine ((g.refuses_content data).imp fun _ => Refusal.genuine).bind fun c => ?_
  split
  · exact failsOnly_pure _
  · split
    · exact (failsOnly_floats _).bind fun _ => failsOnly_pure _
    · exact failsOnly_pure _

/-- Reading the thresholds is not stopped. -/
theorem failsOnly_thresholdConstants (g : Graph α) (nodes : List NodeId) :
    FailsOnly Halt.Genuine (thresholdConstants g nodes) := by
  induction nodes with
  | nil => exact failsOnly_pure _
  | cons data nodes ih =>
    refine (failsOnly_lift (failsOnly_floatConstant? g data)).bind fun constant => ?_
    split
    · exact ih.bind fun _ => failsOnly_pure _
    · exact failsOnly_declineWith _

/-- Writing a constant back is not stopped. -/
theorem failsOnly_toTensor (constant : Constant α) (type : ElementType) :
    FailsOnly Genuine (toTensor constant type) := by
  refine (failsOnly_count _).bind fun expected =>
    failsOnly_when (failsOnly_throw Error.noConfusion) fun _ => ?_
  split
  · exact failsOnly_pure _
  · exact failsOnly_pure _
  · exact failsOnly_throw Error.noConfusion

/-- The plan of a multiplier is not stopped. -/
theorem failsOnly_plan (m : Match) (g : Graph α) : FailsOnly Halt.Genuine (plan m g) := by
  refine (failsOnly_get m _).bind fun mul => (failsOnly_get m _).bind fun product =>
    (failsOnly_get m _).bind fun quantize =>
    (failsOnly_refusal (g.refuses_operator quantize)).bind fun o => ?_
  split
  case h_2 => exact failsOnly_decline
  refine failsOnly_unless (failsOnly_declineWith _) fun _ =>
    failsOnly_when (failsOnly_declineWith _) fun _ =>
    (failsOnly_thresholdNodes g quantize thresholdPorts).bind fun nodes =>
    (failsOnly_refusal (g.refuses_operand _)).bind fun lhs =>
    (failsOnly_refusal (g.refuses_operand _)).bind fun rhs =>
    (failsOnly_refusal (g.refuses_content _)).bind fun lhsContent =>
    (failsOnly_refusal (g.refuses_content _)).bind fun rhsContent =>
    failsOnly_when (failsOnly_declineWith _) fun _ => ?_
  -- which of the two inputs is the tensor has no part in how the plan fails
  generalize (if lhsContent.isConstant = true then 1 else 0) = tensorPort
  refine (failsOnly_lift (failsOnly_floatConstant? g _)).bind fun factor => ?_
  split
  case h_2 => exact failsOnly_declineWith _
  refine failsOnly_when (failsOnly_declineWith _) fun _ =>
    (failsOnly_refusal (g.refuses_content _)).bind fun tensor => ?_
  split
  case h_2 => exact failsOnly_declineWith _
  refine failsOnly_unless (failsOnly_declineWith _) fun _ =>
    (failsOnly_thresholdConstants g nodes).bind fun constants => ?_
  split
  case h_2 => exact failsOnly_decline
  refine (failsOnly_lift (failsOnly_foldMultiplier _ _)).bind fun folded => ?_
  split
  case h_2 => exact failsOnly_declineWith _
  have htensors : ∀ parts : List (Constant α × ElementType),
      FailsOnly Genuine (parts.mapM fun part => toTensor part.1 part.2) :=
    fun parts => failsOnly_mapM fun part _ => failsOnly_toTensor part.1 part.2
  dsimp only
  split
  · exact (failsOnly_declineWith _).bind fun _ =>
      (failsOnly_lift (htensors _)).bind fun _ => failsOnly_pure _
  · exact (failsOnly_lift (htensors _)).bind fun _ => failsOnly_pure _

end MultiplierRule

/-- A built-in rule is stopped by nothing but the end of its rounds. -/
theorem throwsOnly_offer [Scalar α] {rule : Rule α} (h : rule ∈ builtinRules) (m : Match) :
    ThrowsOnly Genuine (rule.offer m) := by
  simp only [builtinRules, List.mem_cons, List.not_mem_nil, or_false] at h
  rcases h with rfl | rfl | rfl | rfl | rfl
  · exact throwsOnly_planThenCommit (TileRule.failsOnly_plan m) TileRule.refuses_commit
  · exact throwsOnly_planThenCommit (PermuteRule.failsOnly_plan m) PermuteRule.refuses_commit
  · exact throwsOnly_planThenCommit (MultiplierRule.failsOnly_plan m) MultiplierRule.refuses_commit
  · exact throwsOnly_planThenCommit (SliceRule.failsOnly_plan m) SliceRule.refuses_commit
  · exact throwsOnly_pure _

end TensorGraph
