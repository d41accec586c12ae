/-
  The built-in rules come to an end.

  A round looks for a match anew after every offer, so it could go on for as long as the rule makes
  new matches.  Tiles and slices are wrapped and copied with new nodes, but none of these is a tile
  or a slice: a round makes at most one offer for each that is there when it begins.  Permutes and
  products are only removed, so the operators and the data of an offer are there when the round
  begins.  The lists of nodes that can be offered become shorter with every offer
  (`roundsEnd_of_narrowing`).

  Nothing of this depends on a limit: a run with more steps than such offers does the same as one
  with any larger number of steps, and it is never stopped.
-/
import TensorGraph.Proofs.Graph.History
import TensorGraph.Proofs.Rule.Dead
import TensorGraph.Proofs.Rule.Failures
import TensorGraph.Proofs.Rule.Shapes
import TensorGraph.Proofs.Rule.Underway

namespace TensorGraph

open Edit TensorGraph.Graph

variable {α : Type} {g : Graph α}

/-! ## The nodes that can be offered -/

namespace Graph

/-- The nodes that meet a condition. -/
def idsWhere (g : Graph α) (condition : Node α → Bool) : List NodeId :=
  (g.nodes.filter condition).map (·.id)

/-- The operators of one type. -/
def operatorsOf (g : Graph α) (type : Opcode) : List NodeId :=
  g.idsWhere fun n => n.opcode? == some type

/-- The nodes of one kind. -/
def idsOf (g : Graph α) (kind : Kind) : List NodeId :=
  g.idsWhere fun n => n.kind == kind

theorem length_idsWhere_le (condition : Node α → Bool) :
    (g.idsWhere condition).length ≤ g.nodes.length := by
  rw [idsWhere, List.length_map]
  exact List.length_filter_le _ _

theorem mem_idsWhere_of_node? {condition : Node α → Bool} {id : NodeId} {n : Node α}
    (hn : g.node? id = some n) (hcondition : condition n = true) : id ∈ g.idsWhere condition :=
  List.mem_map.mpr ⟨n, List.mem_filter.mpr ⟨node?_mem hn, hcondition⟩, node?_id hn⟩

theorem WellFormed.mem_idsWhere (hg : g.WellFormed) {condition : Node α → Bool} {id : NodeId} :
    id ∈ g.idsWhere condition ↔ ∃ n, g.node? id = some n ∧ condition n = true := by
  refine ⟨fun h => ?_, fun ⟨_, hn, hcondition⟩ => mem_idsWhere_of_node? hn hcondition⟩
  obtain ⟨n, hn, rfl⟩ := List.mem_map.mp h
  obtain ⟨hmem, hcondition⟩ := List.mem_filter.mp hn
  exact ⟨n, hg.node?_eq_some_iff.mpr ⟨hmem, rfl⟩, hcondition⟩

/-- The operators of a type are those that a role with this type accepts. -/
theorem WellFormed.mem_operatorsOf (hg : g.WellFormed) {type : Opcode} {id : NodeId} :
    id ∈ g.operatorsOf type ↔ ∃ o, g.view.operator id = some o ∧ o.operation.type = type := by
  rw [operatorsOf, hg.mem_idsWhere]
  constructor
  · rintro ⟨n, hn, htype⟩
    rw [beq_iff_eq, Node.opcode?, Option.map_eq_some_iff] at htype
    obtain ⟨o, ho, htype⟩ := htype
    exact ⟨o, Option.bind_eq_some_iff.mpr ⟨n, hn, ho⟩, htype⟩
  · rintro ⟨o, ho, htype⟩
    obtain ⟨n, hn, ho⟩ := Option.bind_eq_some_iff.mp ho
    refine ⟨n, hn, ?_⟩
    rw [Node.opcode?, ho, Option.map_some, htype, beq_self_eq_true]

theorem WellFormed.mem_idsOf (hg : g.WellFormed) {kind : Kind} {id : NodeId} :
    id ∈ g.idsOf kind ↔ g.kind? id = some kind := by
  rw [idsOf, hg.mem_idsWhere, kind?, Option.map_eq_some_iff]
  simp only [beq_iff_eq]

end Graph

namespace Pattern

theorem lists_operatorsOf (g : Graph α) (name : String) (type : Opcode) :
    Lists g ⟨name, .operator type⟩ (g.operatorsOf type) := by
  intro id n hn hholds
  simp only [Predicate.holds, Predicate.operator, List.all_cons, Bool.and_eq_true] at hholds
  exact mem_idsWhere_of_node? hn hholds.2.1

theorem lists_idsOf_op (g : Graph α) (name : String) (type : Opcode) :
    Lists g ⟨name, .operator type⟩ (g.idsOf .op) := by
  intro id n hn hholds
  simp only [Predicate.holds, Predicate.operator, List.all_cons, Bool.and_eq_true] at hholds
  exact mem_idsWhere_of_node? hn hholds.1

theorem lists_idsOf_data (g : Graph α) (name : String) : Lists g ⟨name, .data⟩ (g.idsOf .data) := by
  intro id n hn hholds
  simp only [Predicate.holds, Predicate.data, List.all_cons, Bool.and_eq_true] at hholds
  exact mem_idsWhere_of_node? hn hholds.1

end Pattern

/-! ## Rules that look for one operator -/

section Single

variable {p : Pattern} {replace : Match → Edit α Bool} {type : Opcode}

/-- A rule that is offered the operators of one type, and adds none of that type. -/
theorem Rule.roundsEnd_single {rule : Rule α} (hbody : rule.body = .replacing (.ok p) replace)
    {name : String} (hroles : p.roles = [⟨name, .operator type⟩]) (hg : g.WellFormed)
    (hstep : ∀ g' notes m, g'.WellFormed → Runs (replace m) ⟨g', notes⟩
      (fun _ g'' => g''.WellFormed ∧ g''.operatorsOf type ⊆ g'.operatorsOf type) fun _ => True) :
    rule.RoundsEnd g fun g₁ => [g₁.operatorsOf type] := by
  refine roundsEnd_of_narrowing hbody hg (fun s m hs _ => ?_) fun g' m _ hm =>
    Pattern.mem_sections_of_allMatches (hroles ▸ .cons (Pattern.lists_operatorsOf g' _ _) .nil) hm
  exact (hstep s.graph s.log m hs).imp (fun _ _ h => ⟨h.1, sections_subset (.cons h.2 .nil)⟩)
    fun _ h => h

end Single

/-- The new operators around a tile are reshapes. -/
theorem TileRule.roundsEnd (hg : g.WellFormed) :
    (rule : Rule α).RoundsEnd g fun g₁ => [g₁.operatorsOf .tile] := by
  obtain ⟨pat, hpat⟩ : ∃ pat, pattern = .ok pat := ⟨_, rfl⟩
  refine Rule.roundsEnd_single (congrArg (RuleBody.replacing · replace) hpat)
    (Pattern.build_eq_ok hpat).1 hg fun g' notes m hg' => ?_
  refine runs_planThenCommit (fun planned hplan notes => ?_)
    (fun _ _ => ⟨hg', List.Subset.refl _⟩) fun _ _ => trivial
  obtain ⟨input, ha⟩ := plan_accepted hplan
  refine runs_commit hg' ha fun g'' c w _ hw hg'' hview => ⟨hg'', fun op hop => ?_⟩
  obtain ⟨o, ho, htype⟩ := hg''.mem_operatorsOf.mp hop
  rw [hview] at ho
  -- an operator is one of the two reshapes, or it was there before
  rcases wrapped_operator hw input c (hg'.live_of_output ha.makes).2 ho with
    ⟨-, rfl⟩ | ⟨-, rfl⟩ | hold
  · cases htype
  · cases htype
  · exact hg'.mem_operatorsOf.mpr ⟨o, hold, htype⟩

/-- The new operators of a slice are constants, and the slice remains one. -/
theorem SliceRule.roundsEnd (hg : g.WellFormed) :
    (rule : Rule α).RoundsEnd g fun g₁ => [g₁.operatorsOf .stridedSlice] := by
  obtain ⟨pat, hpat⟩ : ∃ pat, pattern = .ok pat := ⟨_, rfl⟩
  refine Rule.roundsEnd_single (congrArg (RuleBody.replacing · replace) hpat)
    (Pattern.build_eq_ok hpat).1 hg fun g' notes m hg' => ?_
  refine runs_planThenCommit (fun planned hplan notes => ?_)
    (fun _ _ => ⟨hg', List.Subset.refl _⟩) fun _ _ => trivial
  have ha := plan_accepted hplan
  -- the invariant of the loop over the bounds: what is a slice now was one before the offer
  refine (runs_commit hg' ha (I := fun v => ∀ op o, v.operator op = some o →
    o.operation.type = .stridedSlice → op ∈ g'.operatorsOf .stridedSlice) (fun o ho => ?_)
    (fun g₁ b _ h _ _ => ?_) fun g₁ b constant copy _ h _ hcopies => ?_).imp
    (fun _ g'' h => ⟨h.1, fun op hop => ?_⟩) fun _ h => h
  · intro op o' ho' htype
    rw [View.setPayload_operator (v := g'.view) ho, Function.update_apply] at ho'
    split at ho'
    · rename_i hop
      obtain ⟨masks, inference, hslice⟩ := ha.operator
      exact hg'.mem_operatorsOf.mpr ⟨_, hop ▸ hslice, rfl⟩
    · exact hg'.mem_operatorsOf.mpr ⟨o', ho', htype⟩
  · simpa only [View.store_operator] using h
  · intro op o ho htype
    obtain ⟨n, hn, hpayload⟩ := View.operator_eq_some_iff.mp ho
    rcases copied_node_eq_some hn with ⟨-, rfl⟩ | ⟨-, rfl⟩ | hold
    · cases hcopies.constant.symm.trans hpayload
      cases htype
    · cases hcopies.copy.symm.trans hpayload
    · exact h op o (View.operator_eq_some_iff.mpr ⟨n, hold, hpayload⟩) htype
  · obtain ⟨o, ho, htype⟩ := h.1.mem_operatorsOf.mp hop
    exact h.2 op o ho htype

/-! ## Rules that add no node -/

/-- Nodes are of the kind that they had in `g`. -/
def KindsFrom (g g' : Graph α) : Prop :=
  ∀ id kind, g'.kind? id = some kind → g.kind? id = some kind

/-- No node is new. -/
theorem KindsFrom.ids_subset {g' : Graph α} (h : KindsFrom g g') : g'.ids ⊆ g.ids := by
  intro id hid
  obtain ⟨n, hn, rfl⟩ := List.mem_map.mp hid
  have hlive : (g'.node? n.id).isSome := List.find?_isSome.mpr ⟨n, hn, beq_self_eq_true _⟩
  obtain ⟨n', hn'⟩ := Option.isSome_iff_exists.mp hlive
  have hkind : g'.kind? n.id = some n'.kind := congrArg (Option.map Node.kind) hn'
  obtain ⟨n₀, hn₀, -⟩ := Option.map_eq_some_iff.mp (h _ _ hkind)
  exact mem_ids_of_node? hn₀

/-- Steps without a new node keep this. -/
theorem keptByRewiring_kindsFrom (g : Graph α) : KeptByRewiring (KindsFrom g) := by
  intro g₁ g₂ hstep h
  -- a change that adds no node, so the case of a new node cannot come up
  generalize hids : ([] : List NodeId) = ids at hstep
  cases hstep with
  | insertNode => cases hids
  | setPayload hkind => exact fun id kind hk => h id kind (hkind ▸ hk)
  | setAttributes id attributes =>
    exact fun id' kind hk => h id' kind (kind?_setAttributes g₁ id attributes ▸ hk)
  | setLayout layout => exact h
  | insertEdge wire => exact h
  | eraseEdge id => exact fun id' kind hk => h id' kind (kind?_eraseEdge g₁ id ▸ hk)
  | takeNode id =>
    intro id' kind hk
    rw [kind?_takeNode, Function.update_apply] at hk
    split at hk
    · cases hk
    · exact h id' kind hk
  | remember => exact h

/-- A rule that is offered an operator, its result and a reader, and adds no node. -/
theorem Rule.roundsEnd_triple {rule : Rule α} {p : Pattern} {replace : Match → Edit α Bool}
    (hbody : rule.body = .replacing (.ok p) replace) {first mid last : String} {type type' : Opcode}
    (hroles : p.roles = [⟨first, .operator type⟩, ⟨mid, .data⟩, ⟨last, .operator type'⟩])
    (hg : g.WellFormed) (hwf : ∀ m, Keeps WellFormed WellFormed (replace m))
    (hkinds : ∀ g' : Graph α, ∀ m, Keeps (KindsFrom g') (KindsFrom g') (replace m)) :
    rule.RoundsEnd g fun g₁ => [g₁.idsOf .op, g₁.idsOf .data, g₁.idsOf .op] := by
  refine roundsEnd_of_narrowing hbody hg (fun s m hs _ => ?_) fun g' m _ hm =>
    Pattern.mem_sections_of_allMatches (hroles ▸ .cons (Pattern.lists_idsOf_op g' _ _)
      (.cons (Pattern.lists_idsOf_data g' _) (.cons (Pattern.lists_idsOf_op g' _ _) .nil))) hm
  refine ((hwf m s hs).and_of_ok ((hkinds s.graph m s fun _ _ h => h).imp (fun _ _ h => h)
    fun _ _ => trivial)).imp (fun _ g' h => ⟨h.1, ?_⟩) fun _ _ => trivial
  -- no node is added and none changes its kind, so all three lists shrink
  have hsub : ∀ kind, g'.idsOf kind ⊆ s.graph.idsOf kind := fun kind id hid =>
    hs.mem_idsOf.mpr (h.2 id kind (h.1.mem_idsOf.mp hid))
  exact sections_subset (.cons (hsub .op) (.cons (hsub .data) (.cons (hsub .op) .nil)))

/-- Permutes are offered with nodes of the start. -/
theorem PermuteRule.roundsEnd [Scalar α] (hg : g.WellFormed) :
    (rule : Rule α).RoundsEnd g fun g₁ => [g₁.idsOf .op, g₁.idsOf .data, g₁.idsOf .op] := by
  obtain ⟨pat, hpat⟩ : ∃ pat, pattern = .ok pat := ⟨_, rfl⟩
  have hbuiltin : (rule : Rule α) ∈ builtinRules := by simp [builtinRules]
  refine Rule.roundsEnd_triple (congrArg (RuleBody.replacing · replace) hpat)
    (Pattern.build_eq_ok hpat).1 hg (keeps_offer keptByEdits_wellFormed hbuiltin)
    fun g' m => ?_
  have hkept := keptByRewiring_kindsFrom g'
  exact keeps_planThenCommit (fun _ h => h) (PermuteRule.keeps_commit hkept.keeps_modifyContent
    hkept.keeps_removeNode hkept.keeps_setOperation hkept.keeps_moveReaders)

/-- Multiplications are offered with nodes of the start. -/
theorem MultiplierRule.roundsEnd [Scalar α] (hg : g.WellFormed) :
    (rule : Rule α).RoundsEnd g fun g₁ => [g₁.idsOf .op, g₁.idsOf .data, g₁.idsOf .op] := by
  obtain ⟨pat, hpat⟩ : ∃ pat, pattern = .ok pat := ⟨_, rfl⟩
  have hbuiltin : (rule : Rule α) ∈ builtinRules := by simp [builtinRules]
  refine Rule.roundsEnd_triple (congrArg (RuleBody.replacing · replace) hpat)
    (Pattern.build_eq_ok hpat).1 hg (keeps_offer keptByEdits_wellFormed hbuiltin)
    fun g' m => ?_
  have hkept := keptByRewiring_kindsFrom g'
  exact keeps_planThenCommit (fun _ h => h) (MultiplierRule.keeps_commit hkept.keeps_modifyContent
    hkept.keeps_removeNode hkept.keeps_unplug hkept.keeps_moveInput)

/-! ## Dead nodes -/

namespace DeadRule

/-- Rounds that come to an end do not use the rounds that are left. -/
theorem removeRounds_eq_of_le {rounds rounds' k : Nat} {s s' : Session α}
    (hle : rounds ≤ rounds') (hok : removeRounds rounds s = .ok k s') :
    removeRounds rounds' s = .ok k s' := by
  induction rounds generalizing rounds' k s with
  | zero => cases hok
  | succ rounds ih =>
    obtain ⟨rounds', rfl⟩ : ∃ r, rounds' = r + 1 := ⟨rounds' - 1, by omega⟩
    obtain ⟨g₁, s₁, hgraph, hok⟩ := bind_eq_ok.mp hok
    refine bind_eq_ok.mpr ⟨g₁, s₁, hgraph, ?_⟩
    split at hok
    · rename_i hnone
      rw [if_pos hnone]
      exact hok
    · rename_i hsome
      rw [if_neg hsome]
      obtain ⟨_, s₂, hnodes, hok⟩ := bind_eq_ok.mp hok
      obtain ⟨k', s₃, hrest, hok⟩ := bind_eq_ok.mp hok
      cases hok
      refine bind_eq_ok.mpr ⟨_, s₂, hnodes, bind_eq_ok.mpr ⟨k', s', ?_, rfl⟩⟩
      exact ih (Nat.le_of_succ_le_succ hle) hrest

/-- With more rounds than nodes the rounds come to an end, and so does the rule. -/
theorem run_ends (hg : g.WellFormed) (notes : List LogEntry) {rounds : Nat}
    (hrounds : g.nodes.length < rounds) :
    ∃ k s, removeRounds rounds ⟨g, notes⟩ = .ok k s ∧
      ∀ maxIterations, rule.run maxIterations ⟨g, notes⟩ = .ok ⟨k, []⟩ s := by
  obtain ⟨k, s, hs, -⟩ := exists_ok _ ⟨g, notes⟩ _
    ((pruned_self hg).runs_removeRounds hg (Nat.lt_succ_self _))
  refine ⟨k, s, removeRounds_eq_of_le hrounds hs, fun maxIterations => ?_⟩
  exact bind_eq_ok.mpr ⟨k, s, bind_eq_ok.mpr ⟨g, ⟨g, notes⟩, rfl, hs⟩, rfl⟩

end DeadRule

/-! ## All rules -/

/-- A rule whose rounds end is not stopped.  What it does depends on no limit on its steps. -/
theorem Rule.RoundsEnd.unstopped [Scalar α] (hg : g.WellFormed) {rule : Rule α}
    (hbuiltin : rule ∈ builtinRules)
    {roles : Graph α → List (List NodeId)} (h : rule.RoundsEnd g roles)
    (hroles : ∀ p replace, rule.body = .replacing (.ok p) replace → ∀ g₁,
      (roles g₁).length = p.roles.length ∧ ∀ ids ∈ roles g₁, ids.length ≤ g₁.nodes.length)
    {limit : Pattern → Graph α → Nat} (hlimit : ∀ p g₁, offerLimit p g₁ ≤ limit p g₁)
    (maxIterations : Nat) (notes : List LogEntry) :
    rule.runWithin limit maxIterations ⟨g, notes⟩ = rule.run maxIterations ⟨g, notes⟩ ∧
      ∀ s, rule.run maxIterations ⟨g, notes⟩ ≠ .error .exhausted s := by
  have hsteps : ∀ p replace, rule.body = .replacing (.ok p) replace →
      ∀ g₁, (roles g₁).sections.length < offerLimit p g₁ := by
    intro p replace hbody g₁
    obtain ⟨hlength, hids⟩ := hroles p replace hbody g₁
    exact Nat.lt_succ_of_le (hlength ▸ length_sections_le hids)
  refine ⟨h.runWithin_eq hsteps hlimit maxIterations notes, fun s herror => ?_⟩
  exact h.runWithin_error hsteps (throwsOnly_offer hbuiltin) hg herror rfl

/-- **Every built-in rule comes to an end.**  A round over tiles or slices makes at most one offer
for each tile or slice at its start.  A round over permutes or products makes at most one for each
operator, data node and operator at its start, and so does a round of any rule that adds no node,
for each way to choose nodes.  Dead nodes are gone after at most one round more than there are
nodes.  No run of a built-in rule is stopped, and how many steps a round may take has no part in its
result. -/
theorem builtin_rules_end [Scalar α] (hg : Reachable g) :
    TileRule.rule.RoundsEnd g (fun g₁ => [g₁.operatorsOf .tile]) ∧
    SliceRule.rule.RoundsEnd g (fun g₁ => [g₁.operatorsOf .stridedSlice]) ∧
    PermuteRule.rule.RoundsEnd g (fun g₁ => [g₁.idsOf .op, g₁.idsOf .data, g₁.idsOf .op]) ∧
    MultiplierRule.rule.RoundsEnd g (fun g₁ => [g₁.idsOf .op, g₁.idsOf .data, g₁.idsOf .op]) ∧
    (∀ notes rounds, g.nodes.length < rounds →
      ∃ k s, DeadRule.removeRounds rounds ⟨g, notes⟩ = .ok k s ∧
        ∀ maxIterations, DeadRule.rule.run maxIterations ⟨g, notes⟩ = .ok ⟨k, []⟩ s) ∧
    (∀ p replace, (∀ made s m replaced s', Underway p replace g made s.graph →
        m ∈ p.allMatches s.graph → m.nodes ∉ made → replace m s = .ok replaced s' →
        s'.graph.ids ⊆ s.graph.ids) →
      EndsWithin p replace g (List.replicate p.roles.length g.ids)) ∧
    ∀ rule ∈ builtinRules, ∀ limit maxIterations notes,
      (∀ p g₁, Rule.offerLimit p g₁ ≤ limit p g₁) →
      rule.runWithin limit maxIterations ⟨g, notes⟩ = rule.run maxIterations ⟨g, notes⟩ ∧
      ∀ s, rule.run maxIterations ⟨g, notes⟩ ≠ .error .exhausted s := by
  have hwf := hg.wellFormed
  refine ⟨TileRule.roundsEnd hwf, SliceRule.roundsEnd hwf, PermuteRule.roundsEnd hwf,
    MultiplierRule.roundsEnd hwf, fun notes _ => DeadRule.run_ends hwf notes,
    fun _ _ => endsWithin_ids, fun rule hrule limit maxIterations notes hlimit => ?_⟩
  have hbuiltin := hrule
  simp only [builtinRules, List.mem_cons, List.not_mem_nil, or_false] at hrule
  have hop : ∀ g₁ : Graph α, ∀ type, ∀ ids ∈ [g₁.operatorsOf type], ids.length ≤ g₁.nodes.length := by
    intro g₁ type
    exact List.forall_mem_singleton.mpr (length_idsWhere_le _)
  have htriple : ∀ g₁ : Graph α, ∀ ids ∈ [g₁.idsOf .op, g₁.idsOf .data, g₁.idsOf .op],
      ids.length ≤ g₁.nodes.length := by
    intro g₁
    simp only [List.forall_mem_cons]
    exact ⟨length_idsWhere_le _, length_idsWhere_le _, length_idsWhere_le _, by simp⟩
  -- one list for each role, none longer than the nodes: a round has more steps than choices
  rcases hrule with rfl | rfl | rfl | rfl | rfl
  · refine (TileRule.roundsEnd hwf).unstopped hwf hbuiltin ?_ hlimit maxIterations notes
    rintro _ _ ⟨⟩ g₁
    exact ⟨rfl, hop g₁ _⟩
  · refine (PermuteRule.roundsEnd hwf).unstopped hwf hbuiltin ?_ hlimit maxIterations notes
    rintro _ _ ⟨⟩ g₁
    exact ⟨rfl, htriple g₁⟩
  · refine (MultiplierRule.roundsEnd hwf).unstopped hwf hbuiltin ?_ hlimit maxIterations notes
    rintro _ _ ⟨⟩ g₁
    exact ⟨rfl, htriple g₁⟩
  · refine (SliceRule.roundsEnd hwf).unstopped hwf hbuiltin ?_ hlimit maxIterations notes
    rintro _ _ ⟨⟩ g₁
    exact ⟨rfl, hop g₁ _⟩
  · obtain ⟨k, s, -, hrun⟩ := DeadRule.run_ends hwf notes (Nat.lt_succ_self _)
    refine ⟨rfl, fun s' herror => ?_⟩
    cases (hrun maxIterations).symm.trans herror

/-- Two tiles in a row. -/
def growingCommands : List (Command Float) :=
  [.addOperator "x" .parameter, .addOperator "first" (.tile 0 2), .addOperator "second" (.tile 1 3),
    .addOperator "out" .output, .link ⟨0, 0⟩ ⟨1, 0⟩, .link ⟨1, 0⟩ ⟨2, 0⟩, .link ⟨2, 0⟩ ⟨3, 0⟩,
    .modifyContent 4 fun c => { c with shape := some [2, 2, 3] }, .inferAll]

/-- Removes the first node of a match. -/
def dropFirst (m : Match) : Edit Float Bool := do
  let _ ← Edit.removeNode (m.nodes.headD 0)
  return true

/-- A round that adds eight nodes makes two offers. -/
theorem growingCommands_end :
    Reachable (runCommands .nchw growingCommands) ∧
    (∃ outcome s, TileRule.rule.run 1 ⟨runCommands .nchw growingCommands, []⟩ = .ok outcome s ∧
      outcome.offers = [⟨[1], true⟩, ⟨[2], true⟩] ∧ s.graph.nodes.length = 15) ∧
    TileRule.rule.RoundsEnd (runCommands .nchw growingCommands)
      (fun g₁ => [g₁.operatorsOf .tile]) ∧
    (runCommands .nchw growingCommands).operatorsOf .tile = [1, 2] ∧
    (∃ k s, DeadRule.removeRounds 8 ⟨runCommands .nchw growingCommands, []⟩ = .ok k s ∧
      DeadRule.rule.run 0 ⟨runCommands .nchw growingCommands, []⟩ = .ok ⟨k, []⟩ s) ∧
    (∃ p, TileRule.pattern = .ok p ∧
      EndsWithin p dropFirst (runCommands .nchw growingCommands)
        (List.replicate p.roles.length (runCommands .nchw growingCommands).ids)) ∧
    TileRule.rule.runWithin (fun p g₁ => Rule.offerLimit p g₁ + 1000) 1
        ⟨runCommands .nchw growingCommands, []⟩ =
      TileRule.rule.run 1 ⟨runCommands .nchw growingCommands, []⟩ := by
  have hg : Reachable (runCommands .nchw growingCommands) := ⟨_, _, rfl⟩
  have hrun : ∃ outcome s,
      TileRule.rule.run 1 ⟨runCommands .nchw growingCommands, []⟩ = .ok outcome s ∧
      outcome.offers = [⟨[1], true⟩, ⟨[2], true⟩] ∧ s.graph.nodes.length = 15 :=
    exists_ok (TileRule.rule.run 1) ⟨runCommands .nchw growingCommands, []⟩
      (fun outcome g => outcome.offers = [⟨[1], true⟩, ⟨[2], true⟩] ∧ g.nodes.length = 15)
      (by decide +kernel)
  have hnodes : (runCommands .nchw growingCommands).nodes.length < 8 := by decide +kernel
  obtain ⟨htile, -, -, -, hdead, hother, hall⟩ := builtin_rules_end hg
  obtain ⟨k, s, hrounds, hdead⟩ := hdead [] 8 hnodes
  refine ⟨hg, hrun, htile, by decide +kernel, ⟨k, s, hrounds, hdead 0⟩, ⟨_, rfl, ?_⟩, ?_⟩
  · refine hother _ dropFirst fun made s m replaced s' _ _ _ hok => ?_
    have hkept : Keeps (KindsFrom s.graph) (KindsFrom s.graph) (dropFirst m) :=
      ((keptByRewiring_kindsFrom s.graph).keeps_removeNode _).bind fun _ => keeps_pure _
    exact ((hkept s fun _ _ h => h).of_ok hok).ids_subset
  · exact (hall TileRule.rule (by simp [builtinRules]) _ 1 [] fun _ _ => Nat.le_add_right _ _).1

end TensorGraph
