/-
  Wrapping a tile.

  An accepted plan knows what is around the tile (`Accepted`).  The commit then cannot fail, and
  leaves the graph with a reshape in front of the tile and one behind it (`wrapped`).  No edit
  closes a cycle: with the old nodes ranked in steps of six there is room for the two new nodes in
  front of the tile and for the two behind its result.

  `plan_eq_ok` opens the plan once: which lookups it makes and what it compares.  The commit adds
  two data nodes and two operators, and `Wrapping` names them.  `runs_rewire` follows the edits
  between the creation of these nodes and the end, and `runs_commit` puts the two together.
-/
import TensorGraph.Proofs.Graph.Step
import TensorGraph.Proofs.Rule.Keeps

namespace TensorGraph.TileRule

open Edit TensorGraph.Graph
open Function (update)

variable {α : Type} {g : Graph α} {p : Plan}

/-- What an accepted plan says about the tile and the data around it. -/
structure Accepted (g : Graph α) (p : Plan) (input : NodeId) : Prop where
  operator : ∃ axis tiles inference,
    g.operator? p.tile = some ⟨.tile axis tiles, inference⟩ ∧ axis + 1 < p.inShape.length
  reads : g.view.input ⟨p.tile, 0⟩ = some input
  makes : g.view.output ⟨p.tile, 0⟩ = some p.result
  before : ∃ c, g.content? input = some c ∧ c.knownShape = some p.inShape
  after : ∃ c, g.content? p.result = some c ∧ c.knownShape = some p.outShape
  ranks : p.inShape.length = 3 ∧ p.outShape.length = 3

theorem plan_eq_ok {m : Match} (h : plan m g = .ok p) :
    m.get "tile" = .ok p.tile ∧ ∃ input, Accepted g p input := by
  rw [plan] at h
  obtain ⟨tile, htile, h⟩ := planning_bind_eq_ok.mp h
  obtain ⟨⟨operation, inference⟩, hoperator, h⟩ := planning_bind_eq_ok.mp h
  rw [operator_eq_ok] at hoperator
  have hop : g.kind? tile = some .op := kind?_eq_op.mpr ⟨_, hoperator⟩
  split at h
  case h_2 => cases h
  rename_i axis tiles hoperation
  obtain rfl : operation = .tile axis tiles := hoperation
  obtain ⟨input, hinput, h⟩ := planning_bind_eq_ok.mp h
  rw [operand_eq_ok, ← view_input_of_op hop] at hinput
  split at h
  case h_2 => cases h
  rename_i result hresult
  rw [← view_output_of_op hop] at hresult
  obtain ⟨before, hbefore, h⟩ := planning_bind_eq_ok.mp h
  obtain ⟨after, hafter, h⟩ := planning_bind_eq_ok.mp h
  rw [content_eq_ok] at hbefore hafter
  split at h
  case h_2 => cases h
  rename_i inShape hin
  split at h
  case h_2 => cases h
  rename_i outShape hout
  dsimp only at h
  split at h
  case isTrue => cases h
  rename_i hranks
  split at h
  case isTrue => cases h
  rename_i haxis
  split at h
  case isTrue => cases h
  rename_i hlast
  obtain ⟨n, _, h⟩ := planning_bind_eq_ok.mp h
  cases h
  simp only [ne_eq, Bool.or_eq_true, decide_eq_true_eq, not_or, Decidable.not_not] at hranks
  rw [legalRank] at hranks
  refine ⟨htile, input, ⟨axis, tiles, inference, hoperator, ?_⟩, hinput, hresult,
    ⟨before, hbefore, hin⟩, ⟨after, hafter, hout⟩, ?_⟩
  · show axis + 1 < inShape.length
    omega
  · show inShape.length = 3 ∧ outShape.length = 3
    omega

theorem plan_accepted {m : Match} (h : plan m g = .ok p) : ∃ input, Accepted g p input :=
  (plan_eq_ok h).2

theorem Accepted.input_ne_result {input : NodeId} (ha : Accepted g p input) (hg : g.WellFormed) :
    input ≠ p.result := by
  have hrank := hg.ranked_view.mpr hg.ranked_topologicalOrder
  rintro rfl
  exact absurd (hrank.1 _ _ ha.reads) (Nat.lt_asymm (hrank.2 _ _ ha.makes))

/-! ## The commit -/

/-- The new nodes around a tile: a reshape of its input and one of its result, with their data. -/
structure Wrapping (α : Type) where
  before : Node α
  beforeData : Node α
  after : Node α
  afterData : Node α

/-- The new nodes have the ids of no old nodes and are what the plan asks for. -/
structure Wrapping.Fresh (w : Wrapping α) (p : Plan) (v : View α) : Prop where
  unused : v.node w.before.id = none ∧ v.node w.beforeData.id = none ∧
    v.node w.after.id = none ∧ v.node w.afterData.id = none
  distinct : w.beforeData.id ≠ w.before.id ∧ w.after.id ≠ w.before.id ∧
    w.after.id ≠ w.beforeData.id ∧ w.afterData.id ≠ w.before.id ∧
    w.afterData.id ≠ w.beforeData.id ∧ w.afterData.id ≠ w.after.id
  before : w.before.payload = .op (.ofOperation (.reshapeTo (p.inShape ++ [1])))
  beforeData : w.beforeData.payload = .data ⟨some (p.inShape ++ [1]), none, p.inType⟩
  after : w.after.payload = .op (.ofOperation (.reshapeTo p.outShape))
  afterData : w.afterData.payload = .data ⟨some p.outShape, none, p.outType⟩

/-- The graph with the tile wrapped: the tile reads the first reshape, the second reads the tile,
and the former readers of the tile read the second reshape. -/
def wrapped (v : View α) (p : Plan) (input : NodeId) (c : Content α) (w : Wrapping α) :
    View α where
  node := update
    (update (update (update (update v.node w.before.id (some w.before))
      w.beforeData.id (some w.beforeData)) w.after.id (some w.after)) w.afterData.id
        (some w.afterData))
    p.result ((v.node p.result).map fun n =>
      { n with payload := .data { c with shape := some (p.outShape ++ [1]) } })
  input := fun q =>
    if q = ⟨p.tile, 0⟩ then some w.beforeData.id
    else if q = ⟨w.before.id, 0⟩ then some input
    else if q = ⟨w.after.id, 0⟩ then some p.result
    else if v.input q = some p.result then some w.afterData.id
    else v.input q
  output := update (update v.output ⟨w.before.id, 0⟩ (some w.beforeData.id))
    ⟨w.after.id, 0⟩ (some w.afterData.id)

/-- The edits of the commit, put together. -/
theorem wrapped_eq {v : View α} {input : NodeId} {c : Content α} {w : Wrapping α}
    (htile : p.tile ≠ w.after.id) (hops : w.after.id ≠ w.before.id)
    (hresult : p.result ≠ w.before.id ∧ p.result ≠ w.beforeData.id ∧ p.result ≠ w.after.id ∧
      p.result ≠ w.afterData.id) :
    (((((((((((v.setNode w.before.id (some w.before)).setNode w.beforeData.id
      (some w.beforeData)).setNode w.after.id (some w.after)).setNode w.afterData.id
      (some w.afterData)).produce ⟨w.before.id, 0⟩ w.beforeData.id).produce ⟨w.after.id, 0⟩
      w.afterData.id).moveReaders p.result w.afterData.id).unplug ⟨p.tile, 0⟩).feed input
      ⟨w.before.id, 0⟩).feed w.beforeData.id ⟨p.tile, 0⟩).feed p.result ⟨w.after.id, 0⟩).setPayload
      p.result (.data { c with shape := some (p.outShape ++ [1]) }) =
    wrapped v p input c w := by
  obtain ⟨h₁, h₂, h₃, h₄⟩ := hresult
  refine View.ext_of_iff (funext fun id => ?_) (fun q d => ?_) fun q d => Iff.rfl
  · simp [View.setPayload, wrapped, Function.update_apply, h₁, h₂, h₃, h₄]
  · simp only [View.setPayload, View.setNode_input, View.feed_input, View.unplug_input,
      View.moveReaders_input, View.produce_input, wrapped, Function.update_apply]
    by_cases hq : q = ⟨w.after.id, 0⟩
    · subst hq
      simp [htile.symm, hops]
    · by_cases hq' : q = ⟨p.tile, 0⟩ <;> simp [hq, hq', htile]

/-- The edits behind the insertion of the four nodes, for any view in which these are there and not
yet connected and the ranks leave room for them. -/
theorem runs_rewire {notes : List LogEntry} {Q : Unit → Graph α → Prop} {E : Graph α → Prop}
    {v : View α} {rank : NodeId → Nat} (hg : g.Presents v rank) {input : NodeId} {c : Content α}
    {before beforeData after afterData : NodeId}
    (hreads : v.input ⟨p.tile, 0⟩ = some input) (hmakes : v.output ⟨p.tile, 0⟩ = some p.result)
    (hc : v.content p.result = some c)
    (hbefore : v.kind before = some .op) (hbeforeData : v.kind beforeData = some .data)
    (hafter : v.kind after = some .op) (hafterData : v.kind afterData = some .data)
    (hloose : ∀ id ∈ [before, beforeData, after, afterData], v.Loose id)
    (hnew : before ≠ after ∧ beforeData ≠ afterData ∧ p.tile ≠ before ∧ p.tile ≠ after ∧
      p.result ≠ afterData)
    (hfront : rank input < rank before ∧ rank before < rank beforeData ∧
      rank beforeData < rank p.tile)
    (hback : rank p.result < rank after ∧ rank after < rank afterData ∧
      ∀ q, v.input q = some p.result → rank afterData < rank q.node)
    (h : ∀ g', g'.Presents ((((((((v.produce ⟨before, 0⟩ beforeData).produce ⟨after, 0⟩
      afterData).moveReaders p.result afterData).unplug ⟨p.tile, 0⟩).feed input ⟨before, 0⟩).feed
      beforeData ⟨p.tile, 0⟩).feed p.result ⟨after, 0⟩).setPayload p.result
      (.data { c with shape := some (p.outShape ++ [1]) })) rank → Q () g') :
    Runs (do
      Edit.produce ⟨before, 0⟩ beforeData
      Edit.produce ⟨after, 0⟩ afterData
      Edit.moveReaders p.result afterData
      Edit.moveInput ⟨p.tile, 0⟩ ⟨before, 0⟩
      Edit.feed beforeData ⟨p.tile, 0⟩
      Edit.feed p.result ⟨after, 0⟩
      Edit.modifyContent p.result fun d => { d with shape := some (p.outShape ++ [1]) })
      ⟨g, notes⟩ Q E := by
  obtain ⟨hba, hbdad, htb, hta, hrad⟩ := hnew
  have hlb := hloose before (by simp)
  have hlbd := hloose beforeData (by simp)
  have hla := hloose after (by simp)
  have hlad := hloose afterData (by simp)
  have hresult := (hg.output_kinds hmakes).2
  have htile := (hg.output_kinds hmakes).1
  have hinput : input ≠ p.result := by
    rintro rfl
    exact absurd (hg.ranked.1 _ _ hreads) (Nat.lt_asymm (hg.ranked.2 _ _ hmakes))
  refine runs_bind (hg.runs_produce hbeforeData hbefore (hlb.output_free 0) hlbd.unmade hfront.2.1
    fun g₁ h₁ _ => ?_)
  refine runs_bind (h₁.runs_produce hafterData hafter ?_ ?_ hback.2.1 fun g₂ h₂ _ => ?_)
  · simp [hba.symm, hla.output_free]
  · intro q
    by_cases hq : q = ⟨before, 0⟩
    · simp [hq, hbdad]
    · simp [hq, hlad.unmade]
  refine runs_bind (h₂.runs_moveReaders hresult hafterData hrad hback.2.2 fun g₃ h₃ _ _ => ?_)
  refine runs_bind (h₃.runs_moveInput (d := input) ?_ hbefore ?_ hfront.1 fun g₄ h₄ _ => ?_)
  · simp [hreads, hinput]
  · simp [hlb.input_free]
  refine runs_bind (h₄.runs_feed hbeforeData htile ?_ hfront.2.2 fun g₅ h₅ _ => ?_)
  · simp [htb]
  refine runs_bind (h₅.runs_feed hresult hafter ?_ hback.1 fun g₆ h₆ _ => ?_)
  · simp [hta.symm, hba.symm, hla.input_free]
  exact h₆.runs_modifyContent hc h

/-- The commit of an accepted plan does not fail and wraps the tile. -/
theorem runs_commit {notes : List LogEntry} {Q : Unit → Graph α → Prop} {E : Graph α → Prop}
    (hg : g.WellFormed) {input : NodeId} (ha : Accepted g p input)
    (h : ∀ g' c w, g.content? p.result = some c → w.Fresh p g.view → g'.WellFormed →
      g'.view = wrapped g.view p input c w → Q () g') :
    Runs (commit p) ⟨g, notes⟩ Q E := by
  obtain ⟨c, hc, _⟩ := ha.after
  obtain ⟨htile, hinput⟩ := hg.live_of_input ha.reads
  have hresult := (hg.live_of_output ha.makes).2
  -- old nodes are six apart
  let position := fun id => g.topologicalOrder.idxOf id
  have h₀ : g.Presents g.view fun id => 6 * position id :=
    hg.presents fun w hw => Nat.mul_lt_mul_of_pos_left (hg.ranked_topologicalOrder w hw) (by decide)
  have hfront : 6 * position input < 6 * position p.tile := h₀.ranked.1 _ _ ha.reads
  refine runs_bind (runs_graph fun _ => runs_bind (h₀.runs_addNode (6 * position p.tile - 2)
    fun before name₁ g₁ hf₁ h₁ _ => ?_))
  refine runs_bind (runs_graph fun _ => runs_bind (h₁.runs_addNode (6 * position p.tile - 1)
    fun beforeData name₂ g₂ hf₂ h₂ _ => ?_))
  refine runs_bind (runs_graph fun _ => runs_bind (h₂.runs_addNode (6 * position p.result + 1)
    fun after name₃ g₃ hf₃ h₃ _ => ?_))
  refine runs_bind (runs_graph fun _ => runs_bind (h₃.runs_addNode (6 * position p.result + 2)
    fun afterData name₄ g₄ hf₄ h₄ _ => ?_))
  obtain ⟨hne₂₁, hf₂⟩ := View.setNode_eq_none hf₂
  obtain ⟨hne₃₂, hf₃⟩ := View.setNode_eq_none hf₃
  obtain ⟨hne₃₁, hf₃⟩ := View.setNode_eq_none hf₃
  obtain ⟨hne₄₃, hf₄⟩ := View.setNode_eq_none hf₄
  obtain ⟨hne₄₂, hf₄⟩ := View.setNode_eq_none hf₄
  obtain ⟨hne₄₁, hf₄⟩ := View.setNode_eq_none hf₄
  have hold : ∀ {id}, g.view.node id ≠ none →
      id ≠ before ∧ id ≠ beforeData ∧ id ≠ after ∧ id ≠ afterData := fun hid =>
    ⟨fun h => hid (h ▸ hf₁), fun h => hid (h ▸ hf₂), fun h => hid (h ▸ hf₃), fun h => hid (h ▸ hf₄)⟩
  obtain ⟨ht₁, ht₂, ht₃, ht₄⟩ := hold htile
  obtain ⟨hi₁, hi₂, hi₃, hi₄⟩ := hold hinput
  obtain ⟨hr₁, hr₂, hr₃, hr₄⟩ := hold hresult
  -- the new nodes are not connected yet, and rank right before and right behind the tile
  refine runs_rewire h₄ (c := c) ha.reads ha.makes ?_ ?_ ?_ ?_ ?_ ?_
    ⟨hne₃₁.symm, hne₄₂.symm, ht₁, ht₃, hr₄⟩ ?_ ?_ fun g' h' => ?_
  · change g.view.content p.result = some c at hc
    simpa [View.content, hr₁, hr₂, hr₃, hr₄] using hc
  · simp [View.kind, hne₂₁.symm, hne₃₁.symm, hne₄₁.symm, Node.kind]
  · simp [View.kind, hne₃₂.symm, hne₄₂.symm, Node.kind]
  · simp [View.kind, hne₄₃.symm, Node.kind]
  · simp [View.kind, Node.kind]
  · intro id hid
    simp only [List.mem_cons, List.not_mem_nil, or_false] at hid
    rcases hid with rfl | rfl | rfl | rfl
    · exact (h₀.loose hf₁).setNode.setNode.setNode.setNode
    · exact (h₀.loose hf₂).setNode.setNode.setNode.setNode
    · exact (h₀.loose hf₃).setNode.setNode.setNode.setNode
    · exact (h₀.loose hf₄).setNode.setNode.setNode.setNode
  · simp only [Function.update_apply, ht₁, ht₂, ht₃, ht₄, hi₁, hi₂, hi₃, hi₄, hne₂₁, hne₂₁.symm,
      hne₃₁.symm, hne₃₂.symm, hne₄₁.symm, hne₄₂.symm, reduceIte]
    omega
  · refine ⟨?_, ?_, fun q hq => ?_⟩
    · simp [hr₁, hr₂, hr₃, hr₄, hne₄₃.symm]
    · simp [hne₄₃.symm]
    · obtain ⟨hq₁, hq₂, hq₃, hq₄⟩ := hold (hg.live_of_input hq).1
      have hlt : 6 * position p.result < 6 * position q.node := h₀.ranked.1 _ _ hq
      simp only [Function.update_apply, hq₁, hq₂, hq₃, hq₄, reduceIte]
      omega
  · let w : Wrapping α :=
      ⟨⟨before, name₁, .op (.ofOperation (.reshapeTo (p.inShape ++ [1]))), {}⟩,
        ⟨beforeData, name₂, .data ⟨some (p.inShape ++ [1]), none, p.inType⟩, {}⟩,
        ⟨after, name₃, .op (.ofOperation (.reshapeTo p.outShape)), {}⟩,
        ⟨afterData, name₄, .data ⟨some p.outShape, none, p.outType⟩, {}⟩⟩
    refine h g' c w hc ⟨⟨hf₁, hf₂, hf₃, hf₄⟩, ⟨hne₂₁, hne₃₁, hne₃₂, hne₄₁, hne₄₂, hne₄₃⟩, rfl, rfl,
      rfl, rfl⟩ h'.wellFormed (h'.view_eq.trans (wrapped_eq (w := w) ht₃ hne₃₁ ⟨hr₁, hr₂, hr₃, hr₄⟩))

end TensorGraph.TileRule
