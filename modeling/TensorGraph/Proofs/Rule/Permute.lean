/-
  Fusing two permutes.

  The match and an accepted plan fix the chain from the input of the first permute to the result of
  the second (`Accepted`).  The commit moves the readers of that result, which closes no cycle, and
  removes the second permute, and both if they cancel.  A removal is refused if the permute has
  another result that is read and has no value: `runs_commit` tells the outcomes apart, with what is
  left of the graph in each.

  Along the way the view is `detached`, where nothing reads the last result any more and the second
  permute is gone, and then `cancelled` or `fused`: without the first permute as well, or with the
  composed order at the first permute.  That the nodes of the chain are distinct
  (`Accepted.distinct`) follows from their ranks.
-/
import TensorGraph.Proofs.Graph.Step
import TensorGraph.Proofs.Pattern.Match

namespace TensorGraph.PermuteRule

open Edit TensorGraph.Graph
open Function (update)

variable {α : Type} {g : Graph α} {p : Plan}

/-- What the match and an accepted plan say about the two permutes and the data around them. -/
structure Accepted (g : Graph α) (p : Plan) : Prop where
  reads_input : g.view.input ⟨p.first, 0⟩ = some p.input
  makes_mid : g.view.output ⟨p.first, 0⟩ = some p.mid
  reads_mid : g.view.input ⟨p.second, 0⟩ = some p.mid
  makes_last : g.view.output ⟨p.second, 0⟩ = some p.last
  one_reader : ∀ q, g.view.input q = some p.mid → q = ⟨p.second, 0⟩
  orders : ∃ order₁ order₂ inference₁ inference₂ first second,
    g.operator? p.first = some ⟨.permute order₁, inference₁⟩ ∧
    g.operator? p.second = some ⟨.permute order₂, inference₂⟩ ∧
    axisOrder p.first order₁ = .ok first ∧ axisOrder p.second order₂ = .ok second ∧
    first.compose? second = some p.composed
  last : ∃ c, g.content? p.last = some c ∧ c.shape = p.lastShape

theorem permutationOf_eq_ok {op : NodeId} {q : Permutation} (h : permutationOf g op = .ok q) :
    ∃ order inference, g.operator? op = some ⟨.permute order, inference⟩ ∧
      axisOrder op order = .ok q := by
  obtain ⟨⟨operation, inference⟩, ho, h⟩ := except_bind_eq_ok.mp h
  rw [operator_eq_ok] at ho
  split at h
  · rename_i order hoperation
    obtain rfl : operation = .permute order := hoperation
    exact ⟨order, inference, ho, h⟩
  · cases h

theorem plan_accepted (hg : g.WellFormed) {pat : Pattern} (hpat : pattern = .ok pat) {m : Match}
    (hm : m ∈ pat.allMatches g) (h : plan m g = .ok p) : Accepted g p := by
  have hfits := (Pattern.mem_allMatches_iff hg hpat).mp hm
  rw [plan] at h
  obtain ⟨first, hfirst, h⟩ := planning_bind_eq_ok.mp h
  obtain ⟨mid, hmid, h⟩ := planning_bind_eq_ok.mp h
  obtain ⟨second, hsecond, h⟩ := planning_bind_eq_ok.mp h
  dsimp only at h
  split at h
  case isTrue => cases h
  rename_i hone
  rw [ne_eq, not_not] at hone
  obtain ⟨firstOrder, hfirstOrder, h⟩ := planning_bind_eq_ok.mp h
  obtain ⟨secondOrder, hsecondOrder, h⟩ := planning_bind_eq_ok.mp h
  split at h
  case h_2 => cases h
  rename_i composed hcomposed
  obtain ⟨input, hinput, h⟩ := planning_bind_eq_ok.mp h
  split at h
  case h_2 => cases h
  rename_i last hlast
  obtain ⟨c, hc, h⟩ := planning_bind_eq_ok.mp h
  cases h
  obtain ⟨order₁, inference₁, ho₁, hp₁⟩ := permutationOf_eq_ok hfirstOrder
  obtain ⟨order₂, inference₂, ho₂, hp₂⟩ := permutationOf_eq_ok hsecondOrder
  have hop₁ : g.kind? first = some .op := kind?_eq_op.mpr ⟨_, ho₁⟩
  have hop₂ : g.kind? second = some .op := kind?_eq_op.mpr ⟨_, ho₂⟩
  rw [operand_eq_ok, ← view_input_of_op hop₁] at hinput
  rw [← view_output_of_op hop₂] at hlast
  -- the rest is what the pattern says
  have hmakes := hfits.output_eq hg (k := 0) (by simp) (by simp) hfirst hmid
  have hreads := hfits.input_eq hg (k := 0) (by simp) (by simp) hmid hsecond
  have hdata := hfits.kind_eq_data (by simp) hmid
  exact ⟨hinput, hmakes, hreads, hlast, fun q hq => hg.view_input_unique hdata hone hq hreads,
    ⟨order₁, order₂, inference₁, inference₂, firstOrder, secondOrder, ho₁, ho₂, hp₁, hp₂,
      hcomposed⟩, ⟨c, content_eq_ok.mp hc, rfl⟩⟩

/-! ## The commit -/

/-- The graph without the second permute: what read its result reads the target. -/
def detached (v : View α) (p : Plan) (target : NodeId) : View α :=
  ((v.moveReaders p.last target).erase p.second).erase p.last

/-- The graph without the two permutes: what read the result of the second reads the input of the
first. -/
def cancelled (v : View α) (p : Plan) : View α :=
  ((detached v p p.input).erase p.mid).erase p.first

/-- The graph with the first permute in the place of both. -/
def fused (v : View α) (p : Plan) (o : Operator) (c : Content α) : View α :=
  ((detached v p p.mid).setPayload p.first
    (.op { o with operation := .permute p.composed.order })).setPayload p.mid
    (.data { c with shape := p.lastShape })

namespace Accepted

variable (ha : Accepted g p)
include ha

/-- The five nodes come one after the other. -/
theorem chain {rank : NodeId → Nat} (hrank : g.view.Ranked rank) :
    rank p.input < rank p.first ∧ rank p.first < rank p.mid ∧ rank p.mid < rank p.second ∧
      rank p.second < rank p.last :=
  ⟨hrank.1 _ _ ha.reads_input, hrank.2 _ _ ha.makes_mid, hrank.1 _ _ ha.reads_mid,
    hrank.2 _ _ ha.makes_last⟩

variable (hg : g.WellFormed)
include hg

theorem distinct :
    (p.input ≠ p.first ∧ p.input ≠ p.mid ∧ p.input ≠ p.second ∧ p.input ≠ p.last) ∧
    (p.first ≠ p.mid ∧ p.first ≠ p.second ∧ p.first ≠ p.last) ∧
    (p.mid ≠ p.second ∧ p.mid ≠ p.last) ∧ p.second ≠ p.last := by
  have hchain := ha.chain (hg.ranked_view.mpr hg.ranked_topologicalOrder)
  have hsorted : (List.map (fun id => g.topologicalOrder.idxOf id)
      [p.input, p.first, p.mid, p.second, p.last]).IsChain (· < ·) := by
    simpa using hchain
  have hnodup : [p.input, p.first, p.mid, p.second, p.last].Nodup :=
    .of_map _ (hsorted.pairwise.imp Nat.ne_of_lt)
  simpa [and_assoc] using hnodup

/-- With the readers of its result moved, the second permute can be removed unless one of its other
results is needed. -/
theorem removable_second {target : NodeId} (ht : target = p.input ∨ target = p.mid) :
    (g.view.moveReaders p.last target).Removable p.second ↔
      ¬ g.view.Strands p.second p.last p.second := by
  have hrank := hg.ranked_view.mpr hg.ranked_topologicalOrder
  obtain ⟨h₁, h₂, h₃, h₄⟩ := ha.chain hrank
  have hop : (g.view.moveReaders p.last target).kind p.second = some .op :=
    (hg.view_input_kinds ha.reads_mid).1
  rw [View.removable_op hop]
  constructor
  · rintro h ⟨i, d, q, c, hmakes, hne, hreads, -, hc, hvalue⟩
    exact h i d hmakes ⟨⟨q, View.moveReaders_input_iff.mpr (.inr ⟨hne, hreads⟩)⟩, c, hc,
      hvalue⟩
  · rintro h i d hmakes ⟨⟨q, hq⟩, c, hc, hvalue⟩
    have hd := hrank.2 _ _ hmakes
    rcases View.moveReaders_input_iff.mp hq with ⟨-, rfl⟩ | ⟨hne, hreads⟩
    · -- the target comes before the second permute and is none of its results
      rcases ht with h | h <;> rw [h] at hd <;> dsimp only at hd <;> omega
    · refine h ⟨i, d, q, c, hmakes, hne, hreads, fun hq => ?_, hc, hvalue⟩
      have hlt := hrank.1 _ _ hreads
      rw [hq] at hlt
      exact absurd hd (Nat.lt_asymm hlt)

/-- With everything behind it gone, the first permute can be removed unless one of its other results
is needed by something that is still there. -/
theorem removable_first :
    ((detached g.view p p.input).erase p.mid).Removable p.first ↔
      ¬ g.view.Strands p.first p.mid p.second := by
  have hrank := hg.ranked_view.mpr hg.ranked_topologicalOrder
  obtain ⟨-, ⟨h₅, h₆, h₇⟩, -, -⟩ := ha.distinct hg
  have hkinds := hg.view_output_kinds ha.makes_mid
  have hop : ((detached g.view p p.input).erase p.mid).kind p.first = some .op := by
    rw [View.erase_kind_of_ne h₅, detached, View.erase_kind_of_ne h₇, View.erase_kind_of_ne h₆]
    exact hkinds.1
  -- a result of the first permute is none of the removed nodes
  have hother : ∀ {i d}, g.view.output ⟨p.first, i⟩ = some d → d ≠ p.second ∧ d ≠ p.last := by
    intro i d hd
    refine ⟨(op_ne_data (hg.view_input_kinds ha.reads_mid).1 (hg.view_output_kinds hd).2).symm, ?_⟩
    rintro rfl
    exact h₆ (congrArg OutputPort.node (hg.view_output_inj hd ha.makes_last))
  rw [View.removable_op hop]
  constructor
  · rintro h ⟨i, d, q, c, hmakes, hmid, hreads, hq, hc, hvalue⟩
    obtain ⟨hsecond, hlast⟩ := hother hmakes
    have hqop := (hg.view_input_kinds hreads).1
    refine h i d ?_ ⟨⟨q, ?_⟩, c, ?_, hvalue⟩
    · simp only [detached, View.erase_output_iff, View.moveReaders_output]
      exact ⟨h₅, hmid, h₇, hlast, h₆, hsecond, hmakes⟩
    · simp only [detached, View.erase_input_iff, View.moveReaders_input_iff]
      exact ⟨op_ne_data hqop hkinds.2, hmid,
        op_ne_data hqop (hg.view_output_kinds ha.makes_last).2, hlast, hq, hsecond,
        .inr ⟨hlast, hreads⟩⟩
    · rw [View.erase_content_of_ne hmid, detached, View.erase_content_of_ne hlast,
        View.erase_content_of_ne hsecond]
      exact hc
  · rintro h i d hmakes ⟨⟨q, hq⟩, c, hc, hvalue⟩
    simp only [detached, View.erase_output_iff, View.moveReaders_output] at hmakes
    obtain ⟨-, hmid, -, hlast, -, hsecond, hmakes⟩ := hmakes
    simp only [detached, View.erase_input_iff, View.moveReaders_input_iff] at hq
    obtain ⟨-, -, -, -, hq, -, hreads⟩ := hq
    rw [View.erase_content_of_ne hmid, detached, View.erase_content_of_ne hlast,
      View.erase_content_of_ne hsecond] at hc
    rcases hreads with ⟨-, rfl⟩ | ⟨-, hreads⟩
    · -- nor is the input a result of the first one
      exact absurd (hrank.2 _ _ hmakes) (Nat.lt_asymm (ha.chain hrank).1)
    · exact h ⟨i, d, q, c, hmakes, hmid, hreads, hq, hc, hvalue⟩

/-- Without the second permute nothing reads what is between the two. -/
theorem mid_unread (q : InputPort) : (detached g.view p p.input).input q ≠ some p.mid := by
  obtain ⟨⟨-, hmid, -, -⟩, -⟩ := ha.distinct hg
  intro hq
  simp only [detached, View.erase_input_iff, View.moveReaders_input_iff] at hq
  obtain ⟨-, -, hnode, -, ⟨-, h⟩ | ⟨-, h⟩⟩ := hq
  · exact hmid h.symm
  · rw [ha.one_reader q h] at hnode
    exact hnode rfl

end Accepted

/-- Moving the readers of a node away changes the graph exactly if there are any. -/
theorem moved_eq_iff {g' : Graph α} {old new : NodeId} (hne : old ≠ new)
    (hview : g'.view = g.view.moveReaders old new)
    (hsame : (∀ q, g.view.input q ≠ some old) → g' = g) :
    g' = g ↔ ∀ q, g.view.input q ≠ some old := by
  refine ⟨?_, hsame⟩
  rintro rfl q hq
  have hself := congrFun (congrArg View.input hview) q
  rw [View.moveReaders_input, if_pos hq, hq] at hself
  exact hne (Option.some.inj hself)

/-- The first three edits, which both commits begin with. -/
theorem runs_detach {notes : List LogEntry} {Q : Unit → Graph α → Prop} {E : Graph α → Prop}
    {rank : NodeId → Nat} (hg : g.Presents g.view rank) (ha : Accepted g p) {target : NodeId}
    (ht : target = p.input ∨ target = p.mid) {rest : Edit α Unit}
    (hrest : ¬ g.view.Strands p.second p.last p.second →
      ∀ g' notes, g'.Presents (detached g.view p target) rank → Runs rest ⟨g', notes⟩ Q E)
    (hstranded : g.view.Strands p.second p.last p.second → ∀ g',
      (g' = g ↔ ∀ q, g.view.input q ≠ some p.last) → E g') :
    Runs (do
      Edit.moveReaders p.last target
      let _ ← Edit.removeNode p.second
      let _ ← Edit.removeNode p.last
      rest) ⟨g, notes⟩ Q E := by
  obtain ⟨h₁, h₂, h₃, h₄⟩ := ha.chain hg.ranked
  have hlow : rank target < rank p.last := by
    rcases ht with rfl | rfl <;> omega
  have htarget : g.kind? target = some .data := by
    rcases ht with rfl | rfl
    · exact (hg.wellFormed.view_input_kinds ha.reads_input).2
    · exact (hg.wellFormed.view_input_kinds ha.reads_mid).2
  obtain ⟨hsecond, hlast⟩ := hg.wellFormed.view_output_kinds ha.makes_last
  have hne : p.last ≠ target := by
    rintro h
    rw [h] at hlow
    exact absurd hlow (Nat.lt_irrefl _)
  have hkinds : p.last ≠ p.second := (op_ne_data hsecond hlast).symm
  refine runs_bind (hg.runs_moveReaders hlast htarget hne (fun q hq => ?_) fun g₁ p₁ hsame _ => ?_)
  · exact Nat.lt_trans hlow (hg.ranked.1 q _ hq)
  refine runs_bind (p₁.runs_removeNode (View.node_ne_none_of_kind hsecond)
    (fun hremovable _ g₂ p₂ _ => ?_) fun hrefused => ?_)
  · rw [ha.removable_second hg.wellFormed ht] at hremovable
    have hdata : ((g.view.moveReaders p.last target).erase p.second).kind p.last = some .data :=
      (View.erase_kind_of_ne hkinds).trans hlast
    refine runs_bind (p₂.runs_removeNode (View.node_ne_none_of_kind hdata)
      (fun _ _ g₃ p₃ _ => hrest hremovable _ _ p₃) fun hrefused => ?_)
    · refine absurd (View.removable_data hdata fun q hq => ?_) hrefused
      rcases View.moveReaders_input_iff.mp (View.erase_input_iff.mp hq).2.2 with h | h
      · exact hne h.2
      · exact h.1 rfl
  · rw [ha.removable_second hg.wellFormed ht, not_not] at hrefused
    exact hstranded hrefused g₁ (moved_eq_iff hne p₁.view_eq hsame)

/-- The commit of an accepted plan fuses the permutes or, if they cancel, removes both.  It fails if
a permute that is to be removed has another result that is needed.  By then the readers of the last
result have moved, and if it is the first permute, the second one is gone. -/
theorem runs_commit {notes : List LogEntry} {Q : Unit → Graph α → Prop} {E : Graph α → Prop}
    (hg : g.WellFormed) (ha : Accepted g p)
    (hfused : ¬ g.view.Strands p.second p.last p.second → p.composed.isIdentity = false →
      ∀ g' o c, g.operator? p.first = some o → g.content? p.mid = some c → g'.WellFormed →
      g'.view = fused g.view p o c → Q () g')
    (hcancelled : ¬ g.view.Strands p.second p.last p.second → p.composed.isIdentity = true →
      ¬ g.view.Strands p.first p.mid p.second → ∀ g', g'.WellFormed →
      g'.view = cancelled g.view p → Q () g')
    (hsecond : g.view.Strands p.second p.last p.second → ∀ g',
      (g' = g ↔ ∀ q, g.view.input q ≠ some p.last) → E g')
    (hfirst : ¬ g.view.Strands p.second p.last p.second → p.composed.isIdentity = true →
      g.view.Strands p.first p.mid p.second → ∀ g', g' ≠ g → E g') :
    Runs (commit p) ⟨g, notes⟩ Q E := by
  let rank := fun id => g.topologicalOrder.idxOf id
  have h₀ : g.Presents g.view rank := hg.presents hg.ranked_topologicalOrder
  obtain ⟨-, ⟨n₅, n₆, n₇⟩, ⟨n₈, n₉⟩, -⟩ := ha.distinct hg
  obtain ⟨hfirstOp, hmidData⟩ := hg.view_output_kinds ha.makes_mid
  rw [commit]
  split
  · rename_i hidentity
    have hmid : (detached g.view p p.input).kind p.mid = some .data := by
      rw [detached, View.erase_kind_of_ne n₉, View.erase_kind_of_ne n₈]
      exact hmidData
    have hfirstOp' : ((detached g.view p p.input).erase p.mid).kind p.first = some .op := by
      rw [View.erase_kind_of_ne n₅, detached, View.erase_kind_of_ne n₇, View.erase_kind_of_ne n₆]
      exact hfirstOp
    refine runs_detach h₀ ha (.inl rfl) (fun hkept g₃ notes p₃ => ?_) hsecond
    refine runs_bind (p₃.runs_removeNode (View.node_ne_none_of_kind hmid)
      (fun _ _ g₄ p₄ _ => ?_) fun hrefused => absurd (View.removable_data hmid (ha.mid_unread hg)) hrefused)
    refine runs_bind (p₄.runs_removeNode (View.node_ne_none_of_kind hfirstOp')
      (fun hremovable _ g₅ p₅ _ => ?_) fun hrefused => ?_)
    · rw [ha.removable_first hg] at hremovable
      exact runs_pure (hcancelled hkept hidentity hremovable g₅ p₅.wellFormed p₅.view_eq)
    · rw [ha.removable_first hg, not_not] at hrefused
      refine hfirst hkept hidentity hrefused g₄ ?_
      rintro rfl
      refine View.node_ne_none_of_kind (v := g₄.view) hmidData ?_
      rw [p₄.view_eq, View.erase_node, Function.update_self]
  · rename_i hidentity
    obtain ⟨o, ho⟩ := kind?_eq_op.mp hfirstOp
    obtain ⟨c, hc⟩ := kind?_eq_data.mp hmidData
    refine runs_detach h₀ ha (.inr rfl) (fun hkept g₃ notes p₃ => ?_) hsecond
    have ho' : (detached g.view p p.mid).operator p.first = some o := by
      rw [← ho]
      simp [View.operator, detached, n₆, n₇, operator?, view]
    refine runs_bind (p₃.runs_setOperation ho' fun g₄ p₄ _ => ?_)
    refine p₄.runs_modifyContent (c := c) ?_ fun g₅ p₅ => ?_
    · rw [← hc]
      simp [View.content, View.setPayload, detached, n₅.symm, n₈, n₉, content?, view]
    · exact hfused hkept (by simpa using hidentity) g₅ o c ho hc p₅.wellFormed p₅.view_eq

end TensorGraph.PermuteRule
