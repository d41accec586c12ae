/-
  Re-indexing a slice.

  An accepted plan has the slice read each of its bounds at a port of its own, and every bound has a
  value (`Accepted`).  A bound is stored in place or as a private copy, and neither can fail.  The
  loop over the bounds is run once and for all in `runs_commit_bounds`, where an invariant may know
  which bounds are still to come; a property that the three edits keep is kept by the commit
  (`runs_commit`).

    1. `plan_accepted`: what an accepted plan says about the graph.
    2. `runs_storeBound`: one bound, stored in place if its port alone reads it, or else copied into
       a new constant (`copied`).
    3. `Reads.store`, `Reads.copied`, `Reads.setPayload`: neither disturbs the bounds that are still
       to come, since these are at other ports.
-/
import TensorGraph.Proofs.Graph.Step
import TensorGraph.Proofs.Rule.Keeps

namespace TensorGraph.SliceRule

open Edit TensorGraph.Graph

variable {α : Type} {g : Graph α} {p : Plan α}

/-- The slice reads the bound at its port, and the bound has a value of the type of the new one. -/
def Reads (v : View α) (slice : NodeId) (b : Bound α) : Prop :=
  v.input ⟨slice, b.port⟩ = some b.data ∧
    ∃ c value, v.content b.data = some c ∧ c.value = some value ∧ value.type = b.value.type

/-- What an accepted plan says about the slice and its bounds. -/
structure Accepted (g : Graph α) (p : Plan α) : Prop where
  operator : ∃ masks inference, g.operator? p.slice = some ⟨.stridedSlice masks, inference⟩
  bounds : ∀ b ∈ p.bounds, Reads g.view p.slice b
  ports : (p.bounds.map (·.port)).Nodup

/-! ## The plan -/

/-- What has been read as integers is written with the type that it had. -/
theorem ofIntegers_type {value : Tensor α} {entries : List Int64}
    (h : value.integers = .ok entries) (moved : List Int64) :
    value.type = (Tensor.ofIntegers moved value.type : Tensor α).type := by
  obtain ⟨shape, buffer⟩ := value
  cases buffer with
  | int64 values => rfl
  | int32 values => rfl
  | float64 values => cases h
  | float32 values => cases h
  | bytes type content =>
    simp only [Tensor.integers] at h
    split at h <;> cases h

theorem planBounds_eq_ok {slice : NodeId} {q : Permutation} {ellipsis : Option Nat}
    (hop : g.kind? slice = some .op) {ports : List (Nat × Int64)} {bounds : List (Bound α)}
    (h : planBounds g slice q ellipsis ports = .ok bounds) :
    (bounds.map (·.port)).Sublist (ports.map (·.1)) ∧ ∀ b ∈ bounds, Reads g.view slice b := by
  induction ports generalizing bounds with
  | nil =>
    cases h
    simp
  | cons entry ports ih =>
    obtain ⟨port, fill⟩ := entry
    rw [planBounds] at h
    split at h
    · obtain ⟨hports, hreads⟩ := ih h
      exact ⟨hports.cons _, hreads⟩
    · rename_i data hdata
      obtain ⟨c, hc, h⟩ := planning_bind_eq_ok.mp h
      split at h
      case h_2 => cases h
      rename_i value hvalue
      obtain ⟨_, h⟩ := planning_halt_unless_eq_ok.mp h
      obtain ⟨entries, hentries, h⟩ := planning_bind_eq_ok.mp h
      obtain ⟨rest, hrest, h⟩ := except_bind_eq_ok.mp h
      cases h
      obtain ⟨hports, hreads⟩ := ih hrest
      refine ⟨hports.cons_cons _, fun b hb => ?_⟩
      rcases List.mem_cons.mp hb with rfl | hb
      · rw [← view_input_of_op hop] at hdata
        exact ⟨hdata, c, value, content_eq_ok.mp hc, hvalue, ofIntegers_type hentries _⟩
      · exact hreads b hb

theorem plan_accepted {m : Match} (h : plan m g = .ok p) : Accepted g p := by
  rw [plan] at h
  obtain ⟨_, h⟩ := planning_halt_if_eq_ok.mp h
  obtain ⟨slice, _, h⟩ := planning_bind_eq_ok.mp h
  obtain ⟨⟨operation, inference⟩, ho, h⟩ := planning_bind_eq_ok.mp h
  rw [operator_eq_ok] at ho
  split at h
  case h_2 => cases h
  rename_i masks hoperation
  obtain rfl : operation = .stridedSlice masks := hoperation
  obtain ⟨_, h⟩ := planning_halt_if_eq_ok.mp h
  obtain ⟨inRank, _, h⟩ := planning_bind_eq_ok.mp h
  obtain ⟨outRank, _, h⟩ := planning_bind_eq_ok.mp h
  split at h
  case h_2 => cases h
  obtain ⟨_, h⟩ := planning_halt_if_eq_ok.mp h
  obtain ⟨n, _, h⟩ := planning_bind_eq_ok.mp h
  obtain ⟨bounds, hbounds, h⟩ := except_bind_eq_ok.mp h
  cases h
  obtain ⟨hports, hreads⟩ := planBounds_eq_ok (kind?_eq_op.mpr ⟨_, ho⟩) hbounds
  exact ⟨⟨masks, inference, ho⟩, hreads, hports.nodup (by decide)⟩

/-! ## The commit -/

/-- The graph in which a port of the slice reads a new constant. -/
def copied (v : View α) (slice : NodeId) (b : Bound α) (constant copy : Node α) : View α :=
  ((((v.setNode constant.id (some constant)).setNode copy.id (some copy)).produce
    ⟨constant.id, 0⟩ copy.id).unplug ⟨slice, b.port⟩).feed copy.id ⟨slice, b.port⟩

/-- The nodes of a private copy of a bound: unused ids, a source and the value. -/
structure Copies (v : View α) (b : Bound α) (constant copy : Node α) : Prop where
  constant_unused : v.node constant.id = none
  copy_unused : v.node copy.id = none
  distinct : copy.id ≠ constant.id
  constant : constant.payload = .op (.ofOperation .const)
  copy : copy.payload = .data (.constant b.value)

variable {notes : List LogEntry} {Q : Unit → Graph α → Prop} {E : Graph α → Prop}

theorem runs_storeBound (hg : g.WellFormed) {slice : NodeId} {b : Bound α}
    (hreads : g.view.input ⟨slice, b.port⟩ = some b.data)
    (hstore : (∀ q, g.view.input q = some b.data → q = ⟨slice, b.port⟩) →
      ∀ g', g'.WellFormed → g'.view = g.view.store b.data b.value → Q () g')
    (hcopy : ∀ g' constant copy, Copies g.view b constant copy → g'.WellFormed →
      g'.view = copied g.view slice b constant copy → Q () g') :
    Runs (storeBound slice b) ⟨g, notes⟩ Q E := by
  obtain ⟨hslice, hdata⟩ := hg.view_input_kinds hreads
  have hsliceLive : g.view.node slice ≠ none := View.node_ne_none_of_kind (v := g.view) hslice
  refine runs_bind (runs_graph fun notes => ?_)
  split
  · rename_i hone
    refine (hg.presents hg.ranked_topologicalOrder).runs_store hdata fun g' hg' => ?_
    exact hstore (fun q hq => hg.view_input_unique hdata hone hq hreads) g' hg'.wellFormed
      hg'.view_eq
  · -- the new nodes come before all others
    let rank := fun id => g.topologicalOrder.idxOf id + 2
    have h₀ : g.Presents g.view rank :=
      hg.presents fun w hw => Nat.add_lt_add_right (hg.ranked_topologicalOrder w hw) 2
    refine runs_bind (runs_query (fun n hn notes => ?_) fun e he => ?_)
    · refine runs_bind (runs_graph fun _ => runs_bind (h₀.runs_addNode 0
        fun constant name₁ g₁ hf₁ h₁ _ => ?_))
      refine runs_bind (runs_graph fun _ => runs_bind (h₁.runs_addNode 1
        fun copy name₂ g₂ hf₂ h₂ _ => ?_))
      obtain ⟨hne, hf₂⟩ := View.setNode_eq_none hf₂
      have hold : slice ≠ constant ∧ slice ≠ copy :=
        ⟨fun h => hsliceLive (h ▸ hf₁), fun h => hsliceLive (h ▸ hf₂)⟩
      have hcopyData : ∀ {v : View α}, (v.setNode copy
          (some ⟨copy, name₂, .data (.constant b.value), {}⟩)).kind copy = some .data := by
        simp [View.kind, Node.kind]
      refine runs_bind (h₂.runs_produce hcopyData ?_ ?_ ?_ ?_ fun g₃ h₃ _ => ?_)
      · simp [View.kind, Node.kind, hne.symm]
      · exact (h₀.loose hf₁).output_free 0
      · exact (h₀.loose hf₂).unmade
      · simp [hne.symm]
      refine runs_bind (h₃.runs_unplug hreads fun g₄ h₄ _ => ?_)
      refine runs_bind (h₄.runs_feed hcopyData ?_ ?_ ?_ fun g₅ h₅ _ => ?_)
      · change g.view.kind slice = some .op at hslice
        simpa [View.kind, hold] using hslice
      · simp
      · simp [hold, rank]
      · exact runs_log (hcopy g₅ ⟨constant, name₁, _, {}⟩ ⟨copy, name₂, _, {}⟩
          ⟨hf₁, hf₂, hne, rfl, rfl⟩ h₅.wellFormed h₅.view_eq)
    · obtain ⟨n, hn⟩ := Option.ne_none_iff_exists'.mp
        (View.node_ne_none_of_kind (v := g.view) hdata)
      rw [node_eq_ok.mpr (show g.node? b.data = some n from hn)] at he
      cases he

/-! ### The bounds that are still to come -/

section Later

variable {v : View α} {slice : NodeId} {b b' : Bound α}

theorem Reads.store (h : Reads v slice b') (hb : Reads v slice b) :
    Reads (v.store b.data b.value) slice b' := by
  obtain ⟨hinput, c, value, hc, hvalue, htype⟩ := h
  refine ⟨by rw [View.store_input, hinput], ?_⟩
  by_cases hdata : b'.data = b.data
  · obtain ⟨-, c₁, value₁, hc₁, hvalue₁, htype₁⟩ := hb
    rw [hdata] at hc ⊢
    obtain rfl := Option.some.inj (hc.symm.trans hc₁)
    obtain rfl := Option.some.inj (hvalue.symm.trans hvalue₁)
    exact ⟨_, b.value, View.store_content_self hc, rfl, htype₁.symm.trans htype⟩
  · refine ⟨c, value, ?_, hvalue, htype⟩
    rw [View.content, View.store_node_of_ne hdata]
    exact hc

theorem Reads.copied {constant copy : Node α} (h : Reads v slice b')
    (hcopies : Copies v b constant copy) (hport : b'.port ≠ b.port) :
    Reads (copied v slice b constant copy) slice b' := by
  obtain ⟨hinput, c, value, hc, hvalue⟩ := h
  have hlive : v.node b'.data ≠ none := by
    intro hnone
    rw [View.content, hnone] at hc
    cases hc
  have hconstant : b'.data ≠ constant.id := fun heq => hlive (heq ▸ hcopies.constant_unused)
  have hcopy : b'.data ≠ copy.id := fun heq => hlive (heq ▸ hcopies.copy_unused)
  refine ⟨?_, c, value, ?_, hvalue⟩
  · simpa [SliceRule.copied, hport] using hinput
  · simpa [SliceRule.copied, View.content, hconstant, hcopy] using hc

theorem Reads.setPayload {payload : Payload α} (h : Reads v slice b)
    (hslice : v.kind slice = some .op) : Reads (v.setPayload slice payload) slice b := by
  obtain ⟨hinput, c, value, hc, hvalue⟩ := h
  have hdata : b.data ≠ slice := by
    rintro rfl
    exact absurd (hslice.symm.trans (View.kind_of_content hc)) (by decide)
  exact ⟨hinput, c, value, by simpa [View.content, View.setPayload, hdata] using hc, hvalue⟩

end Later

/-- The commit of an accepted plan does not fail.  What holds on the way may depend on the bounds
that are still to come: it holds with all of them once the masks are changed, and storing a bound,
in place or as a copy, takes it to the rest of them. -/
theorem runs_commit_bounds (hg : g.WellFormed) (ha : Accepted g p)
    {I : List (Bound α) → View α → Prop}
    (hmasks : ∀ o, g.operator? p.slice = some o →
      I p.bounds (g.view.setPayload p.slice (.op { o with operation := .stridedSlice p.masks })))
    (hstore : ∀ (g₁ : Graph α) b rest, g₁.WellFormed → I (b :: rest) g₁.view →
      Reads g₁.view p.slice b → (∀ q, g₁.view.input q = some b.data → q = ⟨p.slice, b.port⟩) →
      I rest (g₁.view.store b.data b.value))
    (hcopy : ∀ (g₁ : Graph α) b rest constant copy, g₁.WellFormed → I (b :: rest) g₁.view →
      Reads g₁.view p.slice b → Copies g₁.view b constant copy →
      I rest (copied g₁.view p.slice b constant copy)) :
    Runs (commit p) ⟨g, notes⟩ (fun _ g' => g'.WellFormed ∧ I [] g'.view) E := by
  obtain ⟨masks, inference, ho⟩ := ha.operator
  have h₀ := hg.presents hg.ranked_topologicalOrder
  refine runs_bind (h₀.runs_setOperation ho fun g₁ h₁ _ => ?_)
  -- the bounds still to come are read at ports that no edit so far has touched
  refine (runs_forM (fun bounds g => g.WellFormed ∧ I bounds g.view ∧
    (∀ b ∈ bounds, Reads g.view p.slice b) ∧ (bounds.map (·.port)).Nodup) ?_ p.bounds ⟨g₁, _⟩
    ⟨h₁.wellFormed, ?_, ?_, ha.ports⟩).imp (fun _ _ h => ⟨h.1, h.2.1⟩) fun _ h => h
  · rintro b rest ⟨g, notes⟩ ⟨hg, hI, hreads, hports⟩
    obtain ⟨hport, hrest⟩ := List.nodup_cons.mp hports
    have hb := hreads b List.mem_cons_self
    refine runs_storeBound hg hb.1 (fun hone g' hg' hview => ?_) fun g' constant copy hc hg' hview => ?_
    · refine ⟨hg', ?_, ?_, hrest⟩ <;> rw [hview]
      · exact hstore g b rest hg hI hb hone
      · exact fun b' hb' => (hreads b' (List.mem_cons_of_mem _ hb')).store hb
    · refine ⟨hg', ?_, ?_, hrest⟩ <;> rw [hview]
      · exact hcopy g b rest constant copy hg hI hb hc
      · refine fun b' hb' => (hreads b' (List.mem_cons_of_mem _ hb')).copied hc fun heq => ?_
        exact hport (List.mem_map.mpr ⟨b', hb', heq⟩)
  · rw [h₁.view_eq]
    exact hmasks _ ho
  · intro b hb
    rw [h₁.view_eq]
    exact (ha.bounds b hb).setPayload (kind?_eq_op.mpr ⟨_, ho⟩)

/-- What the edits of a commit keep, the commit keeps: changing the masks, and storing a bound in
place or as a copy. -/
theorem runs_commit (hg : g.WellFormed) (ha : Accepted g p) {I : View α → Prop}
    (hmasks : ∀ o, g.operator? p.slice = some o →
      I (g.view.setPayload p.slice (.op { o with operation := .stridedSlice p.masks })))
    (hstore : ∀ (g₁ : Graph α) b, g₁.WellFormed → I g₁.view → Reads g₁.view p.slice b →
      (∀ q, g₁.view.input q = some b.data → q = ⟨p.slice, b.port⟩) →
      I (g₁.view.store b.data b.value))
    (hcopy : ∀ (g₁ : Graph α) b constant copy, g₁.WellFormed → I g₁.view → Reads g₁.view p.slice b →
      Copies g₁.view b constant copy → I (copied g₁.view p.slice b constant copy)) :
    Runs (commit p) ⟨g, notes⟩ (fun _ g' => g'.WellFormed ∧ I g'.view) E :=
  runs_commit_bounds hg ha (I := fun _ => I) hmasks (fun g₁ b _ => hstore g₁ b)
    fun g₁ b _ => hcopy g₁ b

end TensorGraph.SliceRule
