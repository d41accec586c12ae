/-
  Rounds that come to an end.

  A round gives up with an error if it takes more steps than its limit allows.  It does not where
  some number falls with every offer and is below the limit at the start (`runs_offerRound_within`).

  The limit of a rule is the number of ways to bind the roles of its pattern to the nodes of the
  graph, and there are no more matches than that (`length_allMatches_le`).  So a rule that declines
  every match of a graph gets to see all of them, answers that it replaced nothing and leaves the
  graph as it is (`settles_of_declined`).
-/
import TensorGraph.Proofs.Rule.Offers
import TensorGraph.Proofs.Rule.Underway

namespace TensorGraph

open Edit TensorGraph.Graph

variable {α : Type} {g : Graph α}

/-! ## Rounds with a number that falls -/

namespace Rule

section Within

variable {limit : Pattern → Graph α → Nat} {name : String} {pattern : Pattern}
  {replace : Match → Edit α Bool} {E : Graph α → Prop} (R : List Offer → Graph α → Prop)
  (left : List Offer → Graph α → Nat)
  (hreplace : ∀ offers (s : Session α) m, R offers s.graph → m ∈ pattern.allMatches s.graph →
    m.nodes ∉ offers.map (·.nodes) →
    Runs (replace m) s (fun replaced g' => R (⟨m.nodes, replaced⟩ :: offers) g' ∧
      left (⟨m.nodes, replaced⟩ :: offers) g' < left offers s.graph) E)
include hreplace

/-- A round ends by itself if the number is below the limit at the start. -/
theorem runs_offerRound_within {s : Session α} (hs : R [] s.graph)
    (hleft : left [] s.graph < limit pattern s.graph) :
    Runs (offerRound limit name pattern replace) s
      (fun recorded g => R recorded.reverse g ∧
        pattern.firstMatch? g (recorded.reverse.map (·.nodes)).contains = none) E := by
  refine runs_bind (runs_graph fun notes => ?_)
  refine (runs_offerSteps_counted (fun steps offers g => R offers g ∧ left offers g < steps)
    (fun _ _ h => absurd h.2 (Nat.not_lt_zero _)) (fun steps offers s m hs hm hnew => ?_) _
    (s := ⟨s.graph, notes⟩) ⟨hs, hleft⟩).imp (fun recorded g h => ?_) fun _ hE => hE
  · refine (hreplace offers s m hs.1 hm hnew).imp (fun _ _ h => ⟨h.1, ?_⟩) fun _ hE => hE
    exact Nat.lt_of_lt_of_le h.2 (Nat.le_of_lt_succ hs.2)
  · rw [List.append_nil] at h
    obtain ⟨⟨_, hR, -⟩, hnone⟩ := h
    exact ⟨hR, hnone⟩

end Within

end Rule

/-! ## Counting matches -/

theorem Pattern.live_of_mem_extensions {p : Pattern} (hg : g.WellFormed) {found : List NodeId}
    (h : found ∈ p.extensions g g.topologicalOrder p.roles []) {id : NodeId} (hid : id ∈ found) :
    ∃ n, g.node? id = some n := by
  obtain ⟨-, -, hbinds⟩ := (mem_extensions hg p.roles [] [] rfl rfl binds_nil).mp h
  obtain ⟨i, hi⟩ := List.mem_iff_getElem?.mp hid
  obtain ⟨-, n, -, hn, -⟩ := hbinds.roles i id hi
  exact ⟨n, hn⟩

/-- There are no more matches than ways to bind roles to nodes. -/
theorem Pattern.length_allMatches_le {p : Pattern} (hg : g.WellFormed) :
    (p.allMatches g).length ≤ Nat.pow g.nodes.length p.roles.length := by
  have hchoices : p.extensions g g.topologicalOrder p.roles [] ⊆
      (List.replicate p.roles.length g.ids).sections := by
    intro found hfound
    obtain ⟨rest, hrest, rfl⟩ := mem_sections_of_extensions (lists_ids g p.roles) [] hfound
    exact hrest
  have hcount := (List.subperm_of_subset (extensions_nodup hg p.roles []) hchoices).length_le
  rw [allMatches, List.length_map]
  exact Nat.le_trans hcount (length_sections_ids_le g _)

/-! ## Rules that decline -/

/-- However often it is applied, the rule replaces nothing and leaves the graph as it is. -/
def Rule.Settles (rule : Rule α) (g : Graph α) : Prop :=
  ∀ limit notes, ∃ offers s', rule.run limit ⟨g, notes⟩ = .ok ⟨0, offers⟩ s' ∧ s'.graph = g

/-- The matches that have not been offered. -/
def unoffered (p : Pattern) (g : Graph α) (offers : List Offer) : List Match :=
  (p.allMatches g).filter fun m => m.nodes ∉ offers.map (·.nodes)

theorem length_unoffered_lt {p : Pattern} {offers : List Offer} {m : Match}
    (hm : m ∈ p.allMatches g) (hnew : m.nodes ∉ offers.map (·.nodes)) (replaced : Bool) :
    (unoffered p g (⟨m.nodes, replaced⟩ :: offers)).length < (unoffered p g offers).length := by
  have hsplit : unoffered p g (⟨m.nodes, replaced⟩ :: offers) =
      (unoffered p g offers).filter fun m' => m'.nodes ≠ m.nodes := by
    rw [unoffered, unoffered, List.filter_filter]
    refine List.filter_congr fun m' _ => ?_
    simp
  rw [hsplit, List.length_filter_lt_length_iff_exists]
  exact ⟨m, List.mem_filter.mpr ⟨hm, by simpa using hnew⟩, by simp⟩

section Declined

variable {p : Pattern} {replace : Match → Edit α Bool} (hg : g.WellFormed)
  (hdeclined : ∀ m ∈ p.allMatches g, ∀ notes,
    Runs (replace m) ⟨g, notes⟩ (fun replaced g' => replaced = false ∧ g' = g) fun _ => False)
include hg hdeclined

/-- A round in which all is declined changes nothing and does not fail. -/
theorem runs_offerRound_declined {name : String} {notes : List LogEntry} :
    Runs (Rule.offerRound Rule.offerLimit name p replace) ⟨g, notes⟩
      (fun recorded g' => g' = g ∧ ∀ o ∈ recorded, o.replaced = false) fun _ => False := by
  refine (Rule.runs_offerRound_within (fun offers g' => g' = g ∧ ∀ o ∈ offers, o.replaced = false)
    (fun offers _ => (unoffered p g offers).length) ?_ (s := ⟨g, notes⟩) ⟨rfl, by simp⟩ ?_).imp
    (fun recorded g' h => ⟨h.1.1, fun o ho => ?_⟩) fun _ h => h
  · rintro offers ⟨_, notes⟩ m ⟨rfl, hoffers⟩ hm hnew
    refine (hdeclined m hm notes).imp ?_ fun _ h => h
    rintro _ _ ⟨rfl, rfl⟩
    exact ⟨⟨rfl, List.forall_mem_cons.mpr ⟨rfl, hoffers⟩⟩, length_unoffered_lt hm hnew false⟩
  · refine Nat.lt_succ_of_le (Nat.le_trans (List.length_filter_le _ _) ?_)
    exact Pattern.length_allMatches_le hg
  · exact h.1.2 o (List.mem_reverse.mpr ho)

theorem runs_offerRounds_declined {name : String} (left done : Nat) {notes : List LogEntry} :
    Runs (Rule.offerRounds Rule.offerLimit name p replace left done) ⟨g, notes⟩
      (fun recorded g' => g' = g ∧ ∀ o ∈ recorded, o.replaced = false) fun _ => False := by
  cases left with
  | zero => exact runs_bind (runs_log fun _ => runs_pure ⟨rfl, by simp⟩)
  | succ left =>
    refine runs_bind ((runs_offerRound_declined hg hdeclined).imp (fun offers g' h notes => ?_)
      fun _ h => h)
    rw [if_neg (by simpa using h.2)]
    exact runs_bind (runs_log fun _ => runs_pure h)

/-- A rule that declines all matches of a graph settles. -/
theorem settles_of_declined {rule : Rule α} (hbody : rule.body = .replacing (.ok p) replace) :
    rule.Settles g := by
  intro limit notes
  have hrun : Runs (rule.run limit) ⟨g, notes⟩
      (fun outcome g' => outcome.replacements = 0 ∧ g' = g) fun _ => False := by
    rw [Rule.run, Rule.runWithin, hbody]
    refine runs_bind (runs_attempt ?_ ?_)
    · rintro _ ⟨⟩ notes
      have hcount : ∀ offers : List Offer, (∀ o ∈ offers, o.replaced = false) →
          offers.countP (·.replaced) = 0 := fun offers hoffers =>
        List.countP_eq_zero.mpr fun o ho => by simp [hoffers o ho]
      cases rule.repeats with
      | once =>
        exact runs_bind ((runs_offerRound_declined hg hdeclined).imp
          (fun offers g' h notes => runs_pure ⟨hcount offers h.2, h.1⟩) fun _ h => h)
      | untilStable =>
        exact runs_bind ((runs_offerRounds_declined hg hdeclined limit 0).imp
          (fun offers g' h notes => runs_pure ⟨hcount offers h.2, h.1⟩) fun _ h => h)
    · rintro _ ⟨⟩
  obtain ⟨⟨_, offers⟩, s', hs', rfl, hsame⟩ := exists_ok _ _ _ hrun
  exact ⟨offers, s', hs', hsame⟩

end Declined

end TensorGraph
