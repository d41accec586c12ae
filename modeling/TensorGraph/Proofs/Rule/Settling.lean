/-
  Rules that settle in one round.

  An accepted offer changes shapes, values and readers, and with them what the plans for other
  matches look at, among them plans that were declined before in the same round.  A rule settles in
  a round if none of them can be revived (`Rule.runs_settles`): once a match is declined it stays
  declined, and a match that was accepted is declined from then on.  All that matches in the end was
  offered, so a second application finds nothing to do.

  For tiles the plan looks at the ranks around the tile, and wrapping gives all other operators the
  shapes they had.  For slices it looks at the rank of what the slice makes and at the values of its
  bounds.  Bounds that other slices read are copied and not changed, but what a slice makes may well
  be a bound of another one, and then it becomes one-dimensional.
-/
import TensorGraph.Proofs.Rule.Bounds
import TensorGraph.Proofs.Rule.Legalisation
import TensorGraph.Proofs.Rule.Rounds

namespace TensorGraph

open Edit TensorGraph.Graph

variable {α π : Type}

/-! ## Plans that decline -/

namespace Planning

/-- The plan declines, with a note or without. -/
def Declines (x : Planning π) : Prop :=
  ∃ note, x = .error (.decline note)

/-- A plan that looks something up declines if it finds it and declines then. -/
theorem declines_lift_bind {β : Type} {e : Except Error β} {f : β → Planning π} :
    Declines ((liftM e : Planning β) >>= f) ↔ ∃ b, e = .ok b ∧ (f b).Declines := by
  constructor
  · rintro ⟨note, h⟩
    obtain ⟨b, he, h⟩ := planning_bind_eq_decline.mp h
    exact ⟨b, he, note, h⟩
  · rintro ⟨b, he, note, h⟩
    exact ⟨note, planning_bind_eq_decline.mpr ⟨b, he, h⟩⟩

theorem declines_bind_pure {β : Type} {x : Planning β} {f : β → π} :
    Declines (x >>= fun b => pure (f b)) ↔ x.Declines := by
  cases x <;> simp [Declines, bind, Except.bind, pure, Except.pure]

/-- A plan declines at a guard or after it. -/
theorem declines_decline_if {c : Prop} [Decidable c] {note : Option String}
    {f : Unit → Planning π} :
    Declines (if c then (throw (.decline note) : Planning Unit) >>= f else f ()) ↔
      c ∨ (f ()).Declines := by
  by_cases hc : c <;>
    simp [hc, Declines, throw, throwThe, MonadExceptOf.throw, bind, Except.bind]

theorem declines_decline_unless {c : Prop} [Decidable c] {note : Option String}
    {f : Unit → Planning π} :
    Declines (if c then f () else (throw (.decline note) : Planning Unit) >>= f) ↔
      (c → (f ()).Declines) := by
  by_cases hc : c <;>
    simp [hc, Declines, throw, throwThe, MonadExceptOf.throw, bind, Except.bind]

/-- A plan that fails at a guard does not decline there. -/
theorem declines_fail_if {c : Prop} [Decidable c] {error : Error} {f : Unit → Planning π} :
    Declines (if c then (throw (.fail error) : Planning Unit) >>= f else f ()) ↔
      ¬ c ∧ (f ()).Declines := by
  by_cases hc : c <;>
    simp [hc, Declines, throw, throwThe, MonadExceptOf.throw, bind, Except.bind]

end Planning

/-! ## Rules that revive nothing -/

namespace Rule

variable {name : String} {pattern : Except Error Pattern} {plan : Match → Graph α → Planning π}
  {commit : π → Edit α Unit} {rule : Rule α} (I : Graph α → Prop)
  (hbody : rule.body = .replacing pattern fun m => planThenCommit name (plan m) commit)
  (honce : rule.repeats = .once) (hI : ∀ g, I g → g.WellFormed)
  (hcommit : ∀ g m planned notes, I g → plan m g = .ok planned →
    Runs (commit planned) ⟨g, notes⟩
      (fun _ g' => I g' ∧ ∀ m', m' = m ∨ (plan m' g).Declines → (plan m' g').Declines)
      fun _ => True)
include hbody honce hI hcommit

/-- If what is accepted or declined is declined ever after, a run that succeeds leaves a graph on
which the rule settles. -/
theorem runs_settles {g : Graph α} (hg : I g) (limit : Nat) (notes : List LogEntry) :
    Runs (rule.run limit) ⟨g, notes⟩ (fun _ g' => rule.Settles g') fun _ => True := by
  rw [Rule.run, Rule.runWithin, hbody]
  refine runs_bind (runs_attempt (fun p hp notes => ?_) fun _ _ => trivial)
  rw [honce]
  refine runs_bind ((runs_offerRound (R := fun offers g => I g ∧ ∀ o ∈ offers,
    (plan (p.toMatch o.nodes) g).Declines) (fun _ _ _ => trivial) ?_ (s := ⟨g, notes⟩)
    ⟨hg, by simp⟩).imp (fun recorded g' h _ => runs_pure ?_) fun _ h => h)
  · rintro offers ⟨g₁, notes⟩ m ⟨hg₁, hoffers⟩ hm
    have hself := (Pattern.toMatch_of_mem_allMatches hm).2
    refine runs_planThenCommit (fun planned hplan notes => ?_) (fun note hplan => ?_) fun _ _ => trivial
    · refine (hcommit g₁ m planned notes hg₁ hplan).imp (fun _ g' h => ⟨h.1, ?_⟩) fun _ h => h
      refine List.forall_mem_cons.mpr ⟨h.2 _ (.inl hself), fun o ho => h.2 _ (.inr (hoffers o ho))⟩
    · exact ⟨hg₁, List.forall_mem_cons.mpr ⟨hself.symm ▸ ⟨note, hplan⟩, hoffers⟩⟩
  · obtain ⟨⟨hg', hoffers⟩, hnone⟩ := h
    subst hp
    refine settles_of_declined (hI g' hg') (fun m hm notes => ?_) hbody
    obtain ⟨note, hplan⟩ : (plan m g').Declines := by
      have hskip := Pattern.skip_of_mem_allMatches hnone hm
      obtain ⟨o, ho, hnodes⟩ := List.mem_map.mp (List.contains_iff_mem.mp hskip)
      have hdeclined := hoffers o ho
      rwa [hnodes, (Pattern.toMatch_of_mem_allMatches hm).2] at hdeclined
    refine runs_planThenCommit (fun _ hok => ?_) (fun _ _ => ⟨rfl, rfl⟩) fun _ hfail => ?_
    · cases hplan.symm.trans hok
    · cases hplan.symm.trans hfail

end Rule

/-! ## Tiles -/

namespace TileRule

variable {g g' : Graph α}

/-- A tile is declined if it reads anything, and tiles the last axis if the ranks are right.  All
other operators are declined as well. -/
theorem plan_declines_iff (hg : g.WellFormed) {m : Match} :
    (plan m g).Declines ↔ ∃ tile o, m.get "tile" = .ok tile ∧ g.operator? tile = some o ∧
      ∀ axis tiles, o.operation = .tile axis tiles →
        g.view.reading ⟨tile, 0⟩ ≠ none ∧ (HasRank g.view tile 3 → axis + 1 = 3) := by
  constructor
  · intro hdeclines
    have hdeclined := hdeclines
    rw [plan] at hdeclines
    obtain ⟨tile, htile, hdeclines⟩ := Planning.declines_lift_bind.mp hdeclines
    obtain ⟨⟨operation, inference⟩, ho, hdeclines⟩ := Planning.declines_lift_bind.mp hdeclines
    rw [operator_eq_ok] at ho
    refine ⟨tile, _, htile, ho, ?_⟩
    rintro axis tiles rfl
    obtain ⟨input, hinput, -⟩ := Planning.declines_lift_bind.mp hdeclines
    obtain ⟨note, hplan⟩ := hdeclined
    rw [operand_eq_ok, ← view_input_of_op (kind?_eq_op.mpr ⟨_, ho⟩)] at hinput
    refine ⟨?_, plan_declined hplan htile ho⟩
    rw [View.reading_of_input hinput]
    exact Option.some_ne_none _
  · rintro ⟨tile, ⟨operation, inference⟩, htile, ho, h⟩
    have hop := kind?_eq_op.mpr ⟨_, ho⟩
    rw [plan]
    refine Planning.declines_lift_bind.mpr ⟨tile, htile, ?_⟩
    refine Planning.declines_lift_bind.mpr ⟨_, operator_eq_ok.mpr ho, ?_⟩
    dsimp only
    split
    case h_2 => exact ⟨none, rfl⟩
    rename_i axis tiles
    obtain ⟨hread, hlast⟩ := h axis tiles rfl
    obtain ⟨_, hreading⟩ := Option.ne_none_iff_exists'.mp hread
    obtain ⟨input, hinput, -⟩ := Option.map_eq_some_iff.mp hreading
    obtain ⟨before, hbefore⟩ := kind?_eq_data.mp (hg.view_input_kinds hinput).2
    have hfeeds := hinput
    rw [view_input_of_op hop] at hfeeds
    refine Planning.declines_lift_bind.mpr ⟨input, operand_eq_ok.mpr hfeeds, ?_⟩
    split
    case h_2 => exact ⟨_, rfl⟩
    rename_i result hresult
    rw [← view_output_of_op (p := ⟨tile, 0⟩) hop] at hresult
    obtain ⟨after, hafter⟩ := kind?_eq_data.mp (hg.view_output_kinds hresult).2
    refine Planning.declines_lift_bind.mpr ⟨before, content_eq_ok.mpr hbefore, ?_⟩
    refine Planning.declines_lift_bind.mpr ⟨after, content_eq_ok.mpr hafter, ?_⟩
    split
    case h_2 => exact ⟨_, rfl⟩
    rename_i inShape hin
    split
    case h_2 => exact ⟨_, rfl⟩
    rename_i outShape hout
    refine Planning.declines_decline_if.mpr (Classical.or_iff_not_imp_left.mpr ?_)
    intro hranks
    simp only [ne_eq, Bool.or_eq_true, decide_eq_true_eq, not_or, Decidable.not_not] at hranks
    rw [legalRank] at hranks
    have haxis : axis + 1 = 3 := by
      refine hlast ⟨inShape, outShape, ?_, ?_, by omega, by omega⟩
      · rw [View.reading_of_input hinput, View.shape_of_content (v := g.view) hbefore, hin]
      · rw [View.making, hresult, Option.map_some, View.shape_of_content (v := g.view) hafter, hout]
    refine Planning.declines_fail_if.mpr ⟨by omega, ?_⟩
    exact Planning.declines_decline_if.mpr (.inl (by omega))

/-- Wrapping a tile revives no other, and the tile itself is declined from then on. -/
theorem declines_of_wrapped {p : Plan} {input : NodeId} {c : Content α} {w : Wrapping α}
    (hg : g.WellFormed) (ha : Accepted g p input) (hw : w.Fresh p g.view)
    (hc : g.content? p.result = some c) (hg' : g'.WellFormed)
    (hview : g'.view = wrapped g.view p input c w) {m : Match}
    (h : m.get "tile" = .ok p.tile ∨ (plan m g).Declines) : (plan m g').Declines := by
  obtain ⟨tile, o, htile, ho, hother⟩ : ∃ tile o, m.get "tile" = .ok tile ∧
      g.operator? tile = some o ∧ (tile ≠ p.tile → ∀ axis tiles, o.operation = .tile axis tiles →
        g.view.reading ⟨tile, 0⟩ ≠ none ∧ (HasRank g.view tile 3 → axis + 1 = 3)) := by
    rcases h with hself | h
    · obtain ⟨axis, tiles, inference, ho, -⟩ := ha.operator
      exact ⟨p.tile, _, hself, ho, fun hne => absurd rfl hne⟩
    · obtain ⟨tile, o, htile, ho, h⟩ := (plan_declines_iff hg).mp h
      exact ⟨tile, o, htile, ho, fun _ => h⟩
  have hop := kind?_eq_op.mpr ⟨o, ho⟩
  refine (plan_declines_iff hg').mpr ⟨tile, o, htile, ?_, fun axis tiles hoperation => ?_⟩
  · show g'.view.operator tile = some o
    rw [hview, wrapped_operator_old hg ha hw hop]
    exact ho
  · rw [hview]
    by_cases hself : tile = p.tile
    · -- it reads the first reshape now, and that has rank four
      subst hself
      obtain ⟨-, hreads, -⟩ := wrapped_read (c := c) hg ha hw
      rw [View.reading_of_input hreads, (wrapped_shape_new hw input hc).1]
      refine ⟨Option.some_ne_none _, ?_⟩
      rintro ⟨inShape, _, hreading, -, hrank, -⟩
      rw [View.reading_of_input hreads, (wrapped_shape_new hw input hc).1] at hreading
      obtain rfl := Option.some.inj (Option.some.inj hreading)
      rw [List.length_append, ha.ranks.1] at hrank
      cases hrank
    · obtain ⟨hread, hlast⟩ := hother hself axis tiles hoperation
      obtain ⟨hreading, hmaking⟩ := wrapped_known hg ha hw hc (View.node_ne_none_of_kind hop) hself
      rw [hreading 0]
      exact ⟨hread, fun hrank => hlast ((hasRank_congr (hreading 0) (hmaking 0)).mp hrank)⟩

/-- After a run the rule has nothing left to do. -/
theorem runs_rule_settles (hg : g.WellFormed) (limit : Nat) (notes : List LogEntry) :
    Runs (rule.run limit) ⟨g, notes⟩ (fun _ g' => rule.Settles g') fun _ => True := by
  refine Rule.runs_settles Graph.WellFormed rfl rfl (fun _ hg => hg) ?_ hg limit notes
  intro g₁ m p notes hg₁ hplan
  obtain ⟨htile, input, ha⟩ := plan_eq_ok hplan
  refine runs_commit hg₁ ha fun g' c w hc hw hg' hview => ⟨hg', fun m' hm' => ?_⟩
  refine declines_of_wrapped hg₁ ha hw hc hg' hview (hm'.imp_left ?_)
  rintro rfl
  exact htile

end TileRule

/-! ## Slices -/

/-- The value of what an input port reads, if it reads anything. -/
def View.holding (v : View α) (q : InputPort) : Option (Option (Tensor α)) :=
  (v.input q).map fun d => (v.content d).bind Content.value

namespace SliceRule

variable {g g' : Graph α} {slice : NodeId}

section Bounds

variable {p p' : Permutation} {ellipsis ellipsis' : Option Nat}

/-- The bounds of a slice are declined at the first or at a later one. -/
theorem planBounds_declines_cons (hg : g.WellFormed) (hop : g.kind? slice = some .op) {port : Nat}
    {fill : Int64} {ports : List (Nat × Int64)} :
    (planBounds g slice p ellipsis ((port, fill) :: ports)).Declines ↔
      match g.view.holding ⟨slice, port⟩ with
      | none => (planBounds g slice p ellipsis ports).Declines
      | some none => True
      | some (some value) => value.type.isInteger = true → ∃ entries, value.integers = .ok entries ∧
          (planBounds g slice p ellipsis ports).Declines := by
  rw [planBounds, View.holding, view_input_of_op (p := ⟨slice, port⟩) hop]
  cases hdata : g.feeding? ⟨slice, port⟩ with
  | none => exact Iff.rfl
  | some data =>
    rw [← view_input_of_op (p := ⟨slice, port⟩) hop] at hdata
    obtain ⟨c, hc⟩ := kind?_eq_data.mp (hg.view_input_kinds hdata).2
    refine Planning.declines_lift_bind.trans ?_
    rw [content_eq_ok.mpr hc, Option.map_some, show g.view.content data = some c from hc]
    simp only [Except.ok.injEq, exists_eq_left', Option.bind_some]
    cases c.value with
    | none => exact ⟨fun _ => trivial, fun _ => ⟨_, rfl⟩⟩
    | some value =>
      refine Planning.declines_decline_unless.trans (imp_congr_right fun _ => ?_)
      refine Planning.declines_lift_bind.trans (exists_congr fun entries => and_congr_right fun _ => ?_)
      exact Planning.declines_bind_pure

/-- Whether the bounds are declined depends on their values, not on where they go. -/
theorem planBounds_declines_congr (hg : g.WellFormed) (hg' : g'.WellFormed)
    (hop : g.kind? slice = some .op) (hop' : g'.kind? slice = some .op)
    (hsame : ∀ port, g'.view.holding ⟨slice, port⟩ = g.view.holding ⟨slice, port⟩)
    (ports : List (Nat × Int64)) :
    (planBounds g' slice p' ellipsis' ports).Declines ↔
      (planBounds g slice p ellipsis ports).Declines := by
  induction ports with
  | nil => simp [planBounds, Planning.Declines, pure, Except.pure]
  | cons entry ports ih =>
    obtain ⟨port, fill⟩ := entry
    rw [planBounds_declines_cons hg hop, planBounds_declines_cons hg' hop', hsame port]
    split
    · exact ih
    · exact Iff.rfl
    · exact imp_congr_right fun _ => exists_congr fun _ => and_congr_right fun _ => ih

end Bounds

/-- The rank of data is that of its shape, if it has one. -/
theorem rank_eq {data : Option NodeId} (h : ∀ d, data = some d → g.kind? d = some .data) :
    rank g data = .ok ((data.map g.view.shape).join.map List.length) := by
  cases data with
  | none => rfl
  | some d =>
    obtain ⟨c, hc⟩ := kind?_eq_data.mp (h d rfl)
    rw [rank, content_eq_ok.mpr hc, Option.map_some, View.shape_of_content (v := g.view) hc]
    rfl

/-- The rank at an input port. -/
theorem rank_feeding (hg : g.WellFormed) (hop : g.kind? slice = some .op) {port : Nat} :
    rank g (g.feeding? ⟨slice, port⟩) =
      .ok ((g.view.reading ⟨slice, port⟩).join.map List.length) := by
  rw [View.reading, ← view_input_of_op (p := ⟨slice, port⟩) hop]
  exact rank_eq fun d hd => (hg.view_input_kinds hd).2

/-- The rank at an output port. -/
theorem rank_result (hg : g.WellFormed) (hop : g.kind? slice = some .op) {port : Nat} :
    rank g (g.result? ⟨slice, port⟩) =
      .ok ((g.view.making ⟨slice, port⟩).join.map List.length) := by
  rw [View.making, ← view_output_of_op (p := ⟨slice, port⟩) hop]
  exact rank_eq fun d hd => (hg.view_output_kinds hd).2

/-- The slice is left alone although it is not marked: the rank of its output is unknown, all ranks
are small, or its bounds are declined. -/
def Spared (g : Graph α) (slice : NodeId) (masks : SliceMasks) : Prop :=
  ∀ outShape, (g.view.making ⟨slice, 0⟩).join = some outShape →
    ((∀ inShape, (g.view.reading ⟨slice, 0⟩).join = some inShape → inShape.length < 4) ∧
        outShape.length < 4) ∨
      (outShape.length + masks.shrunkAxes < wordLimit ∧ (planBounds g slice
        (.channelsFirst (outShape.length + masks.shrunkAxes)) masks.ellipsisAt? boundPorts).Declines)

theorem plan_declines_iff (hg : g.WellFormed) {m : Match} :
    (plan m g).Declines ↔ g.layout ≠ .nhwc ∨ ∃ slice, m.get "slice" = .ok slice ∧
      ∃ o, g.operator? slice = some o ∧ ∀ masks, o.operation = .stridedSlice masks →
        masks.permuted = true ∨ Spared g slice masks := by
  rw [plan]
  refine Planning.declines_decline_if.trans (or_congr_right ?_)
  refine Planning.declines_lift_bind.trans (exists_congr fun slice => and_congr_right fun _ => ?_)
  refine Planning.declines_lift_bind.trans (exists_congr fun o => ?_)
  rw [operator_eq_ok]
  refine and_congr_right fun ho => ?_
  have hop := kind?_eq_op.mpr ⟨_, ho⟩
  obtain ⟨operation, inference⟩ := o
  dsimp only
  split
  case h_2 hother =>
    exact ⟨fun _ masks hmasks => absurd hmasks (hother masks), fun _ => ⟨none, rfl⟩⟩
  rename_i masks
  simp only [Operation.stridedSlice.injEq, forall_eq']
  refine Planning.declines_decline_if.trans (or_congr_right ?_)
  refine Planning.declines_lift_bind.trans ?_
  rw [rank_feeding hg hop]
  simp only [Except.ok.injEq, exists_eq_left']
  refine Planning.declines_lift_bind.trans ?_
  rw [rank_result hg hop]
  simp only [Except.ok.injEq, exists_eq_left', Spared]
  cases (g.view.making ⟨slice, 0⟩).join with
  | none => exact ⟨fun _ _ h => (by cases h), fun _ => ⟨_, rfl⟩⟩
  | some outShape =>
    simp only [Option.map_some, Option.some.injEq, forall_eq']
    refine Planning.declines_decline_if.trans (or_congr ?_ ?_)
    · cases (g.view.reading ⟨slice, 0⟩).join <;> simp
    · refine Planning.declines_lift_bind.trans ⟨?_, ?_⟩
      · rintro ⟨n, hn, h⟩
        obtain ⟨hfits, rfl⟩ := checkedAdd_eq_ok.mp hn
        exact ⟨hfits, Planning.declines_bind_pure.mp h⟩
      · rintro ⟨hfits, h⟩
        exact ⟨_, checkedAdd_eq_ok.mpr ⟨hfits, rfl⟩, Planning.declines_bind_pure.mpr h⟩

/-- One axis more than an unmarked slice drops can still be counted.  It would take more masks than
fit in memory to break this. -/
def Countable (g : Graph α) : Prop :=
  ∀ slice masks inference, g.operator? slice = some ⟨.stridedSlice masks, inference⟩ →
    masks.permuted = true ∨ masks.shrunkAxes + 1 < wordLimit

namespace Reindexed

variable {masks : SliceMasks} {p : Permutation} (h : Reindexed g g' slice masks p)
include h

/-- The slice has permuted masks. -/
theorem operator_self :
    ∃ inference, g'.operator? slice = some ⟨.stridedSlice (masks.permute p), inference⟩ := by
  obtain ⟨n, inference, -, -, hn⟩ := h.masked
  exact ⟨inference, View.operator_eq_some_iff (v := g'.view).mpr ⟨_, hn, rfl⟩⟩

/-- All other operators are as they were. -/
theorem operator_of_ne {op : NodeId} (hne : op ≠ slice) {o : Operator}
    (ho : g.operator? op = some o) : g'.operator? op = some o := by
  obtain ⟨n, hn, hpayload⟩ := View.operator_eq_some_iff (v := g.view).mp ho
  rcases h.node op n hn hne with hsame | ⟨_, _, _, _, c, _, hdata, _⟩
  · exact View.operator_eq_some_iff (v := g'.view).mpr ⟨n, hsame, hpayload⟩
  · cases hpayload.symm.trans hdata

/-- The copies are no slices, and the slice itself is marked. -/
theorem countable (hg : Countable g) : Countable g' := by
  intro op masks' inference ho
  by_cases hself : op = slice
  · subst hself
    obtain ⟨_, ho'⟩ := h.operator_self
    cases ho.symm.trans ho'
    exact .inl rfl
  · obtain ⟨n, hn, hpayload⟩ := View.operator_eq_some_iff (v := g'.view).mp ho
    cases hold : g.node? op with
    | none =>
      obtain ⟨_, _, ⟨_, hdata, _⟩ | ⟨hconst, _⟩⟩ := h.added op n hold hn
      · cases hpayload.symm.trans hdata
      · cases hpayload.symm.trans hconst
    | some n' =>
      refine hg op masks' inference (View.operator_eq_some_iff (v := g.view).mpr ⟨n', hold, ?_⟩)
      rcases h.node op n' hold hself with hsame | ⟨_, _, _, _, c, value, _, hstored⟩
      · obtain rfl := Option.some.inj (hn.symm.trans hsame)
        exact hpayload
      · obtain rfl := Option.some.inj (hn.symm.trans hstored)
        cases hpayload

/-- All other operators read what they read. -/
theorem input_of_ne {op : NodeId} (hne : op ≠ slice) (port : Nat) :
    g'.view.input ⟨op, port⟩ = g.view.input ⟨op, port⟩ ∧
      ∀ d, g.view.input ⟨op, port⟩ = some d → g'.view.content d = g.view.content d := by
  obtain ⟨hinput, hsame⟩ := h.reading ⟨op, port⟩ fun hbound => hne hbound.1.1
  refine ⟨hinput, fun d hd => ?_⟩
  show (g'.node? d).bind _ = (g.node? d).bind _
  rw [hsame d hd]

/-- What feeds a bound has a shape, and is left as it is or becomes one-dimensional. -/
theorem shape_of_data {d : NodeId} {s' : Shape} (hd : d ≠ slice) (hlive : g.node? d ≠ none)
    (hs' : g'.view.shape d = some s') :
    g.view.shape d = some s' ∨ (s'.length = 1 ∧ ∃ s, g.view.shape d = some s) := by
  obtain ⟨n, hn⟩ := Option.ne_none_iff_exists'.mp hlive
  rcases h.node d n hn hd with hsame | ⟨q, ⟨rfl, hport⟩, hinput, hinput', c, value, hpayload, hstored⟩
  · left
    rw [← hs']
    show ((g.node? d).bind _).bind _ = ((g'.node? d).bind _).bind _
    rw [hn, hsame]
  · right
    obtain ⟨x, hx, hindex⟩ := List.mem_map.mp hport
    obtain ⟨type, entries, -, hreads, hhas⟩ := h.bounds x hx (by
      rw [hindex, hinput]
      exact Option.some_ne_none d)
    rw [hindex] at hreads hhas
    obtain ⟨d₀, c₀, value₀, hinput₀, hc₀, hvalue₀, -⟩ := hreads
    obtain ⟨d₁, c₁, value₁, hinput₁, -, hc₁, -, hshape₁, -, hone, -⟩ := hhas
    obtain rfl := Option.some.inj (hinput.symm.trans hinput₀)
    obtain rfl := Option.some.inj (hinput'.symm.trans hinput₁)
    constructor
    · rw [View.shape_of_content hc₁, Content.knownShape, hshape₁] at hs'
      obtain rfl := Option.some.inj hs'
      rw [hone, List.length_singleton]
    · rw [View.shape_of_content hc₀, Content.knownShape, hvalue₀]
      cases c₀.shape with
      | none => exact ⟨_, rfl⟩
      | some s => exact ⟨s, rfl⟩

/-- A slice that is left alone still is when another one is re-indexed. -/
theorem spared (hg : g.WellFormed) (hg' : g'.WellFormed) {op : NodeId} (hne : op ≠ slice)
    (hop : g.kind? op = some .op) (hop' : g'.kind? op = some .op)
    (hslice : g.kind? slice = some .op) {masks' : SliceMasks}
    (hcount : masks'.shrunkAxes + 1 < wordLimit) (hspared : Spared g op masks') :
    Spared g' op masks' := by
  have hreading : g'.view.reading ⟨op, 0⟩ = g.view.reading ⟨op, 0⟩ := by
    obtain ⟨hinput, hsame⟩ := h.input_of_ne hne 0
    rw [View.reading, View.reading, hinput]
    exact Option.map_congr fun d hd => by rw [View.shape, View.shape, hsame d hd]
  have hholding : ∀ port, g'.view.holding ⟨op, port⟩ = g.view.holding ⟨op, port⟩ := by
    intro port
    obtain ⟨hinput, hsame⟩ := h.input_of_ne hne port
    rw [View.holding, View.holding, hinput]
    exact Option.map_congr fun d hd => by rw [hsame d hd]
  intro outShape' hout'
  obtain ⟨d, hd, hshape'⟩ := Option.map_eq_some_iff.mp (Option.join_eq_some_iff.mp hout')
  rw [h.making ⟨op, 0⟩ (View.node_ne_none_of_kind (v := g.view) hop)] at hd
  have hmaking : ∀ s, g.view.shape d = some s → (g.view.making ⟨op, 0⟩).join = some s := by
    intro s hs
    rw [View.making, hd, Option.map_some, hs]
    rfl
  have hdata := (op_ne_data hslice (hg.view_output_kinds hd).2).symm
  have hbounds : ∀ p p', (planBounds g' op p' masks'.ellipsisAt? boundPorts).Declines ↔
      (planBounds g op p masks'.ellipsisAt? boundPorts).Declines :=
    fun _ _ => planBounds_declines_congr hg hg' hop hop' hholding boundPorts
  rw [hreading]
  rcases h.shape_of_data hdata (hg.live_of_output hd).2 hshape' with hsame | ⟨hone, s, hs⟩
  · exact (hspared _ (hmaking _ hsame)).imp_right (And.imp_right (hbounds _ _).mpr)
  · rcases hspared s (hmaking s hs) with ⟨hsmall, -⟩ | ⟨-, hdeclines⟩
    · exact .inl ⟨hsmall, by omega⟩
    · exact .inr ⟨by omega, (hbounds _ _).mpr hdeclines⟩

/-- Re-indexing a slice revives no other, and the slice itself is declined from then on. -/
theorem declines (hg : g.WellFormed) (hg' : g'.WellFormed) (hcount : Countable g) {m : Match}
    (hm : m.get "slice" = .ok slice ∨ (plan m g).Declines) : (plan m g').Declines := by
  rw [plan_declines_iff hg', h.layout]
  have hself : m.get "slice" = .ok slice → ∃ op, m.get "slice" = .ok op ∧
      ∃ o, g'.operator? op = some o ∧ ∀ masks, o.operation = .stridedSlice masks →
        masks.permuted = true ∨ Spared g' op masks := by
    intro hget
    obtain ⟨inference, ho⟩ := h.operator_self
    refine ⟨slice, hget, _, ho, ?_⟩
    rintro _ ⟨⟩
    exact .inl rfl
  rcases hm with hget | hdeclines
  · exact .inr (hself hget)
  · refine ((plan_declines_iff hg).mp hdeclines).imp_right ?_
    rintro ⟨op, hget, ⟨operation, inference⟩, ho, hspared⟩
    by_cases hne : op = slice
    · exact hself (hne ▸ hget)
    · have ho' := h.operator_of_ne hne ho
      refine ⟨op, hget, _, ho', ?_⟩
      rintro masks' rfl
      obtain ⟨n, inference', hn, hpayload, -⟩ := h.masked
      have hslice := kind?_eq_op.mpr
        ⟨_, View.operator_eq_some_iff (v := g.view).mpr ⟨n, hn, hpayload⟩⟩
      rcases hcount op masks' inference ho with hpermuted | hcount
      · exact .inl hpermuted
      · exact (hspared masks' rfl).imp_right (h.spared hg hg' hne (kind?_eq_op.mpr ⟨_, ho⟩)
          (kind?_eq_op.mpr ⟨_, ho'⟩) hslice hcount)

end Reindexed

/-- After a run the rule has nothing left to do, if its bounds can be counted. -/
theorem runs_rule_settles (hg : g.WellFormed) (hcount : Countable g) (limit : Nat)
    (notes : List LogEntry) :
    Runs (rule.run limit) ⟨g, notes⟩ (fun _ g' => rule.Settles g') fun _ => True := by
  refine Rule.runs_settles (fun g => g.WellFormed ∧ Countable g) rfl rfl (fun _ hg => hg.1) ?_
    ⟨hg, hcount⟩ limit notes
  rintro g₁ m p notes ⟨hg₁, hcount₁⟩ hplan
  refine (runs_commit_reindexed hg₁ hplan).imp (fun _ g' h => ?_) fun _ h => h
  obtain ⟨hg', masks, inference, outShape, -, hreindexed⟩ := h
  refine ⟨⟨hg', hreindexed.countable hcount₁⟩, fun m' hm' => ?_⟩
  refine hreindexed.declines hg₁ hg' hcount₁ (hm'.imp_left ?_)
  rintro rfl
  exact (plan_planned hplan).1

end SliceRule

/-- **Wrapping tiles and re-indexing slices are done in one application.**  If it succeeds, the rule
finds nothing to replace in the graph it leaves, whatever the limit. -/
theorem run_settles [Scalar α] {g : Graph α} (hg : Reachable g) (limit : Nat)
    (notes : List LogEntry) :
    (∀ outcome s, TileRule.rule.run limit ⟨g, notes⟩ = .ok outcome s →
      TileRule.rule.Settles s.graph) ∧
    (SliceRule.Countable g → ∀ outcome s, SliceRule.rule.run limit ⟨g, notes⟩ = .ok outcome s →
      SliceRule.rule.Settles s.graph) := by
  refine ⟨fun outcome s hrun => ?_, fun hcount outcome s hrun => ?_⟩
  · exact (TileRule.runs_rule_settles hg.wellFormed limit notes).of_ok hrun
  · exact (SliceRule.runs_rule_settles hg.wellFormed hcount limit notes).of_ok hrun

/-- Two tiles in a row and one of the last axis.  Two slices, of which the first makes a bound of
the second and has a bound that is not constant; they share their strides. -/
def crowdedCommands : List (Command Float) :=
  [.addOperator "x" .parameter, .addOperator "y" .parameter, .addOperator "first" (.tile 0 2),
    .addOperator "second" (.tile 1 3), .addOperator "last" (.tile 2 2),
    .addOperator "inner" (.stridedSlice ⟨[], [], [], [], [true, false], false⟩),
    .addOperator "outer" (.stridedSlice ⟨[], [], [], [], [true, false], false⟩),
    .addOperator "out" .output, .addData "step" (.constant ⟨[1], .int64 [2]⟩),
    .link ⟨0, 0⟩ ⟨2, 0⟩, .link ⟨2, 0⟩ ⟨3, 0⟩, .link ⟨3, 0⟩ ⟨7, 0⟩, .link ⟨0, 0⟩ ⟨4, 0⟩,
    .link ⟨4, 0⟩ ⟨7, 1⟩, .link ⟨1, 0⟩ ⟨5, 0⟩, .link ⟨1, 0⟩ ⟨5, 1⟩, .link ⟨1, 0⟩ ⟨6, 0⟩,
    .link ⟨5, 0⟩ ⟨6, 1⟩, .link ⟨6, 0⟩ ⟨7, 2⟩, .feed 8 ⟨5, 3⟩, .feed 8 ⟨6, 3⟩,
    .modifyContent 9 fun _ => ⟨some [2, 2, 3], none, none⟩,
    .modifyContent 10 fun _ => ⟨some [4, 2, 3], none, none⟩,
    .modifyContent 11 fun _ => ⟨some [4, 6, 3], none, none⟩,
    .modifyContent 12 fun _ => ⟨some [2, 2, 6], none, none⟩,
    .modifyContent 13 fun _ => ⟨some [1, 4, 4, 3], none, none⟩,
    .modifyContent 14 fun _ => .constant ⟨[], .int32 [1]⟩,
    .modifyContent 15 fun _ => ⟨some [1, 4, 4, 1], none, none⟩]

/-- The tile of the last axis and the first slice are declined.  What the first slice makes then
gets another rank. -/
theorem crowdedCommands_settle :
    Reachable (runCommands .nhwc crowdedCommands) ∧
    SliceRule.Countable (runCommands .nhwc crowdedCommands) ∧
    (∃ outcome s, TileRule.rule.run 1 ⟨runCommands .nhwc crowdedCommands, []⟩ = .ok outcome s ∧
      outcome.offers = [⟨[2], true⟩, ⟨[4], false⟩, ⟨[3], true⟩] ∧ TileRule.rule.Settles s.graph) ∧
    ∃ outcome s, SliceRule.rule.run 1 ⟨runCommands .nhwc crowdedCommands, []⟩ = .ok outcome s ∧
      outcome.offers = [⟨[5], false⟩, ⟨[6], true⟩] ∧ s.graph.view.shape 14 = some [4] ∧
      SliceRule.rule.Settles s.graph := by
  have hcount : SliceRule.Countable (runCommands .nhwc crowdedCommands) := by
    have hmasks : ∀ id ∈ (runCommands .nhwc crowdedCommands).ids,
        ∀ o ∈ (runCommands .nhwc crowdedCommands).operator? id, o.operation.type = .stridedSlice →
          o.operation = .stridedSlice ⟨[], [], [], [], [true, false], false⟩ := by decide +kernel
    intro slice masks inference ho
    obtain ⟨n, hn, -⟩ := Option.bind_eq_some_iff.mp ho
    cases hmasks slice (mem_ids_of_node? hn) _ ho rfl
    exact .inr (by decide)
  obtain ⟨tiled, s, hs, htiled⟩ := exists_ok (TileRule.rule.run 1)
    ⟨runCommands .nhwc crowdedCommands, []⟩ (fun outcome _ =>
      outcome.offers = [⟨[2], true⟩, ⟨[4], false⟩, ⟨[3], true⟩]) (by decide +kernel)
  obtain ⟨sliced, s', hs', hsliced, hshape⟩ := exists_ok (SliceRule.rule.run 1)
    ⟨runCommands .nhwc crowdedCommands, []⟩ (fun outcome g =>
      outcome.offers = [⟨[5], false⟩, ⟨[6], true⟩] ∧ g.view.shape 14 = some [4]) (by decide +kernel)
  have hsettles := run_settles (g := runCommands .nhwc crowdedCommands) ⟨_, _, rfl⟩ 1 []
  exact ⟨⟨_, _, rfl⟩, hcount, ⟨tiled, s, hs, htiled, hsettles.1 _ _ hs⟩,
    sliced, s', hs', hsliced, hshape, hsettles.2 hcount _ _ hs'⟩

end TensorGraph
