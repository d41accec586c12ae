/-
  What a rule leaves behind when it does not replace a match.

  A declined match leaves the graph as it was, for every rule.  A failure can only come from the
  plan, before the first edit, or from the commit.  Wrapping a tile and re-indexing a slice cannot
  fail in the commit.  Fusing permutes or a multiplication can: their plans do not ask whether the
  operator that is to be removed has another result that something still needs, and the removal is
  refused after other edits (`Torn`).  The main statement `unreplaced_unchanged_unless_torn` says
  that this is all that can go wrong.

  When a commit breaks off can be read off the graph before it: for a multiplication if another of
  its results is needed (`MultiplierRule.runs_commit_torn`), and for permutes in one of two places
  (`PermuteRule.Torn`), since the second one is removed before the first.
-/
import TensorGraph.Proofs.Rule.Multiplier
import TensorGraph.Proofs.Rule.Permute
import TensorGraph.Proofs.Rule.Slice
import TensorGraph.Proofs.Rule.Tile

namespace TensorGraph

open Edit

variable {α : Type} {g : Graph α} {m : Match}

/-- A declined match leaves the graph as it was, and a failure changes it exactly if `torn`. -/
def UnchangedUnless (replace : Match → Edit α Bool) (g : Graph α) (m : Match) (torn : Prop) : Prop :=
  ∀ notes, (∀ s', replace m ⟨g, notes⟩ = .ok false s' → s'.graph = g) ∧
    ((∃ e s', replace m ⟨g, notes⟩ = .error e s' ∧ s'.graph ≠ g) ↔ torn)

/-- The commit of a plan that was accepted decides: it succeeds unless `torn`, and then whether a
failure changed the graph says whether `torn`. -/
theorem unchangedUnless_of_runs {π : Type} {name : String} {plan : Match → Graph α → Planning π}
    {commit : π → Edit α Unit} {torn : π → Prop}
    (h : ∀ planned, plan m g = .ok planned → ∀ notes,
      Runs (commit planned) ⟨g, notes⟩ (fun _ _ => ¬ torn planned) fun g' => g' ≠ g ↔ torn planned) :
    UnchangedUnless (fun m => planThenCommit name (plan m) commit) g m
      (∃ planned, plan m g = .ok planned ∧ torn planned) := by
  intro notes
  have hruns : Runs (planThenCommit name (plan m) commit) ⟨g, notes⟩
      (fun replaced g' => (∀ planned, plan m g = .ok planned → ¬ torn planned) ∧
        (replaced = false → g' = g))
      (fun g' => g' ≠ g ↔ ∃ planned, plan m g = .ok planned ∧ torn planned) := by
    refine runs_planThenCommit (fun planned hplan notes => ?_) (fun note hplan => ?_)
      fun error hplan => ?_
    · refine (h planned hplan notes).imp (fun _ g' hkept => ⟨fun planned' hplan' => ?_, nofun⟩)
        fun g' hchanged => ?_
      · obtain rfl := Except.ok.inj (hplan.symm.trans hplan')
        exact hkept
      · rw [hchanged]
        exact ⟨fun ht => ⟨planned, hplan, ht⟩, fun ⟨planned', hplan', ht⟩ =>
          Except.ok.inj (hplan.symm.trans hplan') ▸ ht⟩
    · exact ⟨fun _ hplan' => absurd (hplan.symm.trans hplan') nofun, fun _ => rfl⟩
    · exact ⟨fun hne => absurd rfl hne, fun ⟨_, hplan', _⟩ =>
        absurd (hplan.symm.trans hplan') nofun⟩
  refine ⟨fun s' hs' => (hruns.of_ok hs').2 rfl, ?_, ?_⟩
  · rintro ⟨e, s', hs', hne⟩
    exact (hruns.of_error hs').mp hne
  · rintro ⟨planned, hplan, ht⟩
    cases hresult : planThenCommit name (plan m) commit ⟨g, notes⟩ with
    | ok replaced s' => exact absurd ht ((hruns.of_ok hresult).1 planned hplan)
    | error e s' => exact ⟨e, s', hresult, (hruns.of_error hresult).mpr ⟨planned, hplan, ht⟩⟩

/-! ## The four rules -/

/-- The commit cannot fail, so a failure is one of the plan. -/
theorem unchangedUnless_false {π : Type} {name : String} {plan : Match → Graph α → Planning π}
    {commit : π → Edit α Unit}
    (h : ∀ planned, plan m g = .ok planned → ∀ notes,
      Runs (commit planned) ⟨g, notes⟩ (fun _ _ => True) fun _ => False) :
    UnchangedUnless (fun m => planThenCommit name (plan m) commit) g m False := by
  have hnever : UnchangedUnless (fun m => planThenCommit name (plan m) commit) g m
      (∃ planned, plan m g = .ok planned ∧ False) :=
    unchangedUnless_of_runs fun planned hplan notes =>
      (h planned hplan notes).imp (fun _ _ _ => id) fun _ => False.elim
  simpa [UnchangedUnless] using hnever

/-- Fusing the matched permutes breaks off: the second one has another result that is needed, and
its first result has readers, which have moved; or they cancel and the first one has such a result,
and by then the second one is gone. -/
def PermuteRule.Torn (g : Graph α) (p : PermuteRule.Plan) : Prop :=
  (g.view.Strands p.second p.last p.second ∧ ∃ q, g.view.input q = some p.last) ∨
    (¬ g.view.Strands p.second p.last p.second ∧ p.composed.isIdentity = true ∧
      g.view.Strands p.first p.mid p.second)

theorem PermuteRule.runs_commit_torn {p : PermuteRule.Plan} {notes : List LogEntry}
    (hg : g.WellFormed) (ha : Accepted g p) :
    Runs (commit p) ⟨g, notes⟩ (fun _ _ => ¬ Torn g p) fun g' => g' ≠ g ↔ Torn g p := by
  refine runs_commit hg ha (fun hkept hidentity _ _ _ _ _ _ _ => ?_)
    (fun hkept hidentity hkept' _ _ _ => ?_) (fun hstranded g' hsame => ?_)
    fun hkept hidentity hstranded g' hchanged => ?_
  · rintro (⟨h, _⟩ | ⟨_, h, _⟩)
    · exact hkept h
    · exact absurd (hidentity.symm.trans h) (by decide)
  · rintro (⟨h, _⟩ | ⟨_, _, h⟩)
    · exact hkept h
    · exact hkept' h
  · rw [ne_eq, hsame]
    constructor
    · intro h
      exact .inl ⟨hstranded, by simpa using h⟩
    · rintro (⟨_, q, hq⟩ | ⟨h, _⟩) hnone
      · exact hnone q hq
      · exact h hstranded
  · exact ⟨fun _ => .inr ⟨hkept, hidentity, hstranded⟩, fun _ => hchanged⟩

theorem MultiplierRule.runs_commit_torn {p : MultiplierRule.Plan α} {notes : List LogEntry}
    (hg : g.WellFormed) {tensor multiplier : NodeId} {shape : Shape}
    (ha : Accepted g p tensor multiplier shape) :
    Runs (commit p) ⟨g, notes⟩ (fun _ _ => ¬ g.view.Strands p.mul p.product p.mul)
      fun g' => g' ≠ g ↔ g.view.Strands p.mul p.product p.mul :=
  runs_commit hg ha (fun hkept _ _ _ => hkept) fun hstranded _ hchanged =>
    ⟨fun _ => hstranded, fun _ => hchanged⟩

/-- A match that is not replaced leaves the graph as it was, except that fusing permutes, or a
multiplication, may break off half-way.  It does so exactly if the plan is accepted and an operator
that is to be removed has another result that something needs. -/
theorem unreplaced_unchanged_unless_torn [Scalar α] (hg : Reachable g) :
    (∀ p, TileRule.pattern = .ok p → m ∈ p.allMatches g →
      UnchangedUnless TileRule.replace g m False) ∧
    (∀ p, SliceRule.pattern = .ok p → m ∈ p.allMatches g →
      UnchangedUnless SliceRule.replace g m False) ∧
    (∀ p, PermuteRule.pattern = .ok p → m ∈ p.allMatches g →
      UnchangedUnless PermuteRule.replace g m
        (∃ planned, PermuteRule.plan m g = .ok planned ∧ PermuteRule.Torn g planned)) ∧
    ∀ p, MultiplierRule.pattern = .ok p → m ∈ p.allMatches g →
      UnchangedUnless MultiplierRule.replace g m
        (∃ planned, MultiplierRule.plan m g = .ok planned ∧
          g.view.Strands planned.mul planned.product planned.mul) := by
  have hwf := hg.wellFormed
  refine ⟨fun _ _ _ => ?_, fun _ _ _ => ?_, fun _ hp hm => ?_, fun _ hp hm => ?_⟩
  · refine unchangedUnless_false fun planned hplan notes => ?_
    obtain ⟨input, ha⟩ := TileRule.plan_accepted hplan
    exact TileRule.runs_commit hwf ha fun _ _ _ _ _ _ _ => trivial
  · refine unchangedUnless_false fun planned hplan notes => ?_
    exact (SliceRule.runs_commit (I := fun _ => True) hwf (SliceRule.plan_accepted hplan)
      (fun _ _ => trivial) (fun _ _ _ _ _ _ => trivial) fun _ _ _ _ _ _ _ _ => trivial).imp
      (fun _ _ _ => trivial) fun _ => id
  · exact unchangedUnless_of_runs fun planned hplan notes =>
      PermuteRule.runs_commit_torn hwf (PermuteRule.plan_accepted hwf hp hm hplan)
  · refine unchangedUnless_of_runs fun planned hplan notes => ?_
    obtain ⟨tensor, multiplier, shape, ha⟩ := MultiplierRule.plan_accepted hwf hp hm hplan
    exact MultiplierRule.runs_commit_torn hwf ha

/-- Two permutes that cancel; the second one has another result, and both of its results are read by
an output. -/
def tornCommands : List (Command Float) :=
  [.addOperator "x" .parameter, .addOperator "first" (.permute [1, 0]),
    .addOperator "second" (.permute [1, 0]), .addOperator "out" .output,
    .link ⟨0, 0⟩ ⟨1, 0⟩, .link ⟨1, 0⟩ ⟨2, 0⟩, .link ⟨2, 0⟩ ⟨3, 0⟩, .link ⟨2, 1⟩ ⟨3, 1⟩]

def tornMatch : Match := ⟨[("first", 1), ("mid", 5), ("second", 2)]⟩

theorem tornMatch_fails :
    ∃ e s', PermuteRule.replace tornMatch ⟨runCommands .nchw tornCommands, []⟩ = .error e s' ∧
      s'.graph ≠ runCommands .nchw tornCommands := by
  have hedges : (match PermuteRule.replace tornMatch ⟨runCommands .nchw tornCommands, []⟩ with
      | .ok _ _ => false
      | .error _ s' => s'.graph.edges != (runCommands .nchw tornCommands).edges) = true := by
    decide +kernel
  split at hedges
  · cases hedges
  · rename_i e s' hfailed
    refine ⟨e, s', hfailed, fun hsame => ?_⟩
    rw [hsame, bne_self_eq_false] at hedges
    cases hedges

/-- A failed offer of a match of the graph itself can leave a changed graph: here the output has
been moved to the graph input. -/
theorem permutes_torn :
    ∃ p, PermuteRule.pattern = .ok p ∧
      tornMatch ∈ p.allMatches (runCommands .nchw tornCommands) ∧
      ∃ e s', PermuteRule.replace tornMatch ⟨runCommands .nchw tornCommands, []⟩ = .error e s' ∧
        s'.graph ≠ runCommands .nchw tornCommands :=
  ⟨_, rfl, by decide +kernel, tornMatch_fails⟩

/-- The two permutes meet the condition. -/
theorem tornMatch_torn :
    Reachable (runCommands .nchw tornCommands) ∧
    ∃ planned, PermuteRule.plan tornMatch (runCommands .nchw tornCommands) = .ok planned ∧
      PermuteRule.Torn (runCommands .nchw tornCommands) planned :=
  ⟨⟨_, _, rfl⟩, ((unreplaced_unchanged_unless_torn ⟨_, _, rfl⟩).2.2.1 _ rfl
    (by decide +kernel) []).2.mp tornMatch_fails⟩

end TensorGraph
