/-
  What running rules keeps.

  A rule `Preserves` a property of graphs if its offers, or its edit of the whole graph, do; offers
  may assume that they are matches of the graph as it is.  From that, rounds of offers, whole rules
  and pipelines keep the property (`Rule.keeps_run`, `PipelineDescription.keeps_execute`), and with
  it the graph of every failing run.  A round can be followed more closely, by an invariant of the
  graph and the offers made so far (`Rule.runs_offerRound`).

    1. The early exit of the search gives a match that the whole search would list
       (`firstMatch?_mem`), and one that is not skipped (`firstMatch?_not_skipped`).
    2. A rule that plans first and then commits ends as its commit does, or with the graph unchanged
       (`runs_planThenCommit`).
    3. Rounds are inductions over the steps that are left; rounds of rounds are inductions over the
       rounds that are left (`keeps_offerRound`, `keeps_offerRounds`).
    4. Pipelines run their rules in turn (`Pipeline.keeps_run`), and executing a description builds
       the pipeline first, from rules that it has (`PipelineDescription.build_rules`).
-/
import TensorGraph.Pipeline
import TensorGraph.Proofs.Graph.Edit

namespace TensorGraph

open Edit

variable {α π : Type} {P E : Graph α → Prop}

/-! ## Matches -/

namespace Pattern

/-- Leaving the search early gives the first of all extensions that is not skipped. -/
theorem firstExtension?_eq_find? {p : Pattern} {g : Graph α} {order : List NodeId}
    {skip : List NodeId → Bool} (roles : List Role) (bound : List NodeId) :
    p.firstExtension? g order skip roles bound =
      (p.extensions g order roles bound).find? fun found => !skip found := by
  induction roles generalizing bound with
  | nil =>
    rw [firstExtension?, extensions, List.find?_singleton]
    cases skip bound <;> rfl
  | cons role roles ih =>
    rw [firstExtension?, extensions, List.find?_flatMap]
    simp only [ih]

theorem firstExtension?_mem {p : Pattern} {g : Graph α} {order : List NodeId}
    {skip : List NodeId → Bool} (roles : List Role) (bound : List NodeId) {found : List NodeId}
    (h : p.firstExtension? g order skip roles bound = some found) :
    found ∈ p.extensions g order roles bound ∧ skip found = false := by
  rw [firstExtension?_eq_find?] at h
  exact ⟨List.mem_of_find?_eq_some h, by simpa using List.find?_some h⟩

/-- Where no extension is found all of them are skipped. -/
theorem firstExtension?_eq_none {p : Pattern} {g : Graph α} {order : List NodeId}
    {skip : List NodeId → Bool} (roles : List Role) (bound : List NodeId)
    (h : p.firstExtension? g order skip roles bound = none) :
    ∀ found ∈ p.extensions g order roles bound, skip found = true := by
  rw [firstExtension?_eq_find?] at h
  intro found hfound
  simpa using List.find?_eq_none.mp h found hfound

theorem firstMatch?_mem {p : Pattern} {g : Graph α} {skip : List NodeId → Bool} {m : Match}
    (h : p.firstMatch? g skip = some m) : m ∈ p.allMatches g := by
  obtain ⟨found, hfound, rfl⟩ := Option.map_eq_some_iff.mp h
  exact List.mem_map.mpr ⟨found, (firstExtension?_mem p.roles [] hfound).1, rfl⟩

theorem length_of_mem_extensions {p : Pattern} {g : Graph α} {order found : List NodeId} :
    ∀ (roles : List Role) (bound : List NodeId), found ∈ p.extensions g order roles bound →
      found.length = bound.length + roles.length := by
  intro roles
  induction roles with
  | nil =>
    intro bound h
    rw [List.mem_singleton.mp h]
    rfl
  | cons role roles ih =>
    intro bound h
    obtain ⟨id, -, hfound⟩ := List.mem_flatMap.mp h
    rw [ih _ hfound, List.length_append, List.length_cons, List.length_cons, List.length_nil]
    omega

theorem toMatch_nodes {p : Pattern} {bound : List NodeId} (h : bound.length = p.roles.length) :
    (p.toMatch bound).nodes = bound := by
  rw [Match.nodes, toMatch]
  exact List.map_snd_zip (by simp [h])

theorem toMatch_of_mem_allMatches {p : Pattern} {g : Graph α} {m : Match}
    (h : m ∈ p.allMatches g) :
    m.nodes ∈ p.extensions g g.topologicalOrder p.roles [] ∧ p.toMatch m.nodes = m := by
  obtain ⟨found, hfound, rfl⟩ := List.mem_map.mp h
  have hlength := length_of_mem_extensions p.roles [] hfound
  rw [List.length_nil, Nat.zero_add] at hlength
  rw [toMatch_nodes hlength]
  exact ⟨hfound, rfl⟩

theorem firstMatch?_not_skipped {p : Pattern} {g : Graph α} {skip : List NodeId → Bool} {m : Match}
    (h : p.firstMatch? g skip = some m) : skip m.nodes = false := by
  obtain ⟨found, hfound, rfl⟩ := Option.map_eq_some_iff.mp h
  obtain ⟨hmem, hskip⟩ := firstExtension?_mem p.roles [] hfound
  have hlength := length_of_mem_extensions p.roles [] hmem
  rw [List.length_nil, Nat.zero_add] at hlength
  rwa [toMatch_nodes hlength]

/-- Where the search finds nothing it has skipped every match. -/
theorem skip_of_mem_allMatches {p : Pattern} {g : Graph α} {skip : List NodeId → Bool}
    (h : p.firstMatch? g skip = none) {m : Match} (hm : m ∈ p.allMatches g) :
    skip m.nodes = true :=
  firstExtension?_eq_none p.roles [] (Option.map_eq_none_iff.mp h) m.nodes
    (toMatch_of_mem_allMatches hm).1

end Pattern

/-! ## Plans -/

/-- A plan that looks something up and goes on succeeds if both do. -/
theorem planning_bind_eq_ok {β : Type} {e : Except Error β} {f : β → Planning π} {planned : π} :
    (liftM e : Planning β) >>= f = .ok planned ↔ ∃ b, e = .ok b ∧ f b = .ok planned := by
  rw [except_bind_eq_ok]
  cases e <;> simp [liftM, monadLift, MonadLift.monadLift, Except.mapError]

/-- A plan that looks something up does not decline if this fails. -/
theorem planning_bind_eq_decline {β : Type} {e : Except Error β} {f : β → Planning π}
    {note : Option String} :
    (liftM e : Planning β) >>= f = .error (.decline note) ↔
      ∃ b, e = .ok b ∧ f b = .error (.decline note) := by
  cases e <;> simp [liftM, monadLift, MonadLift.monadLift, Except.mapError, bind, Except.bind]

/-- A plan that halts in one case and goes on in the other. -/
theorem planning_halt_if_eq_ok {c : Prop} [Decidable c] {halt : Halt} {f : Unit → Planning π}
    {planned : π} :
    (if c then (throw halt : Planning Unit) >>= f else f ()) = .ok planned ↔
      ¬ c ∧ f () = .ok planned := by
  by_cases hc : c
  · simp [hc, throw, throwThe, MonadExceptOf.throw, bind, Except.bind]
  · simp [hc]

theorem planning_halt_unless_eq_ok {c : Prop} [Decidable c] {halt : Halt} {f : Unit → Planning π}
    {planned : π} :
    (if c then f () else (throw halt : Planning Unit) >>= f) = .ok planned ↔
      c ∧ f () = .ok planned := by
  by_cases hc : c
  · simp [hc]
  · simp [hc, throw, throwThe, MonadExceptOf.throw, bind, Except.bind]

/-- A rule that plans ends as its commit does, or with the graph unchanged. -/
theorem runs_planThenCommit {name : String} {plan : Graph α → Planning π} {commit : π → Edit α Unit}
    {g : Graph α} {notes : List LogEntry} {Q : Bool → Graph α → Prop}
    (hcommit : ∀ planned, plan g = .ok planned →
      ∀ notes, Runs (commit planned) ⟨g, notes⟩ (fun _ => Q true) E)
    (hdecline : ∀ note, plan g = .error (.decline note) → Q false g)
    (hfail : ∀ error, plan g = .error (.fail error) → E g) :
    Runs (planThenCommit name plan commit) ⟨g, notes⟩ Q E := by
  refine runs_bind (runs_graph fun notes' => ?_)
  cases hplan : plan g with
  | error halt =>
    cases halt with
    | fail error => exact runs_throw (hfail error hplan)
    | decline note =>
      cases note with
      | none => exact runs_pure (hdecline _ hplan)
      | some text => exact runs_bind (runs_log fun _ => runs_pure (hdecline _ hplan))
  | ok planned =>
    exact runs_bind ((hcommit planned hplan notes').imp (fun _ _ hQ _ => runs_pure hQ)
      fun _ hE => hE)

theorem keeps_planThenCommit {name : String} {plan : Graph α → Planning π}
    {commit : π → Edit α Unit} (hPE : ∀ g, P g → E g) (hcommit : ∀ p, Keeps P E (commit p)) :
    Keeps P E (planThenCommit name plan commit) :=
  fun s hs => runs_planThenCommit (fun p _ notes => hcommit p ⟨s.graph, notes⟩ hs)
    (fun _ _ => hs) fun _ _ => hPE _ hs

/-! ## Rules -/

namespace Rule

/-- What a rule does keeps `P`, or fails where `E` holds.  Offers are matches of the graph. -/
def Preserves (P E : Graph α → Prop) (rule : Rule α) : Prop :=
  match rule.body with
  | .idle => True
  | .replacing pattern replace =>
    ∀ p, pattern = .ok p → ∀ (s : Session α) m, P s.graph → m ∈ p.allMatches s.graph →
      Runs (replace m) s (fun _ => P) E
  | .editing run => Keeps P E run

/-- What a round keeps may speak of the steps that are left and of the offers so far, the latest
first.  An offer takes a step and is a new match.  The round ends when all that is found has been
offered, or fails when no step is left. -/
theorem runs_offerSteps_counted {name : String} {pattern : Pattern} {replace : Match → Edit α Bool}
    (R : Nat → List Offer → Graph α → Prop) (hzero : ∀ offers g, R 0 offers g → E g)
    (hreplace : ∀ steps offers (s : Session α) m, R (steps + 1) offers s.graph →
      m ∈ pattern.allMatches s.graph → m.nodes ∉ offers.map (·.nodes) →
      Runs (replace m) s (fun replaced => R steps (⟨m.nodes, replaced⟩ :: offers)) E)
    (steps : Nat) {offers : List Offer} {s : Session α} (hs : R steps offers s.graph) :
    Runs (offerSteps name pattern replace steps (offers.map (·.nodes))) s
      (fun recorded g => (∃ steps, R (steps + 1) (recorded.reverse ++ offers) g) ∧
        pattern.firstMatch? g ((recorded.reverse ++ offers).map (·.nodes)).contains = none) E := by
  induction steps generalizing offers s with
  | zero => exact runs_throw (hzero _ _ hs)
  | succ steps ih =>
    refine runs_bind (runs_graph fun notes => ?_)
    dsimp only
    split
    · rename_i hnone
      exact runs_pure ⟨⟨steps, hs⟩, hnone⟩
    · rename_i m hm
      have hnew : m.nodes ∉ offers.map (·.nodes) := by
        rw [← List.contains_iff_mem, Pattern.firstMatch?_not_skipped hm]
        exact Bool.false_ne_true
      refine runs_bind ((hreplace steps offers ⟨s.graph, notes⟩ m hs (Pattern.firstMatch?_mem hm)
        hnew).imp (fun replaced g hg notes => ?_) fun _ hE => hE)
      have hrest : ∀ notes, Runs (do
          let rest ← offerSteps name pattern replace steps (m.nodes :: offers.map (·.nodes))
          return ⟨m.nodes, replaced⟩ :: rest) ⟨g, notes⟩ (fun recorded g =>
            (∃ steps, R (steps + 1) (recorded.reverse ++ offers) g) ∧
              pattern.firstMatch? g ((recorded.reverse ++ offers).map (·.nodes)).contains = none)
          E := fun notes =>
        runs_bind ((ih (s := ⟨g, notes⟩) hg).imp
          (fun rest g' h notes => runs_pure (by simpa using h)) fun _ hE => hE)
      split
      · exact runs_bind (runs_log fun notes => hrest notes)
      · exact hrest notes

section Recorded

variable {limit : Pattern → Graph α → Nat} {name : String} {pattern : Pattern}
  {replace : Match → Edit α Bool} {R : List Offer → Graph α → Prop}
  (hRE : ∀ offers g, R offers g → E g)
  (hreplace : ∀ offers (s : Session α) m, R offers s.graph → m ∈ pattern.allMatches s.graph →
    Runs (replace m) s (fun replaced => R (⟨m.nodes, replaced⟩ :: offers)) E)
include hRE hreplace

/-- Whether a step is left is not looked at where a failure may happen at any time. -/
theorem runs_offerRound {s : Session α} (hs : R [] s.graph) :
    Runs (offerRound limit name pattern replace) s
      (fun recorded g => R recorded.reverse g ∧
        pattern.firstMatch? g (recorded.reverse.map (·.nodes)).contains = none) E := by
  refine runs_bind (runs_graph fun notes => ?_)
  refine (runs_offerSteps_counted (fun _ => R) hRE (fun _ offers s m hs hm _ =>
    hreplace offers s m hs hm) _ (s := ⟨s.graph, notes⟩) hs).imp (fun recorded g h => ?_)
    fun _ hE => hE
  rw [List.append_nil] at h
  obtain ⟨⟨_, hR⟩, hnone⟩ := h
  exact ⟨hR, hnone⟩

end Recorded

section Offers

variable {limit : Pattern → Graph α → Nat} {name : String} {pattern : Pattern}
  {replace : Match → Edit α Bool} (hPE : ∀ g, P g → E g)
  (hreplace : ∀ (s : Session α) m, P s.graph → m ∈ pattern.allMatches s.graph →
    Runs (replace m) s (fun _ => P) E)
include hPE hreplace

theorem keeps_offerRound : Keeps P E (offerRound limit name pattern replace) := fun s hs =>
  (runs_offerRound (R := fun _ => P) (fun _ => hPE) (fun _ => hreplace) (s := s) hs).imp
    (fun _ _ h => h.1) fun _ hE => hE

/-- Rounds keep what offers keep. -/
theorem keeps_offerRounds (left done : Nat) :
    Keeps P E (offerRounds limit name pattern replace left done) := by
  induction left generalizing done with
  | zero => exact (keeps_log _ _).bind fun _ => keeps_pure _
  | succ left ih =>
    refine (keeps_offerRound hPE hreplace).bind fun offers => ?_
    split
    · exact (ih _).bind fun _ => keeps_pure _
    · exact (keeps_log _ _).bind fun _ => keeps_pure _

end Offers

/-- A rule that preserves a property keeps it, in however many rounds. -/
theorem keeps_run {rule : Rule α} (hPE : ∀ g, P g → E g) (h : rule.Preserves P E)
    (maxIterations : Nat) : Keeps P E (rule.run maxIterations) := by
  obtain ⟨name, _, _, repeats, body⟩ := rule
  cases body with
  | idle => exact keeps_pure _
  | editing run => exact Keeps.bind (e := run) h fun _ => keeps_pure _
  | replacing pattern replace =>
    intro s hs
    refine runs_bind (runs_attempt (fun p hp notes => ?_) fun _ _ => hPE _ hs)
    have hoffers := h p hp
    cases repeats with
    | once =>
      exact (keeps_offerRound hPE hoffers).bind (fun _ => keeps_pure _) ⟨s.graph, notes⟩ hs
    | untilStable =>
      exact (keeps_offerRounds hPE hoffers maxIterations 0).bind (fun _ => keeps_pure _)
        ⟨s.graph, notes⟩ hs

end Rule

/-! ## Pipelines -/

theorem Pipeline.keeps_step {rule : Rule α} (hPE : ∀ g, P g → E g) (h : rule.Preserves P E)
    (limit : Nat) : Keeps P E (Pipeline.step rule limit) := by
  refine (Rule.keeps_run hPE h limit).bind fun outcome => ?_
  dsimp only
  split
  · exact (keeps_query hPE _).bind fun _ => (keeps_log _ _).bind fun _ => keeps_pure _
  · exact (keeps_log _ _).bind fun _ => keeps_pure _

theorem Pipeline.keeps_run {p : Pipeline α} (hPE : ∀ g, P g → E g)
    (h : ∀ rule ∈ p.rules, rule.Preserves P E) : Keeps P E p.run :=
  (keeps_mapM fun rule hrule => keeps_step hPE (h rule hrule) _).bind fun _ => keeps_pure _

/-- A pipeline has rules of its description only. -/
theorem PipelineDescription.build_rules {d : PipelineDescription α} {p : Pipeline α}
    (h : d.build.2 = .ok p) : ∀ rule ∈ p.rules, rule ∈ d.rules := by
  rw [build] at h
  split at h
  · cases h
  · split at h
    · cases h
    · intro rule hrule
      dsimp only at h
      cases horder : orderRules d.enabled with
      | error e =>
        rw [horder] at h
        cases h
      | ok order =>
        rw [horder] at h
        cases h
        obtain ⟨i, _, hi⟩ := List.mem_filterMap.mp hrule
        exact (List.mem_filter.mp (List.mem_of_getElem? hi)).1

theorem PipelineDescription.keeps_execute {d : PipelineDescription α} (hPE : ∀ g, P g → E g)
    (h : ∀ rule ∈ d.rules, rule.Preserves P E) : Keeps P E d.execute := by
  refine (keeps_forM fun note _ => keeps_log note.level note.text).bind fun _ => ?_
  intro s hs
  refine runs_bind (runs_attempt (fun p hp notes => ?_) fun _ _ => hPE _ hs)
  exact Pipeline.keeps_run hPE (fun rule hrule => h rule (build_rules hp rule hrule))
    ⟨s.graph, notes⟩ hs

end TensorGraph
