/-
  What rounds of offers guarantee, whatever the rule does with them.

  All that is known about the rule is that it edits the graph `ByCommands`.  It may remove what it
  was offered, and it may make new matches; nothing is said about how long a round takes, so the
  limit on its steps is arbitrary.  If a round comes to an end, it was a chain of offers, each of
  them a match of the graph at that moment, and it has left no match out (`Swept`).  For this the
  search has to look at the graph anew after every offer, and to pass over what was offered and over
  nothing else.

  A run is a chain of rounds.  If the last one replaced nothing, and the rule touches nothing that
  it does not replace, then that round saw one graph only, and the rule has declined all its
  matches.
-/
import TensorGraph.Proofs.Pattern.Match

namespace TensorGraph

open Edit TensorGraph.Graph

variable {α β : Type}

/-! ## Edits by commands -/

namespace Edit

/-- Whatever the edit does to a graph some commands do as well, and the log has no part in it. -/
structure ByCommands [Scalar α] (e : Edit α β) : Prop where
  commands : ∀ s, ∃ commands : List (Command α),
    (e.ending s).2 = (commands.foldl Command.apply s).graph
  blind : ∀ g notes notes', e.ending ⟨g, notes⟩ = e.ending ⟨g, notes'⟩

theorem ByCommands.reachable [Scalar α] {e : Edit α β} (h : ByCommands e) {g : Graph α}
    (hg : Reachable g) (notes : List LogEntry) : Reachable (e.ending ⟨g, notes⟩).2 := by
  obtain ⟨layout, commands, rfl⟩ := hg
  -- the commands that lead to the graph leave a log, which need not be the one at hand
  obtain ⟨more, hmore⟩ := h.commands (commands.foldl Command.apply ⟨Graph.empty layout, []⟩)
  refine ⟨layout, commands ++ more, ?_⟩
  rw [runCommands, List.foldl_append, ← hmore]
  exact congrArg Prod.snd (h.blind _ _ notes)

end Edit

theorem Command.apply_graph [Scalar α] (s : Session α) (command : Command α) :
    (command.apply s).graph = (command.perform.ending s).2 := by
  rw [apply, ending]
  cases command.perform s <;> rfl

/-! ## Chains -/

/-- Steps that follow one another, with what each of them was. -/
inductive Chained (step : Graph α → β → Graph α → Prop) : Graph α → List β → Graph α → Prop
  | nil (g : Graph α) : Chained step g [] g
  | cons {g g₁ g' : Graph α} {label : β} {labels : List β} :
      step g label g₁ → Chained step g₁ labels g' → Chained step g (label :: labels) g'

section Chains

variable {step : Graph α → β → Graph α → Prop} {P : Graph α → Prop} {g g' : Graph α}
  {labels : List β}

theorem Chained.keeps (hstep : ∀ g label g', P g → step g label g' → P g')
    (h : Chained step g labels g') (hg : P g) : P g' := by
  induction h with
  | nil => exact hg
  | cons hfirst _ ih => exact ih (hstep _ _ _ hg hfirst)

/-- The last step ends where the chain ends. -/
theorem Chained.last (hstep : ∀ g label g', P g → step g label g' → P g')
    (h : Chained step g labels g') (hg : P g) {label : β} (hlast : labels.getLast? = some label) :
    ∃ g₁, P g₁ ∧ step g₁ label g' := by
  induction h with
  | nil => cases hlast
  | @cons g g₁ g' first labels hfirst hrest ih =>
    have hg₁ := hstep _ _ _ hg hfirst
    cases hrest with
    | nil =>
      cases hlast
      exact ⟨g, hg, hfirst⟩
    | cons => exact ih hg₁ (by simpa using hlast)

end Chains

/-! ## Rounds -/

/-- A match that a rule was offered, and its answer. -/
structure Offering where
  target : Match
  replaced : Bool

/-- The offer as the rounds record it. -/
def Offering.offer (o : Offering) : Offer :=
  ⟨o.target.nodes, o.replaced⟩

/-- Some offer was accepted. -/
def Replaces (offers : List Offering) : Prop :=
  ∃ o ∈ offers, o.replaced = true

/-- The accepted offers of all rounds, added up. -/
def acceptedIn : List (List Offering) → Nat
  | [] => 0
  | offers :: rounds => offers.countP (·.replaced) + acceptedIn rounds

/-- A match of the graph `g` is offered to the rule, which answers and leaves `g'`. -/
def Offered (d : PatternDescription) (replace : Match → Edit α Bool) (g : Graph α) (o : Offering)
    (g' : Graph α) : Prop :=
  o.target.Fits d g ∧ ∀ notes, (replace o.target).ending ⟨g, notes⟩ = (.ok o.replaced, g')

/-- The offers of one round, which leads from `g` to `g'`. -/
structure Swept (d : PatternDescription) (replace : Match → Edit α Bool) (g : Graph α)
    (offers : List Offering) (g' : Graph α) : Prop where
  offered : Chained (Offered d replace) g offers g'
  /-- No nodes are offered twice. -/
  distinct : (offers.map (·.target.nodes)).Nodup
  /-- Whatever matches in the end was offered. -/
  complete : ∀ m, m.Fits d g' → ∃ o ∈ offers, o.target = m

/-- The offers of the rest of a round, after some nodes were offered. -/
structure SweptPast (d : PatternDescription) (replace : Match → Edit α Bool)
    (attempted : List (List NodeId)) (g : Graph α) (offers : List Offering) (g' : Graph α) :
    Prop where
  offered : Chained (Offered d replace) g offers g'
  distinct : (offers.map (·.target.nodes)).Nodup
  fresh : ∀ o ∈ offers, o.target.nodes ∉ attempted
  complete : ∀ m, m.Fits d g' → m.nodes ∈ attempted ∨ ∃ o ∈ offers, o.target = m

/-- The nodes identify a match, in whatever graph it fits. -/
theorem Match.Fits.eq_of_nodes {m m' : Match} {d : PatternDescription} {g g' : Graph α}
    (h : m.Fits d g) (h' : m'.Fits d g') (hnodes : m.nodes = m'.nodes) : m = m' := by
  have hzip := List.zip_of_prod h.roles (rfl : m.bindings.map Prod.snd = m.nodes)
  have hzip' := List.zip_of_prod h'.roles (rfl : m'.bindings.map Prod.snd = m'.nodes)
  have hsame : m.bindings = m'.bindings := by
    rw [hzip, hzip']
    exact congrArg _ hnodes
  exact congrArg Match.mk hsame

/-- One more offer in front of the rest of a round. -/
theorem SweptPast.cons {d : PatternDescription} {replace : Match → Edit α Bool} {g g₁ g' : Graph α}
    {attempted : List (List NodeId)} {o : Offering} {offers : List Offering}
    (hnew : o.target.nodes ∉ attempted) (hfirst : Offered d replace g o g₁)
    (h : SweptPast d replace (o.target.nodes :: attempted) g₁ offers g') :
    SweptPast d replace attempted g (o :: offers) g' where
  offered := .cons hfirst h.offered
  distinct := by
    refine List.nodup_cons.mpr ⟨fun hagain => ?_, h.distinct⟩
    obtain ⟨o', ho', hsame⟩ := List.mem_map.mp hagain
    exact h.fresh o' ho' (hsame ▸ List.mem_cons_self)
  fresh := by
    intro o' ho'
    rcases List.mem_cons.mp ho' with rfl | ho'
    · exact hnew
    · exact fun hold => h.fresh o' ho' (List.mem_cons_of_mem _ hold)
  complete := by
    intro m hm
    rcases h.complete m hm with hold | ⟨o', ho', htarget⟩
    · rcases List.mem_cons.mp hold with hsame | hold
      · -- the offer was made in an earlier graph, but its nodes say which match it was
        exact .inr ⟨o, List.mem_cons_self, hfirst.1.eq_of_nodes hm hsame.symm⟩
      · exact .inl hold
    · exact .inr ⟨o', List.mem_cons_of_mem _ ho', htarget⟩

section Search

variable {g : Graph α} {d : PatternDescription} {p : Pattern} (hg : g.WellFormed)
  (hp : Pattern.build d = .ok p) {skip : List NodeId → Bool}
include hg hp

theorem firstMatch?_fits {m : Match} (h : p.firstMatch? g skip = some m) :
    m.Fits d g ∧ skip m.nodes = false :=
  ⟨(Pattern.mem_allMatches_iff hg hp).mp (Pattern.firstMatch?_mem h),
    Pattern.firstMatch?_not_skipped h⟩

theorem skip_of_firstMatch?_eq_none (h : p.firstMatch? g skip = none) {m : Match}
    (hm : m.Fits d g) : skip m.nodes = true :=
  Pattern.skip_of_mem_allMatches h ((Pattern.mem_allMatches_iff hg hp).mpr hm)

end Search

section Run

variable [Scalar α] {d : PatternDescription} {p : Pattern} {replace : Match → Edit α Bool}
  (hp : Pattern.build d = .ok p) (hreplace : ∀ m, ByCommands (replace m))

include hreplace in
theorem reachable_of_offered (g : Graph α) (o : Offering) (g' : Graph α) (hg : Reachable g)
    (h : Offered d replace g o g') : Reachable g' := by
  have hafter := (hreplace o.target).reachable hg []
  rwa [h.2 []] at hafter

include hreplace in
theorem reachable_of_swept (g : Graph α) (offers : List Offering) (g' : Graph α)
    (hg : Reachable g) (h : Swept d replace g offers g') : Reachable g' :=
  h.offered.keeps (reachable_of_offered hreplace) hg

include hp hreplace

/-- A round goes on until the search finds nothing that was not offered. -/
theorem runs_offerSteps {name : String} (steps : Nat) {attempted : List (List NodeId)} {g : Graph α}
    {notes : List LogEntry} (hg : Reachable g) :
    Runs (Rule.offerSteps name p replace steps attempted) ⟨g, notes⟩
      (fun recorded g' => ∃ offers : List Offering, recorded = offers.map Offering.offer ∧
        SweptPast d replace attempted g offers g') fun _ => True := by
  -- both the graph and the nodes that were offered are others after each step
  induction steps generalizing attempted g notes with
  | zero => exact runs_throw trivial
  | succ steps ih =>
    refine runs_bind (runs_graph fun notes => ?_)
    dsimp only
    split
    · rename_i hnone
      refine runs_pure ⟨[], rfl, .nil g, List.nodup_nil, by simp, fun m hm => .inl ?_⟩
      have hskip := skip_of_firstMatch?_eq_none hg.wellFormed hp hnone hm
      exact List.contains_iff_mem.mp hskip
    · rename_i m hm
      obtain ⟨hfits, hskip⟩ := firstMatch?_fits hg.wellFormed hp hm
      have hnew : m.nodes ∉ attempted := by
        rw [← List.contains_iff_mem, hskip]
        exact Bool.false_ne_true
      refine runs_bind (runs_ending.imp (fun replaced g₁ hend notes => ?_) fun _ hE => hE)
      have hoffered : Offered d replace g ⟨m, replaced⟩ g₁ :=
        ⟨hfits, fun notes => ((hreplace m).blind _ _ _).trans hend⟩
      have hg₁ := reachable_of_offered hreplace g ⟨m, replaced⟩ g₁ hg hoffered
      have hrest : ∀ notes, Runs (do
          let rest ← Rule.offerSteps name p replace steps (m.nodes :: attempted)
          return ⟨m.nodes, replaced⟩ :: rest) ⟨g₁, notes⟩
          (fun recorded g' => ∃ offers : List Offering, recorded = offers.map Offering.offer ∧
            SweptPast d replace attempted g offers g') fun _ => True := by
        intro notes
        refine runs_bind ((ih hg₁).imp (fun recorded g' h notes => ?_) fun _ hE => hE)
        obtain ⟨offers, rfl, hpast⟩ := h
        exact runs_pure ⟨⟨m, replaced⟩ :: offers, rfl, hpast.cons hnew hoffered⟩
      -- only a replacement is logged
      split
      · exact runs_bind (runs_log fun notes => hrest notes)
      · exact hrest notes

theorem runs_offerRound {limit : Pattern → Graph α → Nat} {name : String} {g : Graph α}
    {notes : List LogEntry} (hg : Reachable g) :
    Runs (Rule.offerRound limit name p replace) ⟨g, notes⟩
      (fun recorded g' => ∃ offers : List Offering, recorded = offers.map Offering.offer ∧
        Swept d replace g offers g') fun _ => True := by
  refine runs_bind (runs_graph fun notes => ?_)
  refine (runs_offerSteps hp hreplace _ hg).imp (fun recorded g' h => ?_) fun _ hE => hE
  obtain ⟨offers, hrecorded, hpast⟩ := h
  refine ⟨offers, hrecorded, hpast.offered, hpast.distinct, fun m hm => ?_⟩
  exact (hpast.complete m hm).resolve_left List.not_mem_nil

/-- Rounds follow one another until one replaces nothing or the limit is reached. -/
theorem runs_offerRounds {limit : Pattern → Graph α → Nat} {name : String} (left done : Nat)
    {g : Graph α} {notes : List LogEntry} (hg : Reachable g) :
    Runs (Rule.offerRounds limit name p replace left done) ⟨g, notes⟩
      (fun recorded g' => ∃ rounds : List (List Offering),
        recorded = rounds.flatten.map Offering.offer ∧ Chained (Swept d replace) g rounds g' ∧
        rounds.length ≤ left ∧ (∀ offers ∈ rounds.dropLast, Replaces offers) ∧
        (rounds.length < left → ∃ last, rounds.getLast? = some last ∧ ¬ Replaces last))
      fun _ => True := by
  induction left generalizing done g notes with
  | zero =>
    refine runs_bind (runs_log fun notes => runs_pure ?_)
    exact ⟨[], rfl, .nil g, Nat.le_refl 0, by simp, fun h => absurd h (Nat.lt_irrefl 0)⟩
  | succ left ih =>
    refine runs_bind ((runs_offerRound hp hreplace hg).imp (fun recorded g₁ h notes => ?_)
      fun _ hE => hE)
    obtain ⟨offers, rfl, hswept⟩ := h
    have hany : (offers.map Offering.offer).any (·.replaced) = true ↔ Replaces offers := by
      simp [Replaces, Offering.offer]
    split
    · rename_i hreplaces
      have hg₁ := reachable_of_swept hreplace g offers g₁ hg hswept
      refine runs_bind ((ih (done + 1) hg₁).imp (fun rest g' h notes => runs_pure ?_) fun _ hE => hE)
      obtain ⟨rounds, rfl, hchained, hlength, hearlier, hstopped⟩ := h
      refine ⟨offers :: rounds, by simp, .cons hswept hchained, ?_, ?_, fun hless => ?_⟩
      · rw [List.length_cons]
        omega
      · intro round hround
        cases rounds with
        | nil => simp at hround
        | cons next rest =>
          -- this round was followed by another one, so it replaced something
          rcases List.mem_cons.mp hround with rfl | hround
          · exact hany.mp hreplaces
          · exact hearlier round hround
      · rw [List.length_cons] at hless
        obtain ⟨last, hlast, hnone⟩ := hstopped (by omega)
        exact ⟨last, by simp [List.getLast?_cons, hlast], hnone⟩
    · rename_i hnone
      refine runs_bind (runs_log fun notes => runs_pure ?_)
      refine ⟨[offers], by simp, .cons hswept (.nil g₁), by simp, by simp, fun _ => ?_⟩
      exact ⟨offers, rfl, fun hreplaces => hnone (hany.mpr hreplaces)⟩

end Run

/-! ## Rounds that replace nothing -/

/-- The rule leaves a graph as it is where it does not replace anything. -/
def Cautious [Scalar α] (replace : Match → Edit α Bool) : Prop :=
  ∀ m g notes g', Reachable g → (replace m).ending ⟨g, notes⟩ = (.ok false, g') → g' = g

/-- A cautious rule that declines all offers of a round is offered them in one graph. -/
theorem Chained.unchanged [Scalar α] {d : PatternDescription} {replace : Match → Edit α Bool}
    (hcautious : Cautious replace) {g g' : Graph α} {offers : List Offering} (hg : Reachable g)
    (h : Chained (Offered d replace) g offers g') (hnone : ∀ o ∈ offers, o.replaced = false) :
    g' = g ∧ ∀ o ∈ offers, ∀ notes, (replace o.target).ending ⟨g, notes⟩ = (.ok false, g) := by
  induction h with
  | nil g => exact ⟨rfl, by simp⟩
  | @cons g g₁ g' o offers hfirst _ ih =>
    obtain ⟨hdeclined, hrest⟩ := List.forall_mem_cons.mp hnone
    have hend := hfirst.2
    rw [hdeclined] at hend
    -- the next offer is made in the same graph
    obtain rfl : g₁ = g := hcautious o.target g [] g₁ hg (hend [])
    obtain ⟨hsame, hothers⟩ := ih hg hrest
    exact ⟨hsame, List.forall_mem_cons.mpr ⟨hend, hothers⟩⟩

theorem Swept.declined [Scalar α] {d : PatternDescription} {replace : Match → Edit α Bool}
    (hcautious : Cautious replace) {g g' : Graph α} {offers : List Offering} (hg : Reachable g)
    (h : Swept d replace g offers g') (hnone : ¬ Replaces offers) {m : Match} (hm : m.Fits d g')
    (notes : List LogEntry) : (replace m).ending ⟨g', notes⟩ = (.ok false, g') := by
  have hfalse : ∀ o ∈ offers, o.replaced = false := by
    intro o ho
    rw [← Bool.not_eq_true]
    exact fun hreplaced => hnone ⟨o, ho, hreplaced⟩
  obtain ⟨rfl, hdeclined⟩ := h.offered.unchanged hcautious hg hfalse
  obtain ⟨o, ho, rfl⟩ := h.complete m hm
  exact hdeclined o ho notes

/-! ## Rules -/

/-- What applying a rule does, round by round. -/
structure Applied [Scalar α] (d : PatternDescription) (replace : Match → Edit α Bool)
    (repeats : Repetition) (maxIterations : Nat) (g : Graph α) (rounds : List (List Offering))
    (g' : Graph α) : Prop where
  swept : Chained (Swept d replace) g rounds g'
  once : repeats = .once → rounds.length = 1
  bounded : repeats = .untilStable → rounds.length ≤ maxIterations
  /-- Only the last round may replace nothing. -/
  earlier : ∀ offers ∈ rounds.dropLast, Replaces offers
  /-- Before the limit is reached, rounds end because the last one replaced nothing. -/
  stopped : repeats = .untilStable → rounds.length < maxIterations →
    ∃ last, rounds.getLast? = some last ∧ ¬ Replaces last
  /-- After a round that replaced nothing a cautious rule declines all that matches. -/
  stable : ∀ last, rounds.getLast? = some last → ¬ Replaces last → Cautious replace →
    ∀ m, m.Fits d g' → ∀ notes, (replace m).ending ⟨g', notes⟩ = (.ok false, g')

/-- There is at most one round more than there are replacements. -/
theorem length_le_replacements (rounds : List (List Offering))
    (hearlier : ∀ offers ∈ rounds.dropLast, Replaces offers) :
    rounds.length ≤ acceptedIn rounds + 1 := by
  induction rounds with
  | nil => exact Nat.zero_le _
  | cons offers rounds ih =>
    cases rounds with
    | nil => exact Nat.le_add_left _ _
    | cons next rest =>
      obtain ⟨hfirst, hrest⟩ := List.forall_mem_cons.mp hearlier
      have hpos : 0 < offers.countP (·.replaced) := List.countP_pos_iff.mpr hfirst
      have hless := ih hrest
      rw [List.length_cons, acceptedIn]
      omega

/-- The count over all rounds is the sum of the counts. -/
theorem countP_offers (rounds : List (List Offering)) :
    (rounds.flatten.map Offering.offer).countP (·.replaced) = acceptedIn rounds := by
  induction rounds with
  | nil => rfl
  | cons offers rounds ih =>
    rw [List.flatten_cons, List.map_append, List.countP_append, ih, List.countP_map]
    rfl

/-- Whatever a rule does with matches: if its application ends, it was offered all matches, round by
round, and the replacements that are counted are the offers that it accepted.  `Rule.run` is the
case of the limit `Rule.offerLimit`. -/
theorem run_offers [Scalar α] {g : Graph α} (hg : Reachable g) (limit : Pattern → Graph α → Nat)
    {rule : Rule α} {d : PatternDescription} {replace : Match → Edit α Bool}
    (hbody : rule.body = .replacing (Pattern.build d) replace)
    (hreplace : ∀ m, ByCommands (replace m)) {maxIterations : Nat} {notes : List LogEntry}
    {outcome : Outcome} {s : Session α}
    (hok : rule.runWithin limit maxIterations ⟨g, notes⟩ = .ok outcome s) :
    ∃ rounds, Applied d replace rule.repeats maxIterations g rounds s.graph ∧
      outcome.offers = rounds.flatten.map Offering.offer ∧
      outcome.replacements = acceptedIn rounds := by
  have hstable : ∀ rounds g', Chained (Swept d replace) g rounds g' → ∀ last,
      rounds.getLast? = some last → ¬ Replaces last → Cautious replace →
      ∀ m, m.Fits d g' → ∀ notes, (replace m).ending ⟨g', notes⟩ = (.ok false, g') := by
    intro rounds g' hchained last hlast hnone hcautious m hm notes
    obtain ⟨g₁, hg₁, hswept⟩ := hchained.last (reachable_of_swept hreplace) hg hlast
    exact hswept.declined hcautious hg₁ hnone hm notes
  have hrun : Runs (rule.runWithin limit maxIterations) ⟨g, notes⟩
      (fun outcome g' => ∃ rounds, Applied d replace rule.repeats maxIterations g rounds g' ∧
        outcome.offers = rounds.flatten.map Offering.offer ∧
        outcome.replacements = acceptedIn rounds)
      fun _ => True := by
    rw [Rule.runWithin, hbody]
    refine runs_bind (runs_attempt (fun p hp notes => ?_) fun _ _ => trivial)
    cases hrepeats : rule.repeats with
    | once =>
      refine runs_bind ((runs_offerRound hp hreplace hg).imp (fun recorded g' h notes => ?_)
        fun _ hE => hE)
      obtain ⟨offers, rfl, hswept⟩ := h
      have hchained : Chained (Swept d replace) g [offers] g' := .cons hswept (.nil g')
      have hflat : [offers].flatten.map Offering.offer = offers.map Offering.offer := by simp
      refine runs_pure ⟨[offers], ?_, hflat.symm, hflat ▸ countP_offers [offers]⟩
      exact ⟨hchained, fun _ => rfl, fun h => absurd h (by decide), by simp,
        fun h => absurd h (by decide), hstable _ _ hchained⟩
    | untilStable =>
      refine runs_bind ((runs_offerRounds hp hreplace maxIterations 0 hg).imp
        (fun recorded g' h notes => ?_) fun _ hE => hE)
      obtain ⟨rounds, rfl, hchained, hbounded, hearlier, hstopped⟩ := h
      refine runs_pure ⟨rounds, ?_, rfl, countP_offers rounds⟩
      exact ⟨hchained, fun h => absurd h (by decide), fun _ => hbounded, hearlier, fun _ => hstopped,
        hstable _ _ hchained⟩
  exact hrun.of_ok hok

/-- Adds one more product for each, until there are four nodes. -/
def growProducts (_ : Match) : Edit Float Bool := do
  if (← Edit.graph).nodes.length < 4 then
    let _ ← addOperator "more" .mul
    return true
  return false

theorem growProducts_ending (m : Match) (s : Session Float) :
    (growProducts m).ending s =
      if s.graph.nodes.length < 4 then
        (.ok true, s.graph.insertNode (s.graph.freeName "more") (.op (Operator.ofOperation .mul)))
      else (.ok false, s.graph) := by
  obtain ⟨g, notes⟩ := s
  dsimp only
  split
  · rename_i hfew
    refine ending_of_runs (runs_bind (runs_graph fun notes => ?_))
    rw [if_pos hfew]
    exact runs_bind (runs_addNode fun notes => runs_pure ⟨rfl, rfl⟩)
  · rename_i hmany
    refine ending_of_runs (runs_bind (runs_graph fun notes => ?_))
    rw [if_neg hmany]
    exact runs_pure ⟨rfl, rfl⟩

theorem growProducts_byCommands (m : Match) : ByCommands (growProducts m) where
  commands := by
    intro s
    rw [growProducts_ending]
    split
    · refine ⟨[.addOperator "more" .mul], ?_⟩
      have hadds : Edit.ending (Command.addOperator "more" .mul).perform s = (.ok (), _) :=
        ending_of_runs (runs_bind (runs_addNode fun notes => runs_pure ⟨rfl, rfl⟩))
      rw [List.foldl_cons, List.foldl_nil, Command.apply_graph, hadds]
    · exact ⟨[], rfl⟩
  blind := by
    intro g notes notes'
    rw [growProducts_ending, growProducts_ending]

theorem growProducts_cautious : Cautious growProducts := by
  intro m g notes g' _ hend
  rw [growProducts_ending] at hend
  split at hend
  · cases hend
  · cases hend
    rfl

def productDescription : PatternDescription :=
  ⟨[⟨"product", .operator .mul⟩], []⟩

/-- The rule looks for products, and makes new ones. -/
def growRule : Rule Float where
  name := "grow"
  repeats := .untilStable
  body := .replacing (Pattern.build productDescription) growProducts

theorem growRule_run :
    ∃ s, growRule.runWithin (fun _ _ => 6) 10 ⟨runCommands .nchw [.addOperator "x" .mul], []⟩ =
      .ok ⟨3, [⟨[0], true⟩, ⟨[1], true⟩, ⟨[2], true⟩, ⟨[3], false⟩,
        ⟨[0], false⟩, ⟨[1], false⟩, ⟨[2], false⟩, ⟨[3], false⟩]⟩ s := by
  have hrun : (match growRule.runWithin (fun _ _ => 6) 10
        ⟨runCommands .nchw [.addOperator "x" .mul], []⟩ with
      | .ok outcome _ => decide (outcome = ⟨3, [⟨[0], true⟩, ⟨[1], true⟩, ⟨[2], true⟩, ⟨[3], false⟩,
          ⟨[0], false⟩, ⟨[1], false⟩, ⟨[2], false⟩, ⟨[3], false⟩]⟩)
      | .error _ _ => false) = true := by
    decide +kernel
  split at hrun
  · rename_i outcome s hok
    exact ⟨s, by rw [hok, of_decide_eq_true hrun]⟩
  · cases hrun

/-- A round goes on as long as there are new products: the first one makes four offers, though it
starts with a single match.  The second one replaces nothing, and so nothing is left to replace. -/
theorem growRule_offers :
    Reachable (runCommands .nchw [.addOperator "x" .mul] : Graph Float) ∧
    (∀ m, ByCommands (growProducts m)) ∧ Cautious growProducts ∧
    ∃ outcome s rounds, growRule.runWithin (fun _ _ => 6) 10
        ⟨runCommands .nchw [.addOperator "x" .mul], []⟩ = .ok outcome s ∧
      outcome.replacements = 3 ∧ outcome.offers.length = 8 ∧
      Applied productDescription growProducts .untilStable 10
        (runCommands .nchw [.addOperator "x" .mul]) rounds s.graph ∧
      ∀ m, m.Fits productDescription s.graph → ∀ notes,
        (growProducts m).ending ⟨s.graph, notes⟩ = (.ok false, s.graph) := by
  have hbody : growRule.body = .replacing (Pattern.build productDescription) growProducts := rfl
  obtain ⟨s, hok⟩ := growRule_run
  obtain ⟨rounds, happlied, -, hcount⟩ :=
    run_offers ⟨_, _, rfl⟩ (fun _ _ => 6) hbody growProducts_byCommands hok
  have hfew : rounds.length < 10 := by
    have hlength := length_le_replacements rounds happlied.earlier
    rw [← hcount] at hlength
    exact Nat.lt_of_le_of_lt hlength (by decide)
  obtain ⟨last, hlast, hnone⟩ := happlied.stopped rfl hfew
  exact ⟨⟨_, _, rfl⟩, growProducts_byCommands, growProducts_cautious, _, s, rounds, hok, rfl, rfl,
    happlied, happlied.stable last hlast hnone growProducts_cautious⟩

end TensorGraph
