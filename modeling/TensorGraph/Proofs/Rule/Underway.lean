/-
  How far a round can get.

  A round makes offers, one after the other, each of them a match that was not offered before, and
  after every offer the graph is another one: an offer may make new matches.  `Underway` lists the
  offers that a round has made so far.  It leaves open which of the matches is offered next, so what
  is shown here does not depend on the order of the search.

  If all matches that can come up have their nodes from fixed lists, role by role, then there are at
  most as many offers as ways to choose one node from each list, the `List.sections` of them.  With
  one step more than that, a round ends by itself: because nothing is left to offer, or because an
  offer fails (`EndsWithin`).  The steps that a round may take then have no part in what it does,
  and the same holds of rounds and of the whole application of a rule
  (`Rule.RoundsEnd.runWithin_eq`).
-/
import TensorGraph.Proofs.Graph.Errors
import TensorGraph.Proofs.Pattern.Match
import Mathlib.Data.List.Sections

namespace TensorGraph

open Edit TensorGraph.Graph

variable {α β γ : Type}

/-- A round that began at `g` has made offers of the nodes `made`, the latest first, and has come to
`g'`. -/
inductive Underway (p : Pattern) (replace : Match → Edit α Bool) (g : Graph α) :
    List (List NodeId) → Graph α → Prop
  | start : Underway p replace g [] g
  | offer {made : List (List NodeId)} {s s' : Session α} {m : Match} {replaced : Bool}
      (h : Underway p replace g made s.graph) (hm : m ∈ p.allMatches s.graph)
      (hnew : m.nodes ∉ made) (hreplace : replace m s = .ok replaced s') :
      Underway p replace g (m.nodes :: made) s'.graph

/-- The nodes of an offer are taken from the given lists, role by role, and no such choice is
offered twice.  The last offer may be one that fails, or one at which the round is at work. -/
def OffersWithin (p : Pattern) (replace : Match → Edit α Bool) (g : Graph α)
    (roles : List (List NodeId)) : Prop :=
  ∀ made g' m, Underway p replace g made g' → m ∈ p.allMatches g' → m.nodes ∉ made →
    (m.nodes :: made).Nodup ∧ ∀ nodes ∈ m.nodes :: made, nodes ∈ roles.sections

/-- A round makes at most one offer for each choice, and does not use up its steps if there are more
of them. -/
structure EndsWithin (p : Pattern) (replace : Match → Edit α Bool) (g : Graph α)
    (roles : List (List NodeId)) : Prop where
  offers : OffersWithin p replace g roles
  finished : ∀ name notes steps offers s, roles.sections.length < steps →
    Rule.offerSteps name p replace steps [] ⟨g, notes⟩ = .ok offers s →
    Underway p replace g (offers.map (·.nodes)).reverse s.graph ∧
      ∀ m ∈ p.allMatches s.graph, m.nodes ∈ offers.map (·.nodes)
  failed : ∀ name notes steps error s', roles.sections.length < steps →
    Rule.offerSteps name p replace steps [] ⟨g, notes⟩ = .error error s' →
    ∃ made s m, Underway p replace g made s.graph ∧ m ∈ p.allMatches s.graph ∧ m.nodes ∉ made ∧
      replace m s = .error error s'

/-- Complete rounds lead from `g` to the graph. -/
inductive RoundsFrom (p : Pattern) (replace : Match → Edit α Bool) (g : Graph α) : Graph α → Prop
  | start : RoundsFrom p replace g g
  | round {made : List (List NodeId)} {g₁ g₂ : Graph α} (h : RoundsFrom p replace g g₁)
      (hround : Underway p replace g₁ made g₂) (hall : ∀ m ∈ p.allMatches g₂, m.nodes ∈ made) :
      RoundsFrom p replace g g₂

/-- Every round of the rule ends, when it is applied to `g`.  The nodes that it can be offered
depend on the graph at the start of the round. -/
def Rule.RoundsEnd (rule : Rule α) (g : Graph α) (roles : Graph α → List (List NodeId)) : Prop :=
  ∃ p replace, rule.body = .replacing (.ok p) replace ∧
    ∀ g₁, RoundsFrom p replace g g₁ → EndsWithin p replace g₁ (roles g₁)

/-! ## Choices -/

/-- There are no more choices than a power of the longest list. -/
theorem length_sections_le {lists : List (List β)} {n : Nat} (h : ∀ l ∈ lists, l.length ≤ n) :
    lists.sections.length ≤ Nat.pow n lists.length := by
  induction lists with
  | nil => exact Nat.le_refl 1
  | cons l lists ih =>
    obtain ⟨hl, hlists⟩ := List.forall_mem_cons.mp h
    have hlength : (l :: lists).sections.length = lists.sections.length * l.length := by
      rw [List.sections, List.length_flatMap]
      simp
    rw [hlength]
    exact Nat.mul_le_mul (ih hlists) hl

/-- The choices of live nodes are at most a power of their number. -/
theorem length_sections_ids_le (g : Graph α) (n : Nat) :
    (List.replicate n g.ids).sections.length ≤ Nat.pow g.nodes.length n := by
  have hids : ∀ ids ∈ List.replicate n g.ids, ids.length ≤ g.nodes.length := by
    intro ids h
    rw [List.eq_of_mem_replicate h, Graph.ids, List.length_map]
  have hle := length_sections_le hids
  rwa [List.length_replicate] at hle

/-- Longer lists have more choices. -/
theorem sections_subset {lists lists' : List (List β)} (h : List.Forall₂ (· ⊆ ·) lists lists') :
    lists.sections ⊆ lists'.sections := by
  intro choice hchoice
  rw [List.mem_sections] at hchoice ⊢
  induction h generalizing choice with
  | nil => exact hchoice
  | cons hsub _ ih =>
    cases hchoice with
    | cons hmem hrest => exact .cons (hsub hmem) (ih hrest)

namespace Pattern

variable {p : Pattern} {g : Graph α}

/-- The list has all nodes that the role can take. -/
def Lists (g : Graph α) (role : Role) (ids : List NodeId) : Prop :=
  ∀ id n, g.node? id = some n → role.predicate.holds n = true → id ∈ ids

/-- The nodes of a match are a choice from the lists of its roles. -/
theorem mem_sections_of_extensions {order found : List NodeId} {roles : List Role}
    {lists : List (List NodeId)} (hlists : List.Forall₂ (Lists g) roles lists) (bound : List NodeId)
    (h : found ∈ p.extensions g order roles bound) : ∃ rest ∈ lists.sections, found = bound ++ rest := by
  induction hlists generalizing bound with
  | nil =>
    rw [extensions, List.mem_singleton] at h
    exact ⟨[], by simp, by rw [h, List.append_nil]⟩
  | cons hrole _ ih =>
    rw [extensions, List.mem_flatMap] at h
    obtain ⟨id, hid, h⟩ := h
    obtain ⟨rest, hrest, rfl⟩ := ih _ h
    refine ⟨id :: rest, ?_, by simp⟩
    rw [List.mem_sections] at hrest ⊢
    refine .cons ?_ hrest
    have haccepts := (List.mem_filter.mp hid).2
    simp only [accepts, Bool.and_eq_true] at haccepts
    obtain ⟨⟨-, hholds⟩, -⟩ := haccepts
    cases hn : g.node? id with
    | none =>
      rw [hn] at hholds
      cases hholds
    | some n =>
      rw [hn] at hholds
      exact hrole id n hn hholds

/-- A match takes its nodes from lists of the nodes that its roles can take. -/
theorem mem_sections_of_allMatches {lists : List (List NodeId)}
    (hlists : List.Forall₂ (Lists g) p.roles lists) {m : Match} (hm : m ∈ p.allMatches g) :
    m.nodes ∈ lists.sections := by
  obtain ⟨found, hfound, rfl⟩ := List.mem_map.mp hm
  have hlength := length_of_mem_extensions p.roles [] hfound
  obtain ⟨rest, hrest, rfl⟩ := mem_sections_of_extensions hlists [] hfound
  rw [List.length_nil, Nat.zero_add] at hlength
  rwa [toMatch_nodes hlength]

/-- Every role takes a node of the graph. -/
theorem lists_ids (g : Graph α) (roles : List Role) :
    List.Forall₂ (Lists g) roles (List.replicate roles.length g.ids) := by
  induction roles with
  | nil => exact .nil
  | cons role roles ih => exact .cons (fun _ _ hn _ => mem_ids_of_node? hn) ih

end Pattern

/-! ## Offers so far -/

section Invariant

variable {p : Pattern} {replace : Match → Edit α Bool} {g g' : Graph α} {made : List (List NodeId)}

/-- No offer is made twice. -/
theorem Underway.nodup (h : Underway p replace g made g') : made.Nodup := by
  induction h with
  | start => exact List.nodup_nil
  | offer _ _ hnew _ ih => exact List.nodup_cons.mpr ⟨hnew, ih⟩

variable {J : Graph α → Prop} (hstart : J g)
  (hstep : ∀ made s m, Underway p replace g made s.graph → J s.graph → m ∈ p.allMatches s.graph →
    m.nodes ∉ made → Runs (replace m) s (fun _ => J) fun _ => True)
include hstart hstep

/-- What every offer keeps holds however far the round has got. -/
theorem Underway.keeps (h : Underway p replace g made g') : J g' := by
  induction h with
  | start => exact hstart
  | offer h hm hnew hreplace ih => exact (hstep _ _ _ h ih hm hnew).of_ok hreplace

/-- All offers were matches when they were made. -/
theorem Underway.offered {C : List NodeId → Prop}
    (hmatch : ∀ g' m, J g' → m ∈ p.allMatches g' → C m.nodes) (h : Underway p replace g made g') :
    ∀ nodes ∈ made, C nodes := by
  induction h with
  | start => simp
  | offer h hm _ _ ih =>
    exact List.forall_mem_cons.mpr ⟨hmatch _ _ (h.keeps hstart hstep) hm, ih⟩

end Invariant

section WellFormed

variable {p : Pattern} {replace : Match → Edit α Bool} {g g' : Graph α} {made : List (List NodeId)}
  {F : Error → Prop} (hthrows : ∀ m, ThrowsOnly F (replace m)) (hg : g.WellFormed)
include hthrows hg

/-- A round leads from a well-formed graph to well-formed ones. -/
theorem Underway.wellFormed (h : Underway p replace g made g') : g'.WellFormed :=
  h.keeps hg fun _ s m _ hs _ _ => (hthrows m s hs).1

theorem RoundsFrom.wellFormed (h : RoundsFrom p replace g g') : g'.WellFormed := by
  induction h with
  | start => exact hg
  | round _ hround _ ih => exact hround.wellFormed hthrows ih

end WellFormed

/-! ## Rounds that use up no steps -/

namespace Edit

/-- Edits that end alike, followed by edits that do the same with what they end with, end alike. -/
theorem bind_congr {e e' : Edit α β} {k k' : β → Edit α γ} {s : Session α} (he : e s = e' s)
    (hk : ∀ b s', e s = .ok b s' → k b s' = k' b s') : (e >>= k) s = (e' >>= k') s := by
  show EStateM.bind e k s = EStateM.bind e' k' s
  unfold EStateM.bind
  rw [← he]
  cases hs : e s with
  | ok b s' => exact hk b s' hs
  | error error s' => rfl

end Edit

section Steps

variable {p : Pattern} {replace : Match → Edit α Bool} {g : Graph α} {count : Nat}
  (hcount : ∀ made g', Underway p replace g made g' → made.length ≤ count)

/-- What is offered next is a match that was not offered before. -/
theorem Underway.of_firstMatch? {made : List (List NodeId)} {s : Session α} {m : Match}
    (hm : p.firstMatch? s.graph made.contains = some m) :
    m ∈ p.allMatches s.graph ∧ m.nodes ∉ made := by
  refine ⟨Pattern.firstMatch?_mem hm, ?_⟩
  rw [← List.contains_iff_mem, Pattern.firstMatch?_not_skipped hm]
  exact Bool.false_ne_true

include hcount

/-- Two rounds that both have more steps left than there can be offers do the same. -/
theorem offerSteps_congr {name : String} {steps steps' : Nat} {made : List (List NodeId)}
    {s : Session α} (h : Underway p replace g made s.graph) (hsteps : count < made.length + steps)
    (hsteps' : count < made.length + steps') :
    Rule.offerSteps name p replace steps made s = Rule.offerSteps name p replace steps' made s := by
  have hmade := hcount made _ h
  induction steps generalizing steps' made s with
  -- without a step there would have been more offers than there can be
  | zero => omega
  | succ steps ih =>
    cases steps' with
    | zero => omega
    | succ steps' =>
      refine bind_congr rfl fun g₁ s₁ hgraph => ?_
      cases hgraph
      cases hm : p.firstMatch? s.graph made.contains with
      | none => rfl
      | some m =>
        obtain ⟨hmem, hnew⟩ := Underway.of_firstMatch? hm
        refine bind_congr rfl fun replaced s₁ hreplace => ?_
        have hnext := h.offer hmem hnew hreplace
        -- the log has no part in what comes next
        have hrest : ∀ notes, Rule.offerSteps name p replace steps (m.nodes :: made)
            ⟨s₁.graph, notes⟩ = Rule.offerSteps name p replace steps' (m.nodes :: made)
            ⟨s₁.graph, notes⟩ := fun notes =>
          ih (s := ⟨s₁.graph, notes⟩) hnext (by simp; omega) (by simp; omega) (hcount _ _ hnext)
        split
        · refine bind_congr rfl fun _ s₂ hlog => ?_
          cases hlog
          exact bind_congr (hrest _) fun _ _ _ => rfl
        · exact bind_congr (hrest s₁.log) fun _ _ _ => rfl

/-- With steps to spare a round fails only where an offer does, with the error of the offer. -/
theorem offerSteps_error {name : String} {steps : Nat} {made : List (List NodeId)}
    {s s' : Session α} {error : Error} (h : Underway p replace g made s.graph)
    (hsteps : count < made.length + steps)
    (herror : Rule.offerSteps name p replace steps made s = .error error s') :
    ∃ made s m, Underway p replace g made s.graph ∧ m ∈ p.allMatches s.graph ∧ m.nodes ∉ made ∧
      replace m s = .error error s' := by
  have hmade := hcount made _ h
  induction steps generalizing made s with
  | zero => omega
  | succ steps ih =>
    rcases bind_eq_error herror with hgraph | ⟨g₁, s₁, hgraph, herror⟩ <;> cases hgraph
    cases hm : p.firstMatch? s.graph made.contains with
    | none =>
      rw [hm] at herror
      cases herror
    | some m =>
      rw [hm] at herror
      obtain ⟨hmem, hnew⟩ := Underway.of_firstMatch? hm
      rcases bind_eq_error herror with hreplace | ⟨replaced, s₁, hreplace, herror⟩
      · exact ⟨made, s, m, h, hmem, hnew, hreplace⟩
      · have hnext := h.offer hmem hnew hreplace
        -- the rest of the round fails, whether or not a replacement is logged
        have hrest : ∃ notes, Rule.offerSteps name p replace steps (m.nodes :: made)
            ⟨s₁.graph, notes⟩ = .error error s' := by
          split at herror
          · rcases bind_eq_error herror with hlog | ⟨_, s₂, hlog, herror⟩ <;> cases hlog
            rcases bind_eq_error herror with hrest | ⟨_, _, -, hpure⟩
            · exact ⟨_, hrest⟩
            · cases hpure
          · rcases bind_eq_error herror with hrest | ⟨_, _, -, hpure⟩
            · exact ⟨s₁.log, hrest⟩
            · cases hpure
        obtain ⟨notes, hrest⟩ := hrest
        exact ih (s := ⟨s₁.graph, notes⟩) hnext (by simp; omega) hrest (hcount _ _ hnext)

end Steps

section Ends

variable {p : Pattern} {replace : Match → Edit α Bool} {g : Graph α}

/-- A round that comes to an end has offered all matches of the graph that it leaves. -/
theorem runs_offerSteps_underway {name : String} {notes : List LogEntry} (steps : Nat) :
    Runs (Rule.offerSteps name p replace steps []) ⟨g, notes⟩
      (fun offers g' => Underway p replace g (offers.map (·.nodes)).reverse g' ∧
        ∀ m ∈ p.allMatches g', m.nodes ∈ offers.map (·.nodes)) fun _ => True := by
  have hstart : Underway p replace g (([] : List Offer).map (·.nodes)) g := .start
  refine (Rule.runs_offerSteps_counted (E := fun _ => True)
    (fun _ offers g' => Underway p replace g (offers.map (·.nodes)) g') (fun _ _ _ => trivial) ?_ steps
    (s := ⟨g, notes⟩) hstart).imp (fun offers g' h => ?_) fun _ h => h
  · intro steps offers s m h hm hnew
    rw [Runs]
    split
    · rename_i hreplace
      exact h.offer hm hnew hreplace
    · trivial
  · obtain ⟨⟨-, hunderway⟩, hnone⟩ := h
    rw [List.append_nil, List.map_reverse] at hunderway hnone
    refine ⟨hunderway, fun m hm => ?_⟩
    have hskip := Pattern.skip_of_mem_allMatches hnone hm
    exact List.mem_reverse.mp (List.contains_iff_mem.mp hskip)

variable {roles : List (List NodeId)}

/-- There are no more offers than choices. -/
theorem OffersWithin.length_le (ho : OffersWithin p replace g roles) {made : List (List NodeId)}
    {g' : Graph α} (h : Underway p replace g made g') : made.length ≤ roles.sections.length := by
  cases h with
  | start => exact Nat.zero_le _
  | offer h hm hnew _ =>
    obtain ⟨hnodup, hmem⟩ := ho _ _ _ h hm hnew
    exact (List.subperm_of_subset hnodup hmem).length_le

/-- A round with more steps than choices ends by itself. -/
theorem OffersWithin.endsWithin (ho : OffersWithin p replace g roles) :
    EndsWithin p replace g roles where
  offers := ho
  finished := fun _ _ steps _ _ _ hok => (runs_offerSteps_underway steps).of_ok hok
  failed := by
    intro name notes steps error s' hsteps herror
    refine offerSteps_error (fun _ _ h => ho.length_le h) (s := ⟨g, notes⟩) .start ?_ herror
    simpa using hsteps

/-- An invariant that keeps all matches within the given lists keeps the offers there. -/
theorem offersWithin {J : Graph α → Prop} (hstart : J g)
    (hstep : ∀ made s m, Underway p replace g made s.graph → J s.graph →
      m ∈ p.allMatches s.graph → m.nodes ∉ made → Runs (replace m) s (fun _ => J) fun _ => True)
    (hmatch : ∀ g' m, J g' → m ∈ p.allMatches g' → m.nodes ∈ roles.sections) :
    OffersWithin p replace g roles := by
  intro made g' m h hm hnew
  refine ⟨List.nodup_cons.mpr ⟨hnew, h.nodup⟩, List.forall_mem_cons.mpr ⟨?_, ?_⟩⟩
  · exact hmatch g' m (h.keeps hstart hstep) hm
  · exact h.offered hstart hstep hmatch

/-- A round of a rule that adds no node makes at most one offer for each way to bind the roles to
nodes that are there at its start. -/
theorem endsWithin_ids (hkeep : ∀ made s m replaced s', Underway p replace g made s.graph →
      m ∈ p.allMatches s.graph → m.nodes ∉ made → replace m s = .ok replaced s' →
      s'.graph.ids ⊆ s.graph.ids) :
    EndsWithin p replace g (List.replicate p.roles.length g.ids) := by
  refine (offersWithin (J := fun g' => g'.ids ⊆ g.ids) (List.Subset.refl _)
    (fun made s m h hsub hm hnew => ?_) fun g' m hsub hm => ?_).endsWithin
  · rw [Runs]
    split
    · rename_i hok
      exact List.Subset.trans (hkeep made s m _ _ h hm hnew hok) hsub
    · trivial
  · have hreplicate : List.Forall₂ (· ⊆ ·) (List.replicate p.roles.length g'.ids)
        (List.replicate p.roles.length g.ids) := by
      generalize p.roles.length = n
      induction n with
      | zero => exact .nil
      | succ n ih => exact .cons hsub ih
    exact sections_subset hreplicate
      (Pattern.mem_sections_of_allMatches (Pattern.lists_ids g' p.roles) hm)

/-- An invariant of the offers that lets the choices become fewer bounds every round by those at its
start. -/
theorem Rule.roundsEnd_of_narrowing {rule : Rule α} (hbody : rule.body = .replacing (.ok p) replace)
    {I : Graph α → Prop} {roles : Graph α → List (List NodeId)} (hstart : I g)
    (hstep : ∀ s m, I s.graph → m ∈ p.allMatches s.graph → Runs (replace m) s
      (fun _ g' => I g' ∧ (roles g').sections ⊆ (roles s.graph).sections) fun _ => True)
    (hmatch : ∀ g' m, I g' → m ∈ p.allMatches g' → m.nodes ∈ (roles g').sections) :
    rule.RoundsEnd g roles := by
  have hfrom : ∀ g₁, RoundsFrom p replace g g₁ → I g₁ := by
    intro g₁ h
    induction h with
    | start => exact hstart
    | round _ hround _ ih =>
      exact hround.keeps ih fun _ s m _ hs hm _ => (hstep s m hs hm).imp (fun _ _ h => h.1) fun _ h => h
  refine ⟨p, replace, hbody, fun g₁ h => OffersWithin.endsWithin ?_⟩
  -- every offer is compared with the start of its round, not with the offer before
  refine offersWithin (J := fun g' => I g' ∧ (roles g').sections ⊆ (roles g₁).sections)
    ⟨hfrom g₁ h, List.Subset.refl _⟩ (fun _ s m _ hs hm _ => ?_) fun g' m hs hm => hs.2 (hmatch g' m hs.1 hm)
  exact (hstep s m hs.1 hm).imp (fun _ _ h => ⟨h.1, List.Subset.trans h.2 hs.2⟩) fun _ h => h

end Ends

/-! ## The limit on the steps has no part in a run -/

section Runs

variable {p : Pattern} {replace : Match → Edit α Bool} {g : Graph α} {name : String}
  {roles : Graph α → List (List NodeId)}
  (hends : ∀ g₁, RoundsFrom p replace g g₁ → EndsWithin p replace g₁ (roles g₁))
  {limit limit' : Pattern → Graph α → Nat}
  (hlimit : ∀ g₁, (roles g₁).sections.length < limit p g₁)
include hends hlimit

/-- A round that succeeds is one more round. -/
theorem RoundsFrom.of_offerRound {s s' : Session α} {offers : List Offer}
    (h : RoundsFrom p replace g s.graph)
    (hok : Rule.offerRound limit name p replace s = .ok offers s') :
    RoundsFrom p replace g s'.graph := by
  obtain ⟨hround, hall⟩ := (hends _ h).finished name s.log _ offers s' (hlimit s.graph) hok
  exact h.round hround fun m hm => List.mem_reverse.mpr (hall m hm)

section Congr

variable (hlimit' : ∀ g₁, (roles g₁).sections.length < limit' p g₁)
include hlimit'

/-- With enough steps, their number has no part in a round. -/
theorem offerRound_congr {s : Session α} (h : RoundsFrom p replace g s.graph) :
    Rule.offerRound limit name p replace s = Rule.offerRound limit' name p replace s :=
  offerSteps_congr (fun _ _ hround => (hends _ h).offers.length_le hround) .start
    (by simpa using hlimit s.graph) (by simpa using hlimit' s.graph)

/-- With enough steps, their number has no part in the rounds of a rule. -/
theorem offerRounds_congr {left done : Nat} {s : Session α} (h : RoundsFrom p replace g s.graph) :
    Rule.offerRounds limit name p replace left done s =
      Rule.offerRounds limit' name p replace left done s := by
  induction left generalizing done s with
  | zero => rfl
  | succ left ih =>
    refine bind_congr (offerRound_congr hends hlimit hlimit' h) fun offers s' hok => ?_
    split
    · exact bind_congr (ih (h.of_offerRound hends hlimit hok)) fun _ _ _ => rfl
    · rfl

end Congr

section Errors

variable {F : Error → Prop} (hthrows : ∀ m, ThrowsOnly F (replace m)) (hg : g.WellFormed)
include hthrows hg

/-- A round fails with the error of an offer only. -/
theorem offerRound_error {s s' : Session α} {error : Error} (h : RoundsFrom p replace g s.graph)
    (herror : Rule.offerRound limit name p replace s = .error error s') : F error := by
  obtain ⟨_, s, m, hround, -, -, hreplace⟩ :=
    (hends _ h).failed name s.log _ error s' (hlimit s.graph) herror
  exact (hthrows m s (hround.wellFormed hthrows (h.wellFormed hthrows hg))).2 error s' hreplace

/-- Rounds fail with the error of an offer only. -/
theorem offerRounds_error {left done : Nat} {s s' : Session α} {error : Error}
    (h : RoundsFrom p replace g s.graph)
    (herror : Rule.offerRounds limit name p replace left done s = .error error s') : F error := by
  induction left generalizing done s with
  | zero => cases herror
  | succ left ih =>
    rcases bind_eq_error herror with hround | ⟨offers, s₁, hok, herror⟩
    · exact offerRound_error hends hlimit hthrows hg h hround
    · split at herror
      · rcases bind_eq_error herror with hrest | ⟨_, _, -, hpure⟩
        · exact ih (h.of_offerRound hends hlimit hok) hrest
        · cases hpure
      · cases herror

end Errors

end Runs

namespace Rule.RoundsEnd

variable {rule : Rule α} {g : Graph α} {roles : Graph α → List (List NodeId)}
  (h : rule.RoundsEnd g roles) {limit : Pattern → Graph α → Nat}
  (hlimit : ∀ p replace, rule.body = .replacing (.ok p) replace →
    ∀ g₁, (roles g₁).sections.length < limit p g₁)
include h hlimit

/-- The result of a run does not depend on how many steps its rounds may take, if there are enough.
-/
theorem runWithin_eq {limit' : Pattern → Graph α → Nat}
    (hlimit' : ∀ p g₁, limit p g₁ ≤ limit' p g₁) (maxIterations : Nat) (notes : List LogEntry) :
    rule.runWithin limit' maxIterations ⟨g, notes⟩ = rule.runWithin limit maxIterations ⟨g, notes⟩ := by
  obtain ⟨p, replace, hbody, hends⟩ := h
  have hlow := hlimit p replace hbody
  have hhigh : ∀ g₁, (roles g₁).sections.length < limit' p g₁ := fun g₁ =>
    Nat.lt_of_lt_of_le (hlow g₁) (hlimit' p g₁)
  rw [runWithin, runWithin, hbody]
  refine bind_congr rfl fun p' s hp => ?_
  cases hp
  cases rule.repeats with
  | once => exact bind_congr (offerRound_congr hends hhigh hlow .start) fun _ _ _ => rfl
  | untilStable => exact bind_congr (offerRounds_congr hends hhigh hlow .start) fun _ _ _ => rfl

/-- A run fails with the error of an offer only. -/
theorem runWithin_error {F : Error → Prop} (hthrows : ∀ m, ThrowsOnly F (rule.offer m))
    (hg : g.WellFormed)
    {maxIterations : Nat} {notes : List LogEntry} {error : Error} {s : Session α}
    (herror : rule.runWithin limit maxIterations ⟨g, notes⟩ = .error error s) : F error := by
  obtain ⟨p, replace, hbody, hends⟩ := h
  have hreplace : ∀ m, ThrowsOnly F (replace m) := fun m => by
    have hoffer := hthrows m
    rwa [offer, hbody] at hoffer
  rw [runWithin, hbody] at herror
  rcases bind_eq_error herror with hp | ⟨p', s₁, hp, herror⟩ <;> cases hp
  cases hrepeats : rule.repeats with
  | once =>
    rw [hrepeats] at herror
    rcases bind_eq_error herror with hround | ⟨_, _, -, hpure⟩
    · exact offerRound_error hends (hlimit p replace hbody) hreplace hg (s := ⟨g, notes⟩) .start hround
    · cases hpure
  | untilStable =>
    rw [hrepeats] at herror
    rcases bind_eq_error herror with hrounds | ⟨_, _, -, hpure⟩
    · exact offerRounds_error hends (hlimit p replace hbody) hreplace hg (s := ⟨g, notes⟩) .start hrounds
    · cases hpure

end Rule.RoundsEnd

end TensorGraph
