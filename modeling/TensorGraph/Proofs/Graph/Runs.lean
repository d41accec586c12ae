/-
  How edits end.

  `Runs e s Q E` says where the edit `e`, started in the session `s`, ends: with a result and a
  graph for which `Q` holds, or, if it fails, with a graph for which `E` holds.  Three choices of
  `E` are used throughout:

    * `E := P`, for an invariant `P` that holds however the edit ends;
    * `E := (· = s.graph)`, for an edit that changes nothing if it fails;
    * `E := fun _ => False`, for an edit that does not fail.

  The log is left out: no edit reads it.
-/
import TensorGraph.Graph.Edit

namespace TensorGraph

namespace Edit

variable {α β γ : Type}

/-- The edit ends where `Q` holds if it succeeds, and where `E` holds if it fails. -/
def Runs (e : Edit α β) (s : Session α) (Q : β → Graph α → Prop) (E : Graph α → Prop) : Prop :=
  match e s with
  | .ok result s' => Q result s'.graph
  | .error _ s' => E s'.graph

/-- Started where `P` holds, the edit ends where `P` holds if it succeeds, and where `E` holds if it
fails. -/
def Keeps (P E : Graph α → Prop) (e : Edit α β) : Prop :=
  ∀ s, P s.graph → Runs e s (fun _ => P) E

/-- The graph that an edit leaves, however it ends. -/
def graphAfter (e : Edit α β) (s : Session α) : Graph α :=
  match e s with
  | .ok _ s' => s'.graph
  | .error _ s' => s'.graph

variable {e : Edit α β} {k : β → Edit α γ} {s s' : Session α} {Q Q' : β → Graph α → Prop}
  {R : γ → Graph α → Prop} {P E E' : Graph α → Prop}

/-- A result ends where it should. -/
theorem Runs.of_ok (h : Runs e s Q E) {result : β} (hok : e s = .ok result s') :
    Q result s'.graph := by
  rwa [Runs, hok] at h

/-- A failure ends where it should. -/
theorem Runs.of_error (h : Runs e s Q E) {error : Error} (herror : e s = .error error s') :
    E s'.graph := by
  rwa [Runs, herror] at h

/-- An edit that does not fail has a result.  What it is can be decided where the graph is given. -/
theorem exists_ok (e : Edit α β) (s : Session α) (Q : β → Graph α → Prop)
    (h : Runs e s Q fun _ => False) : ∃ result s', e s = .ok result s' ∧ Q result s'.graph := by
  rw [Runs] at h
  split at h
  · exact ⟨_, _, ‹_›, h⟩
  · exact h.elim

instance [∀ result g, Decidable (Q result g)] [DecidablePred E] : Decidable (Runs e s Q E) :=
  match h : e s with
  | .ok result s' => decidable_of_iff (Q result s'.graph) (by rw [Runs, h])
  | .error _ s' => decidable_of_iff (E s'.graph) (by rw [Runs, h])

/-- What follows from the ends of an edit holds there as well. -/
theorem Runs.imp (h : Runs e s Q E) (hQ : ∀ result g, Q result g → Q' result g)
    (hE : ∀ g, E g → E' g) : Runs e s Q' E' := by
  rw [Runs] at h ⊢
  split
  · rename_i hok
    rw [hok] at h
    exact hQ _ _ h
  · rename_i herror
    rw [herror] at h
    exact hE _ h

/-- What is known of every success may be added to what is known of all endings. -/
theorem Runs.and_of_ok (h : Runs e s Q E) (h' : Runs e s Q' fun _ => True) :
    Runs e s (fun result g => Q result g ∧ Q' result g) E := by
  rw [Runs] at h h' ⊢
  split
  · rename_i hok
    rw [hok] at h h'
    exact ⟨h, h'⟩
  · rename_i herror
    rw [herror] at h
    exact h

/-- Two statements about the ends of an edit hold together. -/
theorem Runs.and (h : Runs e s Q E) (h' : Runs e s Q' E) :
    Runs e s (fun result g => Q result g ∧ Q' result g) E :=
  h.and_of_ok (h'.imp (fun _ _ => id) fun _ _ => trivial)

/-- What holds at both ends holds of the graph that is left. -/
theorem Runs.graphAfter (h : Runs e s (fun _ => P) P) : P (graphAfter e s) := by
  rw [Edit.graphAfter]
  rw [Runs] at h
  split
  · rename_i hok
    rwa [hok] at h
  · rename_i herror
    rwa [herror] at h

/-! ## Control flow -/

variable {g : Graph α} {notes : List LogEntry}

theorem runs_pure {result : β} (h : Q result g) : Runs (pure result) ⟨g, notes⟩ Q E :=
  h

theorem runs_throw {error : Error} (h : E g) : Runs (throw error) ⟨g, notes⟩ Q E :=
  h

/-- The second part of an edit runs from where the first has come to. -/
theorem runs_bind (h : Runs e s (fun result g => ∀ log, Runs (k result) ⟨g, log⟩ R E) E) :
    Runs (e >>= k) s R E := by
  rw [Runs] at h
  show match EStateM.bind e k s with
    | .ok result s' => R result s'.graph
    | .error _ s' => E s'.graph
  rw [EStateM.bind]
  split at h
  · rename_i hok
    rw [hok]
    exact h _
  · rename_i herror
    rw [herror]
    exact h

/-- Reading the graph changes nothing. -/
theorem runs_graph {Q : Graph α → Graph α → Prop} (h : Q g g) : Runs graph ⟨g, notes⟩ Q E :=
  h

/-- A change succeeds. -/
theorem runs_change {Q : Unit → Graph α → Prop} {f : Graph α → Graph α} (h : Q () (f g)) :
    Runs (change f) ⟨g, notes⟩ Q E :=
  h

theorem runs_log {Q : Unit → Graph α → Prop} {level : LogLevel} {text : String}
    (h : Q () g) : Runs (log level text) ⟨g, notes⟩ Q E :=
  h

/-- The outcome of a check is passed on. -/
theorem runs_attempt {outcome : Except Error β} (hok : ∀ value, outcome = .ok value → Q value g)
    (herror : ∀ error, outcome = .error error → E g) : Runs (attempt outcome) ⟨g, notes⟩ Q E := by
  cases outcome with
  | ok value => exact hok value rfl
  | error error => exact herror error rfl

/-- A check changes nothing. -/
theorem runs_query {check : Graph α → Except Error β}
    (hok : ∀ value, check g = .ok value → Q value g)
    (herror : ∀ error, check g = .error error → E g) : Runs (query check) ⟨g, notes⟩ Q E :=
  runs_bind (runs_graph fun _ => runs_attempt hok herror)

/-- A loop over a list, with an invariant that knows what is still to come. -/
theorem runs_forM {f : β → Edit α PUnit} (I : List β → Graph α → Prop)
    (hstep : ∀ x rest (s : Session α), I (x :: rest) s.graph → Runs (f x) s (fun _ => I rest) E) :
    ∀ (list : List β) (s : Session α), I list s.graph → Runs (list.forM f) s (fun _ => I []) E := by
  intro list
  induction list with
  | nil => intro s h; exact runs_pure h
  | cons x rest ih =>
    intro s h
    show Runs (f x >>= fun _ => rest.forM f) s _ E
    exact runs_bind ((hstep x rest s h).imp (fun _ g hg log => ih ⟨g, log⟩ hg) fun _ hE => hE)

/-! ## Invariants -/

/-- What both parts of an edit keep, the edit keeps. -/
theorem Keeps.bind (he : Keeps P E e) (hk : ∀ result, Keeps P E (k result)) :
    Keeps P E (e >>= k) := by
  intro s hs
  refine runs_bind ((he s hs).imp (fun result g hg log => ?_) fun _ hE => hE)
  exact hk result ⟨g, log⟩ hg

theorem keeps_pure (result : β) : Keeps P E (pure result : Edit α β) :=
  fun _ hs => runs_pure hs

/-- A failure leaves the graph as it is. -/
theorem keeps_throw (hPE : ∀ g, P g → E g) (error : Error) : Keeps P E (throw error : Edit α β) :=
  fun s hs => runs_throw (hPE s.graph hs)

/-- A check in front of the rest of an edit. -/
theorem keeps_guard (hPE : ∀ g, P g → E g) {c : Prop} [Decidable c] {error : Error}
    {rest : PUnit → Edit α γ} (hrest : Keeps P E (rest ⟨⟩)) :
    Keeps P E (if c then throw error >>= rest else rest ⟨⟩) := by
  split
  · exact (keeps_throw hPE error).bind fun _ => hrest
  · exact hrest

theorem keeps_graph : Keeps P E (graph : Edit α (Graph α)) :=
  fun _ hs => runs_graph hs

/-- An edit keeps what its change keeps. -/
theorem keeps_change {f : Graph α → Graph α} (hf : ∀ g, P g → P (f g)) : Keeps P E (change f) :=
  fun s hs => runs_change (hf s.graph hs)

/-- A check keeps everything. -/
theorem keeps_attempt (hPE : ∀ g, P g → E g) (outcome : Except Error β) :
    Keeps P E (attempt outcome) :=
  fun s hs => runs_attempt (fun _ _ => hs) fun _ _ => hPE s.graph hs

theorem keeps_log (level : LogLevel) (text : String) : Keeps P E (log level text : Edit α Unit) :=
  fun _ hs => runs_log hs

theorem keeps_query (hPE : ∀ g, P g → E g) (check : Graph α → Except Error β) :
    Keeps P E (query check) :=
  fun s hs => runs_query (fun _ _ => hs) fun _ _ => hPE s.graph hs

/-- What every turn of a loop keeps, the loop keeps. -/
theorem keeps_forM {f : β → Edit α PUnit} {list : List β} (hf : ∀ x ∈ list, Keeps P E (f x)) :
    Keeps P E (list.forM f) := by
  induction list with
  | nil => exact keeps_pure _
  | cons x rest ih =>
    show Keeps P E (f x >>= fun _ => rest.forM f)
    exact (hf x List.mem_cons_self).bind fun _ => ih fun y hy => hf y (List.mem_cons_of_mem _ hy)

theorem keeps_mapM {f : β → Edit α γ} {list : List β} (hf : ∀ x ∈ list, Keeps P E (f x)) :
    Keeps P E (list.mapM f) := by
  induction list with
  | nil => exact keeps_pure _
  | cons x rest ih =>
    rw [List.mapM_cons]
    refine (hf x List.mem_cons_self).bind fun _ => ?_
    exact (ih fun y hy => hf y (List.mem_cons_of_mem _ hy)).bind fun _ => keeps_pure _

/-! ## Results

What the result of a composed edit says about its parts. -/

section Results

variable {e : Edit α β} {k : β → Edit α γ} {s s' : Session α}

/-- A computation fails in one of its two parts. -/
theorem bind_eq_error {error : Error}
    (h : (e >>= k) s = .error error s') :
    e s = .error error s' ∨ ∃ result s₁, e s = .ok result s₁ ∧ k result s₁ = .error error s' := by
  change EStateM.bind e k s = _ at h
  rw [EStateM.bind] at h
  split at h
  · rename_i result s₁ hok
    exact .inr ⟨result, s₁, hok, h⟩
  · rename_i herror
    cases h
    exact .inl herror

/-- A computation succeeds if both of its parts do. -/
theorem bind_eq_ok {result : γ} :
    (e >>= k) s = .ok result s' ↔ ∃ b s₁, e s = .ok b s₁ ∧ k b s₁ = .ok result s' := by
  change EStateM.bind e k s = _ ↔ _
  rw [EStateM.bind]
  cases e s with
  | ok b s₁ =>
    constructor
    · intro h
      exact ⟨b, s₁, rfl, h⟩
    · rintro ⟨_, _, ⟨⟩, h⟩
      exact h
  | error error s₁ =>
    constructor
    · rintro ⟨⟩
    · rintro ⟨_, _, ⟨⟩, _⟩

/-- After an edit that succeeds comes the rest. -/
theorem bind_of_ok {result : β} (h : e s = .ok result s') : (e >>= k) s = k result s' := by
  show EStateM.bind e k s = _
  rw [EStateM.bind, h]

/-- A check that passes passes its value on. -/
theorem attempt_eq_ok {outcome : Except Error β} {b : β} :
    attempt outcome s = .ok b s' ↔ outcome = .ok b ∧ s' = s := by
  cases outcome with
  | ok value =>
    constructor
    · rintro ⟨⟩
      exact ⟨rfl, rfl⟩
    · rintro ⟨⟨⟩, rfl⟩
      rfl
  | error error =>
    constructor
    · rintro ⟨⟩
    · rintro ⟨⟨⟩, -⟩

/-- A check that fails passes its error on. -/
theorem attempt_eq_error {outcome : Except Error β} {error : Error} :
    attempt outcome s = .error error s' ↔ outcome = .error error ∧ s' = s := by
  cases outcome with
  | ok value =>
    constructor
    · rintro ⟨⟩
    · rintro ⟨⟨⟩, -⟩
  | error cause =>
    constructor
    · rintro ⟨⟩
      exact ⟨rfl, rfl⟩
    · rintro ⟨⟨⟩, rfl⟩
      rfl

/-- A check of the graph that passes leaves the session as it is. -/
theorem query_eq_ok {check : Graph α → Except Error β} {b : β} :
    query check s = .ok b s' ↔ check s.graph = .ok b ∧ s' = s :=
  attempt_eq_ok

/-- A check of the graph that fails leaves the session as it is. -/
theorem query_eq_error {check : Graph α → Except Error β} {error : Error} :
    query check s = .error error s' ↔ check s.graph = .error error ∧ s' = s :=
  attempt_eq_error

/-- A loop fails at one of its entries. -/
theorem forM_eq_error {f : β → Edit α PUnit} {list : List β} {error : Error}
    (h : list.forM f s = .error error s') : ∃ x ∈ list, ∃ s₁, f x s₁ = .error error s' := by
  induction list generalizing s with
  | nil => cases h
  | cons x rest ih =>
    rcases bind_eq_error (e := f x) (k := fun _ => rest.forM f) h with hx | ⟨_, s₁, _, hrest⟩
    · exact ⟨x, List.mem_cons_self, s, hx⟩
    · obtain ⟨y, hy, hfailed⟩ := ih hrest
      exact ⟨y, List.mem_cons_of_mem _ hy, hfailed⟩

end Results

/-! ## Endings -/

/-- How an edit ends, the log apart. -/
def ending (e : Edit α β) (s : Session α) : Except Error β × Graph α :=
  match e s with
  | .ok result s' => (.ok result, s'.graph)
  | .error error s' => (.error error, s'.graph)

/-- An edit ends as it ends. -/
theorem runs_ending {e : Edit α β} {s : Session α} :
    Runs e s (fun result g => e.ending s = (.ok result, g)) fun _ => True := by
  unfold Runs ending
  cases e s with
  | ok result s' => rfl
  | error error s' => trivial

/-- An edit that cannot fail, with one result and one graph, ends with them. -/
theorem ending_of_runs {e : Edit α β} {s : Session α} {result : β} {g : Graph α}
    (h : Runs e s (fun r g' => r = result ∧ g' = g) fun _ => False) :
    e.ending s = (.ok result, g) := by
  unfold Runs at h
  unfold ending
  cases hs : e s with
  | ok result' s' =>
    rw [hs] at h
    obtain ⟨rfl, rfl⟩ := h
    rfl
  | error error s' =>
    rw [hs] at h
    exact h.elim

theorem ending_of_ok {result : β} (h : e s = .ok result s') :
    e.ending s = (.ok result, s'.graph) := by
  rw [ending, h]

/-- The log can be added to an ending. -/
theorem exists_of_ending {result : β} (h : e.ending s = (.ok result, g)) :
    ∃ s', e s = .ok result s' ∧ s'.graph = g := by
  unfold ending at h
  split at h <;> cases h
  exact ⟨_, ‹_›, rfl⟩

/-- A check ends with its outcome and the graph as it was. -/
theorem ending_query (check : Graph α → Except Error β) (s : Session α) :
    (query check).ending s = (check s.graph, s.graph) := by
  show ending (attempt (check s.graph)) s = _
  cases check s.graph <;> rfl

/-- An edit ends as its second part does, from the ending of the first. -/
theorem ending_bind {b : β} {r : Except Error γ × Graph α} (h : e.ending s = (.ok b, g))
    (hk : ∀ notes, (k b).ending ⟨g, notes⟩ = r) : (e >>= k).ending s = r := by
  unfold ending at h
  show ending (EStateM.bind e k) s = r
  unfold ending EStateM.bind
  split at h
  · rename_i b' s' hs
    cases h
    rw [hs]
    exact hk s'.log
  · cases h

/-- Where the first part fails the edit ends. -/
theorem ending_bind_error {error : Error} (h : e.ending s = (.error error, g)) :
    (e >>= k).ending s = (.error error, g) := by
  unfold ending at h
  show ending (EStateM.bind e k) s = _
  unfold ending EStateM.bind
  split at h
  · cases h
  · rename_i error' s' hs
    cases h
    rw [hs]

/-- The graph that an edit leads to, or the error it fails with. -/
def outcome (e : Edit α β) (s : Session α) : Except Error (Graph α) :=
  match e s with
  | .ok _ s' => .ok s'.graph
  | .error error _ => .error error

theorem outcome_eq_of_ending {error : Error} (h : e.ending s = (.error error, g)) :
    e.outcome s = .error error := by
  unfold ending at h
  unfold outcome
  cases hs : e s with
  | ok result s' =>
    rw [hs] at h
    cases h
  | error error' s' =>
    rw [hs] at h
    cases h
    rfl

/-- The outcome is that of the second part. -/
theorem outcome_bind {b : β} {r : Except Error (Graph α)} (h : e.ending s = (.ok b, g))
    (hk : ∀ notes, (k b).outcome ⟨g, notes⟩ = r) : (e >>= k).outcome s = r := by
  unfold ending at h
  show outcome (EStateM.bind e k) s = r
  unfold outcome EStateM.bind
  split at h
  · rename_i b' s' hs
    cases h
    rw [hs]
    exact hk s'.log
  · cases h

/-- A result that is computed at the end has no part in the outcome. -/
theorem outcome_bind_pure (f : β → γ) : (e >>= fun b => pure (f b)).outcome s = e.outcome s := by
  show outcome (EStateM.bind e fun b => pure (f b)) s = _
  unfold outcome EStateM.bind
  cases e s <;> rfl

end Edit

end TensorGraph
