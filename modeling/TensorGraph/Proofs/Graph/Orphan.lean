/-
  Which edits take the producer from a tensor that is read.

  Removing an edge or a node is refused if a data node that is read and has no value would lose its
  producer, and almost all other edits of the wiring leave the wire into such a node alone
  (`runs_wiring`).  The exception is moving an input: it moves whatever wire ends at the given port,
  and nothing asks whether the port is one of an operator.  At a data node it moves the producer
  away.  By `producer_lost_iff_moved` this is the only way to orphan a tensor, and
  `spareCommands_orphan` shows that it can be done.

  `Edit.moveInput` is the edit in question.  On a port of an operator it does what its name says,
  and there it is exact (`succeeds_moveInput_iff`).
-/
import TensorGraph.Proofs.Reachable

namespace TensorGraph

open Edit TensorGraph.Graph

variable {α : Type} {g : Graph α} {notes : List LogEntry}

/-- The wire into a data node that is read and has no value outlasts every command but one that
moves it. -/
theorem runs_wiring [Scalar α] (hg : g.WellFormed) {command : Command α}
    (hwiring : command.isWiring = true) {w : Wire} (hw : g.Wired w) (hneeded : g.Needed w.dst)
    (hstays : ∀ old new, command = .moveInput old new → old ≠ new → w.dst ≠ old.node) :
    Runs command.perform ⟨g, notes⟩ (fun _ g' => g'.Wired w) fun _ => True := by
  obtain ⟨c, hc, -⟩ := hneeded.2
  have hdata : g.kind? w.dst = some .data := kind?_eq_data.mpr ⟨c, hc⟩
  have hsrc : g.kind? w.src = some .op := (hg.wired_to_data hw hdata).1
  have hinsert : ∀ v, (g.insertEdge v).Wired w := fun v => wired_insertEdge.mpr (.inl hw)
  cases command with
  | addEdge src srcPort dst dstPort =>
    exact runs_bind (runs_addEdge hg (fun _ _ _ _ => runs_pure (hinsert _)) fun _ => trivial)
  | removeEdge id =>
    refine runs_bind (runs_removeEdge hg (fun e he hfree _ => runs_pure ?_) fun _ => trivial)
    obtain ⟨hmem, rfl⟩ := hg.edge?_eq_some_iff.mp he
    refine (hg.wired_eraseEdge hmem).mpr ⟨hw, ?_⟩
    rintro rfl
    exact hfree hsrc hneeded
  | removeNode id =>
    refine runs_bind (runs_removeNode hg (fun _ _ hremovable _ => runs_pure ?_) fun _ => trivial)
    refine hg.wired_eraseNode.mpr ⟨hw, ?_, ?_⟩
    · -- an operator with a needed result stays
      rintro rfl
      exact hremovable.2 hsrc w hw rfl hneeded
    · -- and so does data that is read
      rintro rfl
      obtain ⟨v, hv, hread⟩ := hneeded.1
      exact hremovable.1 hdata v hv hread
  | link source port =>
    refine runs_bind (runs_link hg (fun _ _ _ _ _ _ => runs_pure (hinsert _)) ?_ fun _ => trivial)
    intro name _ _ _ _ _ _
    exact runs_pure (wired_insertEdge.mpr (.inl (wired_insertEdge.mpr (.inl hw))))
  | feed data port => exact runs_feed hg (fun _ _ => hinsert _) fun _ => trivial
  | produce port data => exact runs_produce hg (fun _ _ => hinsert _) fun _ => trivial
  | unplug port =>
    refine runs_bind (runs_unplug hg (fun e hop he _ => runs_pure ?_)
      (fun _ _ _ => runs_pure hw) fun _ => trivial)
    obtain ⟨hmem, hdst, -⟩ := hg.edgeInto?_spec he
    refine (hg.wired_eraseEdge hmem).mpr ⟨hw, ?_⟩
    rintro rfl
    exact op_ne_data hop hdata hdst.symm
  | release port =>
    refine runs_bind (runs_release hg (fun e _ he hfree _ => runs_pure ?_)
      (fun _ _ _ => runs_pure hw) fun _ => trivial)
    refine (hg.wired_eraseEdge (hg.edgeOutOf?_spec he).1).mpr ⟨hw, ?_⟩
    rintro rfl
    exact hfree hneeded
  | moveInput old new =>
    refine runs_moveInput hg (fun e _ he hne _ _ => ?_) (fun _ _ => hw) fun _ => trivial
    obtain ⟨hmem, hdst, -⟩ := hg.edgeInto?_spec he
    refine wired_insertEdge.mpr (.inl ((hg.wired_eraseEdge hmem).mpr ⟨hw, ?_⟩))
    rintro rfl
    exact hstays old new rfl hne hdst
  | moveReaders old new =>
    refine runs_moveReaders hg (fun hold hnew _ hclear => ?_) (fun _ _ => hw) fun _ => trivial
    have hops := hg.readers_op hold
    refine ((WellFormed.refeedAll _ hg hnew hops hclear).2 w).mpr (.inl ⟨hw, fun hread => ?_⟩)
    exact op_ne_data (hops _ hread) hdata rfl
  | _ => cases hwiring

/-- Moving what ends at a data node takes its producer away: the node that it moves to had none. -/
theorem runs_moveInput_of_data (hg : g.WellFormed) {old new : InputPort}
    (hdata : g.kind? old.node = some .data) (hne : old ≠ new) :
    Runs (moveInput old new) ⟨g, notes⟩ (fun _ g' => g'.producer? old.node = none)
      fun _ => True := by
  refine runs_moveInput hg (fun e k he _ hk hadmits => ?_) (fun _ h => absurd h hne) fun _ => trivial
  obtain ⟨hmem, hdst, -⟩ := hg.edgeInto?_spec he
  have hwire : g.Wired e.toWire := ⟨e, hmem, rfl⟩
  rw [← hdst] at hdata ⊢
  obtain ⟨hop, hport⟩ := hg.wired_to_data hwire hdata
  obtain rfl : k = .op := Option.some.inj (hk.symm.trans hop)
  have hg' : ((g.eraseEdge e.id).insertEdge
      (wireBetween .op e.src 0 new.node new.index)).WellFormed :=
    (hg.eraseEdge e.id).insertEdge (hadmits.mono (kind?_eraseEdge g e.id) fun v hv =>
      ((hg.wired_eraseEdge hmem).mp hv).1)
  rw [hg'.producer?_eq_none_iff]
  intro v hv
  rcases wired_insertEdge.mp hv with hv | rfl
  · obtain ⟨hold, hother⟩ := (hg.wired_eraseEdge hmem).mp hv
    intro hsame
    exact hother (hg.eq_of_producer hold hwire (hsame ▸ hdata) hsame)
  · intro hsame
    exact hadmits.input_free _ hwire ⟨hsame.symm, hport⟩

/-- A successful edit of the wiring takes the producer from a data node that is read and has no
value exactly if it moves what ends at the data node itself. -/
theorem producer_lost_iff_moved [Scalar α] (hg : Reachable g) {command : Command α}
    (hwiring : command.isWiring = true) {s : Session α}
    (hok : command.perform ⟨g, notes⟩ = .ok () s) {d : NodeId} (hneeded : g.Needed d)
    (hmade : g.producer? d ≠ none) :
    s.graph.producer? d = none ↔
      ∃ old new, command = .moveInput old new ∧ old.node = d ∧ old ≠ new := by
  obtain ⟨w, hw, rfl⟩ : ∃ w, g.Wired w ∧ w.dst = d := by
    simpa [hg.wellFormed.producer?_eq_none_iff] using hmade
  constructor
  · intro hlost
    by_contra hstays
    have hkept := (runs_wiring hg.wellFormed hwiring hw hneeded fun old new hmoves hne hdst =>
      hstays ⟨old, new, hmoves, hdst.symm, hne⟩).of_ok hok
    have hg' : s.graph.WellFormed :=
      (Command.keeps_perform keptByEdits_wellFormed command _ hg.wellFormed).of_ok hok
    exact hg'.producer?_eq_none_iff.mp hlost w hkept rfl
  · rintro ⟨old, new, rfl, hdst, hne⟩
    obtain ⟨c, hc, -⟩ := hneeded.2
    rw [← hdst] at hc ⊢
    exact (runs_moveInput_of_data hg.wellFormed (kind?_eq_data.mpr ⟨c, hc⟩) hne).of_ok hok

/-- An output reads the second result of an input; beside it there is a data node that nothing makes
or reads. -/
def spareCommands : List (Command Float) :=
  [.addOperator "x" .parameter, .addOperator "out" .output, .addData "spare" ⟨none, none, none⟩,
    .link ⟨0, 1⟩ ⟨1, 0⟩]

theorem spareCommands_needed : (runCommands .nchw spareCommands).Needed 3 := by
  have hread : (⟨1, 0⟩ : InputPort) ∈ (runCommands .nchw spareCommands).readers 3 := by
    decide +kernel
  have hvalue : ((runCommands .nchw spareCommands).content? 3).map (·.value.isNone) = some true := by
    decide +kernel
  obtain ⟨i, hw⟩ := (runCommands_wellFormed _ _).mem_readers.mp hread
  obtain ⟨c, hc, hnone⟩ := Option.map_eq_some_iff.mp hvalue
  exact ⟨⟨_, hw, rfl⟩, c, hc, Option.isNone_iff_eq_none.mp hnone⟩

theorem spareCommands_move :
    ∃ s, (Command.moveInput ⟨3, 0⟩ ⟨2, 0⟩).perform ⟨runCommands .nchw spareCommands, []⟩ = .ok () s ∧
      s.graph.producer? 2 = some ⟨0, 0⟩ ∧ s.graph.readers 3 = [⟨1, 0⟩] := by
  have hmoved : (match (Command.moveInput ⟨3, 0⟩ ⟨2, 0⟩).perform
        ⟨runCommands .nchw spareCommands, []⟩ with
      | .ok _ s => decide (s.graph.producer? 2 = some ⟨0, 0⟩ ∧ s.graph.readers 3 = [⟨1, 0⟩])
      | .error _ _ => false) = true := by
    decide +kernel
  split at hmoved
  · rename_i s hok
    exact ⟨s, hok, of_decide_eq_true hmoved⟩
  · cases hmoved

/-- Moving what ends at the tensor in between gives its producer to the idle data node, at another
output port; the output goes on reading a tensor that nothing makes. -/
theorem spareCommands_orphan :
    ∃ s, (Command.moveInput ⟨3, 0⟩ ⟨2, 0⟩).perform ⟨runCommands .nchw spareCommands, []⟩ = .ok () s ∧
      (runCommands .nchw spareCommands).producer? 3 = some ⟨0, 1⟩ ∧
      (runCommands .nchw spareCommands).Needed 3 ∧
      s.graph.producer? 3 = none ∧ s.graph.readers 3 = [⟨1, 0⟩] ∧
      s.graph.producer? 2 = some ⟨0, 0⟩ := by
  obtain ⟨s, hok, hspare, hread⟩ := spareCommands_move
  have hdata : (runCommands .nchw spareCommands).kind? 3 = some .data := by decide +kernel
  have hne : (⟨3, 0⟩ : InputPort) ≠ ⟨2, 0⟩ := by decide
  have hlost := (runs_moveInput_of_data (runCommands_wellFormed _ _) hdata hne).of_ok hok
  exact ⟨s, hok, by decide +kernel, spareCommands_needed, hlost, hread, hspare⟩

theorem spareCommands_lost :
    Reachable (runCommands .nchw spareCommands) ∧ (runCommands .nchw spareCommands).Needed 3 ∧
    (runCommands .nchw spareCommands).producer? 3 ≠ none ∧
    ∃ s, (Command.moveInput ⟨3, 0⟩ ⟨2, 0⟩).perform ⟨runCommands .nchw spareCommands, []⟩ = .ok () s ∧
      s.graph.producer? 3 = none := by
  have hmade : (runCommands .nchw spareCommands).producer? 3 ≠ none := by decide +kernel
  obtain ⟨s, hok, -⟩ := spareCommands_move
  have hlost := producer_lost_iff_moved ⟨_, _, rfl⟩ rfl hok spareCommands_needed hmade
  exact ⟨⟨_, _, rfl⟩, spareCommands_needed, hmade, s, hok,
    hlost.mpr ⟨⟨3, 0⟩, ⟨2, 0⟩, rfl, rfl, by decide⟩⟩

end TensorGraph
