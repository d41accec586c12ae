/-
  Edits that stay within their tables.

  An edit that connects nodes or takes them apart writes to the tables that list the edges at each
  node.  An index that a table does not have is an error of its own, of which no check before the
  write tells: it depends on the tables having entries for all nodes that there are.  Along every
  run they do, and `wiring_stays_in_range` says that no such edit fails for an index.

  The errors of these edits are refusals (`Refusal`), with one exception.  Linking ports through a
  new data node numbers the node from one, after the output port, and there is no number after the
  last one of a machine word:

    * `link_error`: a link fails with a refusal or because of the number;
    * `link_of_overflow`: wherever the new node has no number, the link does fail;
    * `last_port_overflows`: there are graphs for which this is so.
-/
import TensorGraph.Proofs.Graph.Errors
import TensorGraph.Proofs.Reachable

namespace TensorGraph

open Relation Edit TensorGraph.Graph

variable {α : Type} {g : Graph α}

/-- The ports can be linked, by a new data node, but its number would not be a machine word. -/
structure NumberOverflows (g : Graph α) (source : OutputPort) (port : InputPort) : Prop where
  source_op : g.kind? source.node = some .op
  port_op : g.kind? port.node = some .op
  port_free : g.edgeInto? port = none
  source_free : g.result? source = none
  no_path_back : ¬ ReflTransGen g.Joins port.node source.node
  too_large : wordLimit ≤ source.index + 1

section Link

variable (hg : g.WellFormed) {source : OutputPort} {port : InputPort} {notes : List LogEntry}
include hg

/-- Linking fails with a refusal, or because the new node has no number. -/
theorem link_error {error : Error} {s : Session α}
    (herror : Edit.link source port ⟨g, notes⟩ = .error error s) :
    Refusal error ∨ (error = .overflow .add ∧ NumberOverflows g source port) := by
  rcases bind_eq_error herror with hkind | ⟨_, _, hkind, herror⟩
  · exact .inl (g.refuses_requireKind source.node .op error (query_eq_error.mp hkind).1)
  obtain ⟨hsource, rfl⟩ := query_eq_ok.mp hkind
  rcases bind_eq_error herror with hkind | ⟨_, _, hkind, herror⟩
  · exact .inl (g.refuses_requireKind port.node .op error (query_eq_error.mp hkind).1)
  obtain ⟨hport, rfl⟩ := query_eq_ok.mp hkind
  rcases bind_eq_error herror with hgraph | ⟨_, _, hgraph, herror⟩ <;> cases hgraph
  dsimp only at herror
  split at herror
  · cases herror
    exact .inl (.portInUse _ _)
  rename_i hfree
  replace hfree := Option.not_isSome_iff_eq_none.mp hfree
  replace hsource := requireKind_eq_ok.mp hsource
  replace hport := requireKind_eq_ok.mp hport
  cases hresult : g.result? source with
  | some data =>
    rw [hresult] at herror
    rcases bind_eq_error herror with hfeed | ⟨_, _, -, hpure⟩
    · exact .inl ((refuses_feed data port ⟨g, notes⟩ hg).2 error s hfeed)
    · cases hpure
  | none =>
    rw [hresult] at herror
    dsimp only at herror
    split at herror
    · cases herror
      exact .inl (.cycle _ _)
    rename_i hback
    rw [hg.same_or_hasPath_iff Eq.symm] at hback
    rcases bind_eq_error herror with hnode | ⟨_, _, hnode, herror⟩
    · exact .inl (g.refuses_node source.node error (attempt_eq_error.mp hnode).1)
    obtain ⟨-, rfl⟩ := attempt_eq_ok.mp hnode
    -- of all checks only the number of the new node fails otherwise than by a refusal
    rcases bind_eq_error herror with hnumber | ⟨_, _, hnumber, herror⟩
    · by_cases hlimit : source.index + 1 < wordLimit
      · rw [checkedAdd, if_pos hlimit] at hnumber
        cases hnumber
      · rw [checkedAdd, if_neg hlimit] at hnumber
        cases hnumber
        exact .inr ⟨rfl, hsource, hport, hfree, hresult, hback, Nat.not_lt.mp hlimit⟩
    -- with all checks passed, the entries at the ends of both edges are there
    · obtain ⟨-, rfl⟩ := attempt_eq_ok.mp hnumber
      exact ((runs_insertLink (Q := fun _ _ => True) (E := fun _ => False) hg hsource hport
        (Option.map_eq_none_iff.mp hresult) hfree hback fun _ => trivial).of_error herror).elim

theorem link_of_overflow (h : NumberOverflows g source port) :
    Edit.link source port ⟨g, notes⟩ = .error (.overflow .add) ⟨g, notes⟩ := by
  obtain ⟨n, hn, -⟩ := Option.map_eq_some_iff.mp h.source_op
  have hback : (decide (source.node = port.node) || g.hasPath port.node source.node) = false :=
    Bool.eq_false_iff.mpr (mt (hg.same_or_hasPath_iff Eq.symm).mp h.no_path_back)
  have hnumber : checkedAdd source.index 1 = .error (.overflow .add) :=
    if_neg (Nat.not_lt.mpr h.too_large)
  refine (bind_of_ok (query_eq_ok.mpr ⟨requireKind_eq_ok.mpr h.source_op, rfl⟩)).trans ?_
  refine (bind_of_ok (query_eq_ok.mpr ⟨requireKind_eq_ok.mpr h.port_op, rfl⟩)).trans ?_
  have hgraph : Edit.graph (⟨g, notes⟩ : Session α) = .ok g ⟨g, notes⟩ := rfl
  refine (bind_of_ok hgraph).trans ?_
  rw [h.port_free, h.source_free, hback, hnumber, node, hn]
  rfl

theorem perform_link_of_overflow [Scalar α] (h : NumberOverflows g source port) :
    (Command.link source port).perform ⟨g, notes⟩ = .error (.overflow .add) ⟨g, notes⟩ := by
  show EStateM.bind (Edit.link source port) _ ⟨g, notes⟩ = _
  rw [EStateM.bind, link_of_overflow hg h]

end Link

/-- All other commands fail with a refusal. -/
theorem refuses_perform [Scalar α] {command : Command α} (hwiring : command.isWiring = true)
    (hlink : ∀ source port, command ≠ .link source port) :
    ThrowsOnly Refusal command.perform := by
  cases command with
  | addEdge => exact (refuses_addEdge _ _ _ _).bind fun _ => throwsOnly_pure _
  | removeEdge => exact (refuses_removeEdge _).bind fun _ => throwsOnly_pure _
  | removeNode => exact (refuses_removeNode _).bind fun _ => throwsOnly_pure _
  | link source port => exact absurd rfl (hlink source port)
  | feed => exact refuses_feed _ _
  | produce => exact refuses_produce _ _
  | unplug => exact (refuses_unplug _).bind fun _ => throwsOnly_pure _
  | release => exact (refuses_release _).bind fun _ => throwsOnly_pure _
  | moveInput => exact refuses_moveInput _ _
  | moveReaders => exact refuses_moveReaders _ _
  | _ => cases hwiring

/-- Two operators that can be linked. -/
def strangerCommands : List (Command Float) :=
  [.addOperator "a" .mul, .addOperator "b" .mul]

theorem strangerCommands_overflows :
    NumberOverflows (runCommands .nchw strangerCommands) ⟨0, wordLimit - 1⟩ ⟨1, 0⟩ where
  source_op := by decide +kernel
  port_op := by decide +kernel
  port_free := by decide +kernel
  source_free := by decide +kernel
  no_path_back :=
    ((runCommands_wellFormed _ _).hasPath_eq_false_iff _ _).mp (by decide +kernel)
  too_large := by decide

end TensorGraph
