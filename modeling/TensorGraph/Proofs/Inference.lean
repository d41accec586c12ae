/-
  Graphs that shape inference leaves alone.

  Inference looks at an operator through its operation, the shapes it reads and the shape that is
  stored at its result.  `Settled` says on these data, without running anything, that inference goes
  through and finds the stored shape.  Inference over a whole graph changes nothing exactly if every
  operator is settled (`inferAll_eq_ok_zero_iff`).

    1. `Gives` is what an operation computes from the shapes at its operands, for every way of
       inference (`run_eq_ok_iff`), and `Stores` is the part of its result that is kept.
    2. One operator is settled exactly if inference at it goes through and stores nothing new
       (`settled_iff_stored`, `inferNode_eq_ok_zero_iff`).
    3. Inference over the whole graph counts the shapes that it stores.  A count of zero means that
       every step stored nothing, so that each step saw the graph at the start.
-/
import TensorGraph.Inference
import TensorGraph.Proofs.Graph.View

namespace TensorGraph

variable {α : Type}

/-! ## What inference sees of a graph -/

namespace View

/-- The resolved shape of a data node: the stored one, or else that of the value. -/
def shape (v : View α) (d : NodeId) : Option Shape :=
  (v.content d).bind Content.knownShape

/-- The resolved shape of what an input port reads, if it reads anything. -/
def reading (v : View α) (p : InputPort) : Option (Option Shape) :=
  (v.input p).map v.shape

/-- The shape stored at what an output port makes, if it makes anything. -/
def writing (v : View α) (p : OutputPort) : Option (Option Shape) :=
  (v.output p).map fun d => (v.content d).bind Content.shape

variable {v : View α} {d : NodeId}

theorem reading_of_input {p : InputPort} (h : v.input p = some d) :
    v.reading p = some (v.shape d) := by
  rw [reading, h, Option.map_some]

theorem shape_of_content {c : Content α} (h : v.content d = some c) : v.shape d = c.knownShape := by
  rw [shape, h, Option.bind_some]

theorem writing_of_output {p : OutputPort} {c : Content α} (h : v.output p = some d)
    (hc : v.content d = some c) : v.writing p = some c.shape := by
  rw [writing, h, Option.map_some, hc, Option.bind_some]

/-- A stored shape is the resolved one. -/
theorem shape_of_stored {s : Shape} (h : (v.content d).bind Content.shape = some s) :
    v.shape d = some s := by
  obtain ⟨c, hc, hs⟩ := Option.bind_eq_some_iff.mp h
  rw [shape_of_content hc, Content.knownShape, hs]
  rfl

end View

/-- The operation of `op` gives its result the shape `s`, from the shapes at the input ports. -/
def Gives (op : NodeId) (operation : Operation) (reading : Nat → Option (Option Shape))
    (s : Shape) : Prop :=
  match operation with
  | .mul => ∃ l r, reading 0 = some (some l) ∧ reading 1 = some (some r) ∧ l.broadcast? r = some s
  | .quantize _ => reading 0 = some (some s)
  | .permute order => ∃ input p, reading 0 = some (some input) ∧
      Permutation.ofOrder? order = some p ∧ p.permute? input = some s
  | .tile axis tiles => ∃ input dim, reading 0 = some (some input) ∧ input[axis]? = some dim ∧
      dim * tiles < wordLimit ∧ s = input.set axis (dim * tiles)
  | .reshape dims => ∃ input, reading 0 = some (some input) ∧ resolveReshape op input dims = .ok s
  | _ => False

/-- The shape is the one that is stored, if there is a place for it. -/
def Stores (written : Option (Option Shape)) (s : Shape) : Prop :=
  ∀ stored ∈ written, stored = some s

theorem stores_some (s : Shape) : Stores (some (some s)) s :=
  fun _ h => (Option.some.inj h).symm

/-- Inference of an operator goes through and finds what is stored at its result: `reading` are the
shapes at its input ports and `written` is the one at its first output port. -/
def Settled (op : NodeId) (operation : Operation) (reading : Nat → Option (Option Shape))
    (written : Option (Option Shape)) : Prop :=
  match operation with
  | .parameter | .const => ∃ s, written = some (some s)
  | .output | .stridedSlice _ | .custom _ => True
  | .mul | .quantize _ | .permute _ | .tile _ _ | .reshape _ =>
      ∃ s, Gives op operation reading s ∧ Stores written s

namespace Graph

variable {g : Graph α} {op : NodeId} {operation : Operation} {inference : Option Inference}
  {way : Inference}

theorem axisOrder_eq_ok {order : List Nat} {p : Permutation} :
    axisOrder op order = .ok p ↔ Permutation.ofOrder? order = some p := by
  rw [axisOrder]
  split <;> simp_all

theorem checkedMul_eq_ok {a b n : Nat} :
    checkedMul a b = .ok n ↔ a * b < wordLimit ∧ n = a * b := by
  rw [checkedMul]
  split <;> simp_all [eq_comm]

theorem checkedAdd_eq_ok {a b n : Nat} :
    checkedAdd a b = .ok n ↔ a + b < wordLimit ∧ n = a + b := by
  rw [checkedAdd]
  split <;> simp_all [eq_comm]

/-- The shape of an operand is the one that is read at its port. -/
theorem operandShape_eq_ok (hop : g.kind? op = some .op) {i : Nat} {s : Shape} :
    g.operandShape op i = .ok s ↔ g.view.reading ⟨op, i⟩ = some (some s) := by
  rw [View.reading, view_input_of_op hop]
  constructor
  · intro h
    obtain ⟨d, hd, h⟩ := except_bind_eq_ok.mp h
    obtain ⟨c, hc, h⟩ := except_bind_eq_ok.mp h
    split at h
    · rename_i shape hshape
      cases h
      rw [operand_eq_ok.mp hd]
      exact congrArg some (Option.bind_eq_some_iff.mpr ⟨c, content_eq_ok.mp hc, hshape⟩)
    · cases h
  · intro h
    obtain ⟨d, hd, hshape⟩ := Option.map_eq_some_iff.mp h
    obtain ⟨c, hc, hknown⟩ := Option.bind_eq_some_iff.mp hshape
    refine except_bind_eq_ok.mpr ⟨d, operand_eq_ok.mpr hd, except_bind_eq_ok.mpr
      ⟨c, content_eq_ok.mpr hc, ?_⟩⟩
    rw [hknown]
    rfl

theorem storedShape_eq_ok (hop : g.kind? op = some .op) {what : String} {s : Shape} :
    g.storedShape op what = .ok s ↔
      ∃ d, g.view.output ⟨op, 0⟩ = some d ∧ g.view.shape d = some s := by
  rw [view_output_of_op hop, storedShape]
  constructor
  · intro h
    split at h
    case h_2 => cases h
    rename_i d hd
    obtain ⟨c, hc, h⟩ := except_bind_eq_ok.mp h
    split at h
    · rename_i shape hshape
      cases h
      exact ⟨d, hd, Option.bind_eq_some_iff.mpr ⟨c, content_eq_ok.mp hc, hshape⟩⟩
    · cases h
  · rintro ⟨d, hd, hshape⟩
    obtain ⟨c, hc, hknown⟩ := Option.bind_eq_some_iff.mp hshape
    rw [hd]
    refine except_bind_eq_ok.mpr ⟨c, content_eq_ok.mpr hc, ?_⟩
    rw [hknown]
    rfl

/-! ## One operator -/

/-- Inference goes through, and what it finds is stored. -/
def Stored (g : Graph α) (op : NodeId) (inferred : Except Error (List Shape)) : Prop :=
  ∃ shapes, inferred = .ok shapes ∧ ∀ i s, shapes[i]? = some s → Stores (g.view.writing ⟨op, i⟩) s

theorem stored_singleton {inferred : Except Error (List Shape)} {P : Shape → Prop}
    (h : ∀ shapes, inferred = .ok shapes ↔ ∃ s, shapes = [s] ∧ P s) :
    g.Stored op inferred ↔ ∃ s, P s ∧ Stores (g.view.writing ⟨op, 0⟩) s := by
  constructor
  · rintro ⟨_, hrun, hstores⟩
    obtain ⟨s, rfl, hs⟩ := (h _).mp hrun
    exact ⟨s, hs, hstores 0 s rfl⟩
  · rintro ⟨s, hs, hstores⟩
    refine ⟨[s], (h _).mpr ⟨s, rfl, hs⟩, fun i t ht => ?_⟩
    cases i with
    | zero =>
      cases ht
      exact hstores
    | succ i => cases ht

/-- A stored shape is inferred again where it is stored. -/
theorem stored_storedShape (hop : g.kind? op = some .op) {what : String} :
    g.Stored op (do return [← g.storedShape op what]) ↔
      ∃ s, g.view.writing ⟨op, 0⟩ = some (some s) := by
  have hrun : ∀ shapes, (do return [← g.storedShape op what] : Except Error _) = .ok shapes ↔
      ∃ s, shapes = [s] ∧ ∃ d, g.view.output ⟨op, 0⟩ = some d ∧ g.view.shape d = some s := by
    intro shapes
    rw [except_bind_eq_ok]
    simp only [storedShape_eq_ok hop]
    constructor
    · rintro ⟨s, hs, h⟩
      cases h
      exact ⟨s, rfl, hs⟩
    · rintro ⟨s, rfl, hs⟩
      exact ⟨s, hs, rfl⟩
  rw [stored_singleton hrun]
  constructor
  · rintro ⟨s, ⟨d, hd, hs⟩, hstores⟩
    rw [View.writing, hd] at hstores ⊢
    exact ⟨s, congrArg some (hstores _ rfl)⟩
  · rintro ⟨s, hs⟩
    obtain ⟨d, hd, hstored⟩ := Option.map_eq_some_iff.mp hs
    refine ⟨s, ⟨d, hd, View.shape_of_stored hstored⟩, fun stored hmem => ?_⟩
    rw [hs] at hmem
    exact (Option.some.inj hmem).symm

/-- The other ways of inference compute what the operation gives. -/
theorem run_eq_ok_iff (ho : g.operator? op = some ⟨operation, inference⟩)
    (h : Inference.ofOperation? operation = some way)
    (hway : way ∉ [.parameter, .const, .output]) (shapes : List Shape) :
    way.run g op = .ok shapes ↔
      ∃ s, shapes = [s] ∧ Gives op operation (fun i => g.view.reading ⟨op, i⟩) s := by
  have hop := kind?_eq_op.mpr ⟨_, ho⟩
  have hoperator := operator_eq_ok.mpr ho
  cases operation <;> cases h
  case parameter | const | output => simp at hway
  case mul =>
    constructor
    · intro h
      obtain ⟨l, hl, h⟩ := except_bind_eq_ok.mp h
      obtain ⟨r, hr, h⟩ := except_bind_eq_ok.mp h
      split at h
      · rename_i s hs
        cases h
        exact ⟨s, rfl, l, r, (operandShape_eq_ok hop).mp hl, (operandShape_eq_ok hop).mp hr, hs⟩
      · cases h
    · rintro ⟨s, rfl, l, r, hl, hr, hs⟩
      refine except_bind_eq_ok.mpr ⟨l, (operandShape_eq_ok hop).mpr hl, except_bind_eq_ok.mpr
        ⟨r, (operandShape_eq_ok hop).mpr hr, ?_⟩⟩
      rw [hs]
      rfl
  case quantize levels =>
    constructor
    · intro h
      obtain ⟨s, hs, h⟩ := except_bind_eq_ok.mp h
      cases h
      exact ⟨s, rfl, (operandShape_eq_ok hop).mp hs⟩
    · rintro ⟨s, rfl, hs⟩
      exact except_bind_eq_ok.mpr ⟨s, (operandShape_eq_ok hop).mpr hs, rfl⟩
  case permute order =>
    rw [Inference.run, hoperator, except_ok_bind]
    dsimp only
    constructor
    · intro h
      obtain ⟨input, hinput, h⟩ := except_bind_eq_ok.mp h
      obtain ⟨p, hp, h⟩ := except_bind_eq_ok.mp h
      split at h
      · rename_i s hs
        cases h
        exact ⟨s, rfl, input, p, (operandShape_eq_ok hop).mp hinput, axisOrder_eq_ok.mp hp, hs⟩
      · cases h
    · rintro ⟨s, rfl, input, p, hinput, hp, hs⟩
      refine except_bind_eq_ok.mpr ⟨input, (operandShape_eq_ok hop).mpr hinput,
        except_bind_eq_ok.mpr ⟨p, axisOrder_eq_ok.mpr hp, ?_⟩⟩
      rw [hs]
      rfl
  case tile axis tiles =>
    rw [Inference.run, hoperator, except_ok_bind]
    dsimp only
    constructor
    · intro h
      obtain ⟨input, hinput, h⟩ := except_bind_eq_ok.mp h
      split at h
      · rename_i dim hdim
        obtain ⟨product, hproduct, h⟩ := except_bind_eq_ok.mp h
        cases h
        obtain ⟨hlt, rfl⟩ := checkedMul_eq_ok.mp hproduct
        exact ⟨_, rfl, input, dim, (operandShape_eq_ok hop).mp hinput, hdim, hlt, rfl⟩
      · cases h
    · rintro ⟨s, rfl, input, dim, hinput, hdim, hlt, rfl⟩
      refine except_bind_eq_ok.mpr ⟨input, (operandShape_eq_ok hop).mpr hinput, ?_⟩
      rw [hdim]
      exact except_bind_eq_ok.mpr ⟨_, checkedMul_eq_ok.mpr ⟨hlt, rfl⟩, rfl⟩
  case reshape dims =>
    rw [Inference.run, hoperator, except_ok_bind]
    dsimp only
    constructor
    · intro h
      obtain ⟨input, hinput, h⟩ := except_bind_eq_ok.mp h
      obtain ⟨s, hs, h⟩ := except_bind_eq_ok.mp h
      cases h
      exact ⟨s, rfl, input, (operandShape_eq_ok hop).mp hinput, hs⟩
    · rintro ⟨s, rfl, input, hinput, hs⟩
      exact except_bind_eq_ok.mpr ⟨input, (operandShape_eq_ok hop).mpr hinput,
        except_bind_eq_ok.mpr ⟨s, hs, rfl⟩⟩

/-- An operator is settled exactly if its default inference succeeds with what is stored. -/
theorem settled_iff_stored (ho : g.operator? op = some ⟨operation, inference⟩)
    (h : Inference.ofOperation? operation = some way) :
    Settled op operation (fun i => g.view.reading ⟨op, i⟩) (g.view.writing ⟨op, 0⟩) ↔
      g.Stored op (way.run g op) := by
  have hop := kind?_eq_op.mpr ⟨_, ho⟩
  have hrun := run_eq_ok_iff ho h
  cases operation <;> cases h
  case parameter | const => exact (stored_storedShape hop).symm
  case output => exact ⟨fun _ => ⟨[], rfl, by simp⟩, fun _ => trivial⟩
  case mul | quantize | permute | tile | reshape =>
    exact (stored_singleton (hrun (by decide))).symm

end Graph

/-! ## The whole graph -/

namespace Edit

open TensorGraph.Graph

variable {β γ : Type} {s s' : Session α}

theorem graph_bind {k : Graph α → Edit α γ} : (graph >>= k) s = k s.graph s :=
  rfl

theorem query_bind {check : Graph α → Except Error β} {b : β} (h : check s.graph = .ok b)
    {k : β → Edit α γ} : (query check >>= k) s = k b s :=
  bind_of_ok (query_eq_ok.mpr ⟨h, rfl⟩)

/-- Nothing is counted and nothing changes if the shape is stored already. -/
theorem storeShape_eq_ok_zero_iff {port : OutputPort} (hop : s.graph.kind? port.node = some .op)
    {shape : Shape} :
    storeShape port shape s = .ok 0 s' ↔ s' = s ∧ Stores (s.graph.view.writing port) shape := by
  rw [storeShape, graph_bind, View.writing, view_output_of_op hop]
  cases s.graph.result? port with
  | none =>
    show EStateM.Result.ok 0 s = .ok 0 s' ↔ _
    simp [Stores, eq_comm]
  | some data =>
    rw [bind_eq_ok]
    constructor
    · rintro ⟨c, s₁, hc, h⟩
      obtain ⟨hc, rfl⟩ := query_eq_ok.mp hc
      split at h
      · rename_i hshape
        cases h
        refine ⟨rfl, fun stored hstored => ?_⟩
        rw [← Option.some.inj hstored]
        exact Option.bind_eq_some_iff.mpr ⟨c, content_eq_ok.mp hc, hshape⟩
      · -- what is changed is counted
        obtain ⟨_, _, -, h⟩ := bind_eq_ok.mp h
        obtain ⟨_, _, -, h⟩ := bind_eq_ok.mp h
        cases h
    · rintro ⟨rfl, hstores⟩
      obtain ⟨c, hc, hshape⟩ := Option.bind_eq_some_iff.mp (hstores _ rfl)
      refine ⟨c, s', query_eq_ok.mpr ⟨content_eq_ok.mpr hc, rfl⟩, ?_⟩
      rw [if_pos hshape]
      rfl

/-- Storing shapes counts nothing exactly if they are stored already. -/
theorem storeShapes_eq_ok_zero_iff {op : NodeId} (hop : s.graph.kind? op = some .op)
    {shapes : List Shape} {k : Nat} :
    storeShapes op k shapes s = .ok 0 s' ↔
      s' = s ∧ ∀ i t, shapes[i]? = some t → Stores (s.graph.view.writing ⟨op, k + i⟩) t := by
  induction shapes generalizing k s' with
  | nil =>
    show EStateM.Result.ok 0 s = .ok 0 s' ↔ _
    simp [eq_comm]
  | cons shape shapes ih =>
    rw [storeShapes, bind_eq_ok]
    constructor
    · rintro ⟨first, s₁, hfirst, h⟩
      obtain ⟨rest, s₂, hrest, h⟩ := bind_eq_ok.mp h
      injection h with hsum hs
      obtain ⟨rfl, rfl⟩ := Nat.add_eq_zero_iff.mp hsum
      obtain ⟨rfl, hstores⟩ := (storeShape_eq_ok_zero_iff hop).mp hfirst
      obtain ⟨rfl, hothers⟩ := ih.mp hrest
      refine ⟨hs.symm, fun i t ht => ?_⟩
      cases i with
      | zero =>
        obtain rfl : shape = t := Option.some.inj ht
        exact hstores
      | succ i =>
        rw [Nat.add_comm i, ← Nat.add_assoc]
        exact hothers i t ht
    · rintro ⟨rfl, hstores⟩
      refine ⟨0, s', (storeShape_eq_ok_zero_iff hop).mpr ⟨rfl, hstores 0 shape rfl⟩,
        bind_eq_ok.mpr ⟨0, s', ih.mpr ⟨rfl, fun i t ht => ?_⟩, rfl⟩⟩
      rw [Nat.add_assoc, Nat.add_comm 1]
      exact hstores (i + 1) t ht

/-- Inference of one operator changes nothing exactly if it is settled. -/
theorem inferNode_eq_ok_zero_iff {op : NodeId} {o : Operator} (ho : s.graph.operator? op = some o)
    (hdefault : o.inference = Inference.ofOperation? o.operation) :
    inferNode op s = .ok 0 s' ↔ s' = s ∧ Settled op o.operation
      (fun i => s.graph.view.reading ⟨op, i⟩) (s.graph.view.writing ⟨op, 0⟩) := by
  obtain ⟨operation, inference⟩ := o
  obtain ⟨n, hn, hoperator⟩ := Option.bind_eq_some_iff.mp ho
  have hop := kind?_eq_op.mpr ⟨_, ho⟩
  rw [inferNode, query_bind (node_eq_ok.mpr hn), hoperator, Option.bind_some]
  dsimp only at hdefault
  cases inference with
  | none =>
    have hsettled : Settled op operation (fun i => s.graph.view.reading ⟨op, i⟩)
        (s.graph.view.writing ⟨op, 0⟩) := by
      cases operation with
      | stridedSlice | custom => trivial
      | _ => cases hdefault
    show EStateM.Result.ok 0 s = .ok 0 s' ↔ _
    simp [hsettled, eq_comm]
  | some way =>
    rw [settled_iff_stored ho hdefault.symm, bind_eq_ok, Stored]
    constructor
    · rintro ⟨shapes, s₁, hrun, h⟩
      obtain ⟨hrun, rfl⟩ := query_eq_ok.mp hrun
      obtain ⟨rfl, hstores⟩ := (storeShapes_eq_ok_zero_iff hop).mp h
      exact ⟨rfl, shapes, hrun, by simpa using hstores⟩
    · rintro ⟨rfl, shapes, hrun, hstores⟩
      exact ⟨shapes, s', query_eq_ok.mpr ⟨hrun, rfl⟩,
        (storeShapes_eq_ok_zero_iff hop).mpr ⟨rfl, by simpa using hstores⟩⟩

theorem inferNode_of_data {id : NodeId} {c : Content α} (hc : s.graph.content? id = some c) :
    inferNode id s = .ok 0 s := by
  obtain ⟨⟨_, _, payload, _⟩, hn, hcontent⟩ := Option.bind_eq_some_iff.mp hc
  cases payload with
  | op o => cases hcontent
  | data c =>
    exact bind_eq_ok.mpr ⟨_, s, query_eq_ok.mpr ⟨node_eq_ok.mpr hn, rfl⟩, rfl⟩

/-- A pass counts nothing exactly if no step of it does. -/
theorem inferNodes_eq_ok_zero_iff {ids : List NodeId}
    (h : ∀ id ∈ ids, ∀ s', inferNode id s = .ok 0 s' → s' = s) :
    inferNodes ids s = .ok 0 s' ↔ s' = s ∧ ∀ id ∈ ids, inferNode id s = .ok 0 s := by
  induction ids generalizing s' with
  | nil =>
    show EStateM.Result.ok 0 s = .ok 0 s' ↔ _
    simp [eq_comm]
  | cons id ids ih =>
    obtain ⟨hid, hids⟩ := List.forall_mem_cons.mp h
    rw [inferNodes, bind_eq_ok, List.forall_mem_cons]
    constructor
    · rintro ⟨first, s₁, hfirst, hrun⟩
      obtain ⟨rest, s₂, hrest, hrun⟩ := bind_eq_ok.mp hrun
      injection hrun with hsum hs
      obtain ⟨rfl, rfl⟩ := Nat.add_eq_zero_iff.mp hsum
      obtain rfl := hid s₁ hfirst
      obtain ⟨rfl, hall⟩ := (ih hids).mp hrest
      exact ⟨hs.symm, hfirst, hall⟩
    · rintro ⟨rfl, hfirst, hall⟩
      exact ⟨0, s', hfirst, bind_eq_ok.mpr ⟨0, s', (ih hids).mpr ⟨rfl, hall⟩, rfl⟩⟩

/-- Inference changes nothing exactly if every operator is settled. -/
theorem inferAll_eq_ok_zero_iff (hg : s.graph.WellFormed)
    (hdefault : ∀ op o, s.graph.operator? op = some o →
      o.inference = Inference.ofOperation? o.operation) :
    (∃ s', inferAll s = .ok 0 s') ↔ ∀ op o, s.graph.operator? op = some o →
      Settled op o.operation (fun i => s.graph.view.reading ⟨op, i⟩)
        (s.graph.view.writing ⟨op, 0⟩) := by
  have hnode : ∀ id ∈ s.graph.topologicalOrder, (∃ o, s.graph.operator? id = some o) ∨
      ∃ c, s.graph.content? id = some c := by
    intro id hid
    obtain ⟨⟨_, _, payload, _⟩, hn⟩ := Option.isSome_iff_exists.mp (hg.mem_topologicalOrder.mp hid)
    cases payload with
    | op o => exact .inl ⟨o, by rw [operator?, hn]; rfl⟩
    | data c => exact .inr ⟨c, by rw [content?, hn]; rfl⟩
  have hsame : ∀ id ∈ s.graph.topologicalOrder, ∀ s', inferNode id s = .ok 0 s' → s' = s := by
    intro id hid s' h
    rcases hnode id hid with ⟨o, ho⟩ | ⟨c, hc⟩
    · exact ((inferNode_eq_ok_zero_iff ho (hdefault id o ho)).mp h).1
    · rw [inferNode_of_data hc] at h
      cases h
      rfl
  rw [inferAll, graph_bind]
  simp only [inferNodes_eq_ok_zero_iff hsame, exists_eq_left]
  constructor
  · intro h op o ho
    obtain ⟨n, hn, -⟩ := Option.bind_eq_some_iff.mp ho
    have hmem := hg.mem_topologicalOrder.mpr (Option.isSome_iff_exists.mpr ⟨n, hn⟩)
    exact ((inferNode_eq_ok_zero_iff ho (hdefault op o ho)).mp (h op hmem)).2
  · intro h id hid
    rcases hnode id hid with ⟨o, ho⟩ | ⟨c, hc⟩
    · exact (inferNode_eq_ok_zero_iff ho (hdefault id o ho)).mpr ⟨rfl, h id o ho⟩
    · exact inferNode_of_data hc

end Edit

end TensorGraph
