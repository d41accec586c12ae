/-
  What the checks in front of edits accept.

  Each check is exact: the wire check accepts a wire if and only if the graph admits it, and the
  removal checks accept if and only if no data node that is read and has no value would lose its
  producer.

    1. A check is a sequence of smaller ones and passes if all of them do (`except_bind_eq_ok`,
       `except_forM_eq_ok`).
    2. A wire passes `checkWire` exactly if the graph `Admits` it (`checkWire_eq_ok_iff`).  The
       tables are looked at on the way, and on a well-formed graph they have what is looked for
       (`checkEnds_eq_ok`).
    3. A node can be removed exactly if it is `Removable`, and an edge by the same condition on its
       end (`checkRemoveNode_eq_ok_iff`, `checkRemoveEdge_eq_ok_iff`).
    4. The check of the whole graph finds no fault with a well-formed one (`checkAll_eq_ok`).
-/
import TensorGraph.Proofs.Graph.Change

namespace TensorGraph

open Relation

/-! ## Checks in sequence -/

section Except

variable {ε β γ : Type}

theorem except_ok_bind (x : β) (f : β → Except ε γ) : Except.ok x >>= f = f x :=
  rfl

/-- A sequence passes if its parts do. -/
theorem except_bind_eq_ok {x : Except ε β} {f : β → Except ε γ} {c : γ} :
    x >>= f = .ok c ↔ ∃ b, x = .ok b ∧ f b = .ok c := by
  cases x with
  | ok b => simp [bind, Except.bind]
  | error e => simp [bind, Except.bind]

/-- A check in front of a computation. -/
theorem except_guard_eq_ok {p : Prop} [Decidable p] {e : ε} {k : Unit → Except ε γ} {c : γ} :
    (if p then (throw e : Except ε Unit) >>= k else k ()) = .ok c ↔ ¬ p ∧ k () = .ok c := by
  by_cases hp : p
  · rw [if_pos hp]
    exact iff_of_false (fun h => by cases h) fun h => h.1 hp
  · rw [if_neg hp, and_iff_right hp]

/-- A loop of checks accepts if each of them does. -/
theorem except_forM_eq_ok {check : β → Except ε Unit} {list : List β} :
    list.forM check = .ok () ↔ ∀ x ∈ list, check x = .ok () := by
  induction list with
  | nil => simp [List.forM, pure, Except.pure]
  | cons x rest ih =>
    rw [List.forall_mem_cons, ← ih]
    show (check x >>= fun _ => rest.forM check) = .ok () ↔ _
    cases hx : check x <;> simp [bind, Except.bind]

/-- A loop of computations that succeeds lists the result of each, and no other. -/
theorem except_mapM_mem {f : β → Except ε γ} {list : List β} {results : List γ}
    (h : list.mapM f = .ok results) :
    (∀ x ∈ list, ∃ y ∈ results, f x = .ok y) ∧ ∀ y ∈ results, ∃ x ∈ list, f x = .ok y := by
  induction list generalizing results with
  | nil =>
    rw [List.mapM_nil] at h
    cases h
    simp
  | cons x rest ih =>
    rw [List.mapM_cons] at h
    obtain ⟨y, hy, h⟩ := except_bind_eq_ok.mp h
    obtain ⟨ys, hys, h⟩ := except_bind_eq_ok.mp h
    cases h
    obtain ⟨hleft, hright⟩ := ih hys
    constructor
    · intro a ha
      rcases List.mem_cons.mp ha with rfl | ha
      · exact ⟨y, List.mem_cons_self, hy⟩
      · obtain ⟨b, hb, hab⟩ := hleft a ha
        exact ⟨b, List.mem_cons_of_mem _ hb, hab⟩
    · intro b hb
      rcases List.mem_cons.mp hb with rfl | hb
      · exact ⟨x, List.mem_cons_self, hy⟩
      · obtain ⟨a, ha, hab⟩ := hright b hb
        exact ⟨a, List.mem_cons_of_mem _ ha, hab⟩

end Except

namespace Graph

variable {α : Type} {g : Graph α}

/-! ## Tables -/

theorem checkIndex_eq_ok_iff {index length : Nat} : checkIndex index length = .ok () ↔ index < length := by
  rw [checkIndex]
  split <;> simp [*]

/-- The ends of a wire are looked up in the tables. -/
theorem checkEnds_eq_ok_iff {w : Wire} :
    g.checkEnds w = .ok () ↔ w.src < g.outgoing.length ∧ w.dst < g.incoming.length := by
  rw [checkEnds, except_bind_eq_ok, ← checkIndex_eq_ok_iff, ← checkIndex_eq_ok_iff]
  exact ⟨fun ⟨_, h⟩ => h, fun h => ⟨(), h⟩⟩

namespace WellFormed

variable (hg : g.WellFormed)
include hg

/-- There is an entry for each id that was given away. -/
theorem length_incoming : g.incoming.length = g.nextNode := by
  rw [hg.incoming, length_tableOf]

theorem length_outgoing : g.outgoing.length = g.nextNode := by
  rw [hg.outgoing, length_tableOf]

/-- Between ids that were given away the tables have an entry for each end. -/
theorem checkEnds_eq_ok {w : Wire} (hsrc : w.src < g.nextNode) (hdst : w.dst < g.nextNode) :
    g.checkEnds w = .ok () := by
  rw [checkEnds_eq_ok_iff, hg.length_outgoing, hg.length_incoming]
  exact ⟨hsrc, hdst⟩

/-- The ends of a wire that alternates are live, so the tables list edges at them. -/
theorem checkEnds_of_alternates {w : Wire} (h : g.Alternates w) : g.checkEnds w = .ok () := by
  rcases h with ⟨hsrc, hdst, _⟩ | ⟨hsrc, hdst, _⟩ <;>
    exact hg.checkEnds_eq_ok (hg.below_of_kind? hsrc) (hg.below_of_kind? hdst)

end WellFormed

/-! ## Wires -/

/-- The wire between two ports, with port zero at its data side. -/
def wireBetween (srcKind : Kind) (src : NodeId) (srcPort : Nat) (dst : NodeId) (dstPort : Nat) :
    Wire :=
  match srcKind with
  | .op => ⟨src, srcPort, dst, 0⟩
  | .data => ⟨src, 0, dst, dstPort⟩

theorem wire_eq_ok_iff (hg : g.WellFormed) {k : Kind} {src dst : NodeId} {srcPort dstPort : Nat} {w : Wire} :
    g.wire k src srcPort dst dstPort = .ok w ↔
      w = wireBetween k src srcPort dst dstPort ∧
        match k with
        | .op => (∀ v, g.Wired v → v.dst ≠ dst) ∧
            ∀ v, g.Wired v → ¬ (v.src = src ∧ v.srcPort = srcPort)
        | .data => ∀ v, g.Wired v → ¬ (v.dst = dst ∧ v.dstPort = dstPort) := by
  cases k with
  | op =>
    simp only [wire, wireBetween, ← hg.producingEdge?_eq_none_iff]
    rw [← hg.edgeOutOf?_eq_none_iff (p := ⟨src, srcPort⟩)]
    cases g.producingEdge? dst with
    | some e => simp
    | none => cases g.edgeOutOf? ⟨src, srcPort⟩ <;> simp [eq_comm]
  | data =>
    simp only [wire, wireBetween]
    rw [← hg.edgeInto?_eq_none_iff (p := ⟨dst, dstPort⟩)]
    cases g.edgeInto? ⟨dst, dstPort⟩ <;> simp [eq_comm]

/-- The wire check, step by step. -/
theorem checkWire_steps (hg : g.WellFormed) {src dst : NodeId} {srcPort dstPort : Nat} {w : Wire} :
    g.checkWire src srcPort dst dstPort = .ok w ↔
      ∃ k l, g.kind? src = some k ∧ g.kind? dst = some l ∧ k ≠ l ∧
        g.wire k src srcPort dst dstPort = .ok w ∧ g.hasPath dst src = false := by
  rw [checkWire, node, node, kind?, kind?]
  rcases g.node? src with _ | n
  · simp [bind, Except.bind]
  · rcases g.node? dst with _ | m
    · simp [bind, Except.bind]
    · by_cases hsame : n.kind = m.kind
      · simp [hsame, bind, Except.bind, throw, throwThe, MonadExceptOf.throw]
      · rcases hwire : g.wire n.kind src srcPort dst dstPort with e | v
        · simp [hsame, hwire, bind, Except.bind]
        · by_cases hpath : src = dst ∨ g.hasPath dst src = true
          · have hback : g.hasPath dst src = true := by
              rcases hpath with rfl | hpath
              · exact (hg.hasPath_iff src src).mpr .refl
              · exact hpath
            simp [hsame, hwire, hback, bind, Except.bind, throw, throwThe, MonadExceptOf.throw]
          · obtain ⟨hne, hback⟩ := not_or.mp hpath
            rw [Bool.not_eq_true] at hback
            simp [hsame, hwire, hne, hback, bind, Except.bind, pure, Except.pure]

/-- The wire check accepts exactly what the graph admits. -/
theorem checkWire_eq_ok_iff (hg : g.WellFormed) {src dst : NodeId} {srcPort dstPort : Nat}
    {w : Wire} :
    g.checkWire src srcPort dst dstPort = .ok w ↔
      ∃ k, g.kind? src = some k ∧ w = wireBetween k src srcPort dst dstPort ∧ g.Admits w := by
  simp only [checkWire_steps hg, wire_eq_ok_iff hg, hg.hasPath_eq_false_iff]
  constructor
  · rintro ⟨k, l, hsrc, hdst, hkinds, ⟨rfl, hfree⟩, hback⟩
    refine ⟨k, hsrc, rfl, ?_⟩
    cases k with
    | op =>
      cases l with
      | op => exact absurd rfl hkinds
      | data =>
        exact ⟨Or.inl ⟨hsrc, hdst, rfl⟩, fun v hv h => hfree.1 v hv h.1, fun _ => hfree.2, hback⟩
    | data =>
      cases l with
      | op =>
        refine ⟨Or.inr ⟨hsrc, hdst, rfl⟩, hfree, fun hop => ?_, hback⟩
        exact absurd (hop.symm.trans hsrc) (by decide)
      | data => exact absurd rfl hkinds
  · rintro ⟨k, hsrc, rfl, halt, hin, hout, hback⟩
    cases k with
    | op =>
      rcases halt with ⟨_, hdst, _⟩ | ⟨hdata, _⟩
      · refine ⟨.op, .data, hsrc, hdst, by decide, ⟨rfl, fun v hv h => ?_, hout hsrc⟩, hback⟩
        exact hin v hv ⟨h, (hg.wired_to_data hv (h ▸ hdst)).2⟩
      · exact absurd (hsrc.symm.trans hdata) (by decide)
    | data =>
      rcases halt with ⟨hop, _⟩ | ⟨_, hdst, _⟩
      · exact absurd (hsrc.symm.trans hop) (by decide)
      · exact ⟨.data, .op, hsrc, hdst, by decide, ⟨rfl, hin⟩, hback⟩

/-! ## Removals -/

/-- The data node is read and has no value. -/
def Needed (g : Graph α) (data : NodeId) : Prop :=
  (∃ w, g.Wired w ∧ w.src = data) ∧ ∃ c, g.content? data = some c ∧ c.value = none

/-- Data dangles without its producer if it is needed. -/
theorem dangles_eq_false_iff (hg : g.WellFormed) {data : NodeId} (hdata : g.kind? data = some .data) :
    g.dangles data = .ok false ↔ ¬ g.Needed data := by
  obtain ⟨c, hc⟩ := kind?_eq_data.mp hdata
  have hread : (g.outEdgeIds data).isEmpty = false ↔ ∃ w, g.Wired w ∧ w.src = data := by
    rw [← Bool.not_eq_true, hg.outEdgeIds_isEmpty_iff]
    simp
  have hvalue : c.isConstant = false ↔ c.value = none := by
    rw [Content.isConstant, Option.isSome_eq_false_iff, Option.isNone_iff_eq_none]
  rw [dangles, content_eq_ok.mpr hc, Needed, ← hread]
  simp only [hc, Option.some.injEq, exists_eq_left', ← hvalue]
  cases (g.outEdgeIds data).isEmpty <;> cases hconstant : c.isConstant <;>
    simp [hconstant, bind, Except.bind, pure, Except.pure]

theorem rejects_eq_ok_iff {data : NodeId} :
    (do if ← g.dangles data then throw (.danglingData data)) = (.ok () : Except Error Unit) ↔
      g.dangles data = .ok false := by
  rcases g.dangles data with e | (_ | _) <;>
    simp [bind, Except.bind, pure, Except.pure, throw, throwThe, MonadExceptOf.throw]

/-- A node can be removed if, as data, it is not read, and, as an operator, none of its results is
needed. -/
def Removable (g : Graph α) (id : NodeId) : Prop :=
  (g.kind? id = some .data → ∀ w, g.Wired w → w.src ≠ id) ∧
    (g.kind? id = some .op → ∀ w, g.Wired w → w.src = id → ¬ g.Needed w.dst)

/-- A node can be removed exactly if it is there and removable. -/
theorem checkRemoveNode_eq_ok_iff (hg : g.WellFormed) {id : NodeId} {n : Node α} :
    g.checkRemoveNode id = .ok n ↔ g.node? id = some n ∧ g.Removable id := by
  rw [checkRemoveNode, node]
  rcases hn : g.node? id with _ | m
  · simp [bind, Except.bind]
  · have hkind : g.kind? id = some m.kind := by rw [kind?, hn]; rfl
    rw [Removable, hkind]
    cases hm : m.kind with
    | data =>
      simp only [← hg.outEdgeIds_isEmpty_iff]
      cases (g.outEdgeIds id).isEmpty <;>
        simp [hm, bind, Except.bind, pure, Except.pure, throw, throwThe, MonadExceptOf.throw]
    | op =>
      have hloop : ((g.successors id).forM fun data => do
          if ← g.dangles data then throw (.danglingData data)) = (.ok () : Except Error Unit) ↔
          ∀ w, g.Wired w → w.src = id → ¬ g.Needed w.dst := by
        rw [except_forM_eq_ok]
        constructor
        · intro h w hw hsrc
          have hdata := (hg.wired_of_op hw (hsrc ▸ hkind.trans (congrArg some hm))).1
          rw [← dangles_eq_false_iff hg hdata, ← rejects_eq_ok_iff]
          exact h w.dst (hg.mem_successors.mpr (hsrc ▸ hw.joins))
        · intro h data hdata
          obtain ⟨i, j, hw⟩ := joins_iff.mp (hg.mem_successors.mp hdata)
          have hkind' := (hg.wired_of_op hw (hkind.trans (congrArg some hm))).1
          rw [rejects_eq_ok_iff, dangles_eq_false_iff hg hkind']
          exact h _ hw rfl
      simp only [← hloop, bind, Except.bind, pure, Except.pure, hm]
      split <;> rename_i hresult <;> simp [hresult]

/-- An edge can be removed exactly if it is there and its end is not needed. -/
theorem checkRemoveEdge_eq_ok_iff (hg : g.WellFormed) {id : EdgeId} {e : Edge} :
    g.checkRemoveEdge id = .ok e ↔
      g.edge? id = some e ∧ (g.kind? e.src = some .op → ¬ g.Needed e.dst) := by
  rw [checkRemoveEdge]
  rcases he : g.edge? id with _ | f
  · simp [throw, throwThe, MonadExceptOf.throw]
  · have hmem : g.Wired f.toWire := ⟨f, List.mem_of_find?_eq_some he, rfl⟩
    obtain ⟨n, hn⟩ := Option.ne_none_iff_exists'.mp (hg.wired_live hmem).1
    have hkind : g.kind? f.src = some n.kind := by rw [kind?, hn]; rfl
    have hnode := node_eq_ok.mpr hn
    simp only [hnode, bind, Except.bind, pure, Except.pure]
    cases hk : n.kind with
    | data =>
      rw [hk] at hkind
      simp only [Option.some.injEq]
      constructor
      · intro h
        cases h
        exact ⟨rfl, fun hop => absurd (hop.symm.trans hkind) (by decide)⟩
      · rintro ⟨rfl, _⟩
        rfl
    | op =>
      rw [hk] at hkind
      have hsame : (some f = some e ∧ (g.kind? e.src = some .op → ¬ g.Needed e.dst)) ↔
          f = e ∧ g.dangles f.dst = .ok false := by
        rw [dangles_eq_false_iff hg (hg.wired_of_op hmem hkind).1, Option.some.injEq]
        constructor
        · rintro ⟨rfl, h⟩
          exact ⟨rfl, h hkind⟩
        · rintro ⟨rfl, h⟩
          exact ⟨rfl, fun _ => h⟩
      rw [hsame]
      rcases g.dangles f.dst with err | (_ | _) <;> simp [throw, throwThe, MonadExceptOf.throw]

/-! ## The check of the whole graph -/

namespace WellFormed

variable (hg : g.WellFormed)
include hg

/-- Different edges into a node use different ports. -/
theorem inEdges_ports_nodup (id : NodeId) : ((g.inEdges id).map (·.dstPort)).Nodup := by
  have hnodup : (g.inEdges id).Nodup := by
    rw [hg.inEdges_eq]
    exact (List.Nodup.of_map _ hg.edge_ids_nodup).filter _
  refine hnodup.map_on fun e he f hf hport => ?_
  obtain ⟨hemem, he⟩ := hg.mem_inEdges.mp he
  obtain ⟨hfmem, hf⟩ := hg.mem_inEdges.mp hf
  exact hg.inputs_distinct e hemem f hfmem (he.trans hf.symm) hport

/-- A data node has one producer at most. -/
theorem inEdgeIds_length_le {id : NodeId} (hdata : g.kind? id = some .data) :
    (g.inEdgeIds id).length ≤ 1 := by
  have hports : ∀ port ∈ (g.inEdges id).map (·.dstPort), port = 0 := by
    intro port hport
    obtain ⟨e, he, rfl⟩ := List.mem_map.mp hport
    obtain ⟨hmem, hdst⟩ := hg.mem_inEdges.mp he
    rw [← hdst] at hdata
    exact (hg.wired_to_data ⟨e, hmem, rfl⟩ hdata).2
  have hnodup := hg.inEdges_ports_nodup id
  rw [List.eq_replicate_of_mem hports, List.nodup_replicate, List.length_map, hg.inEdges_eq]
    at hnodup
  rwa [hg.inEdgeIds_eq, List.length_map]

/-- A well-formed graph passes the check of the whole. -/
theorem checkAll_eq_ok : g.checkAll = .ok () := by
  refine except_bind_eq_ok.mpr ⟨(), except_forM_eq_ok.mpr fun e he => ?_,
    except_bind_eq_ok.mpr ⟨(), except_forM_eq_ok.mpr fun n hn => ?_, ?_⟩⟩
  · obtain ⟨hsrc, hdst⟩ := hg.wired_live ⟨e, he, rfl⟩
    obtain ⟨n, hn⟩ := Option.ne_none_iff_exists'.mp hsrc
    obtain ⟨m, hm⟩ := Option.ne_none_iff_exists'.mp hdst
    have hkinds : n.kind ≠ m.kind := by
      have halt := hg.alternates e he
      simp only [Alternates, kind?, hn, hm, Option.map_some, Option.some.injEq] at halt
      rcases halt with ⟨hn, hm, _⟩ | ⟨hn, hm, _⟩ <;> simp [hn, hm]
    rw [node_eq_ok.mpr hn, node_eq_ok.mpr hm]
    simp [hkinds, bind, Except.bind, pure, Except.pure]
  · have hkind : g.kind? n.id = some n.kind := by
      rw [kind?, hg.node?_eq_some_iff.mpr ⟨hn, rfl⟩]
      rfl
    cases hk : n.kind with
    | data =>
      have hle := hg.inEdgeIds_length_le (hkind.trans (congrArg some hk))
      simp [Nat.not_lt.mpr hle, pure, Except.pure]
    | op =>
      simp [firstRepeat?_eq_none_iff.mpr (hg.inEdges_ports_nodup n.id), pure, Except.pure]
  · have hlength : g.computeOrder.length = g.nodes.length := by
      rw [← hg.topologicalOrder_eq_computeOrder, hg.topologicalOrder_perm.length_eq, ids,
        List.length_map]
    simp [hlength, pure, Except.pure]

end WellFormed

end Graph

end TensorGraph
