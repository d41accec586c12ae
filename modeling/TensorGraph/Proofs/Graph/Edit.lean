/-
  What each edit does.

  One statement for each edit says how it ends: the graph after a success, with the exact condition
  for it, and that a failure leaves the graph as it was.  All other facts about edits follow from
  these; the last section derives that every edit keeps graphs well-formed, however it ends.

  An edit makes several changes after its checks, and each of them looks at the tables once more.
  On a well-formed graph the tables have an entry for every live node, so these looks never fail
  (`runs_insertEdge`, `runs_detach`, `runs_takeNode`) and the changes add up to one: taking away all
  edges at a node and then the node (`runs_removeNode`), adding a data node with two edges
  (`runs_insertLink`), feeding one port after the other (`runs_refeedAll`).
-/
import TensorGraph.Proofs.Graph.Check
import TensorGraph.Proofs.Graph.Runs

namespace TensorGraph.Edit

open Relation TensorGraph.Graph

variable {α : Type} {g : Graph α} {notes : List LogEntry} {E : Graph α → Prop} {id : NodeId}

/-! ## Nodes -/

/-- A node is added under a free name, and gets the next id. -/
theorem runs_addNode {Q : NodeId → Graph α → Prop} {name : String} {payload : Payload α}
    (h : Q g.nextNode (g.insertNode (g.freeName name) payload)) :
    Runs (addNode name payload) ⟨g, notes⟩ Q E := by
  refine runs_bind (runs_graph fun log => ?_)
  dsimp only
  split
  · exact runs_bind (runs_log fun _ => runs_bind (runs_change fun _ => runs_pure h))
  · exact runs_bind (runs_change fun _ => runs_pure h)

/-- An operator is replaced by what is made of it. -/
theorem runs_operatorEdit {Q : Unit → Graph α → Prop} {f : Operator → Operator}
    (hok : ∀ o, g.operator? id = some o → Q () (g.setPayload id (.op (f o))))
    (herror : g.operator? id = none → E g) :
    Runs (do
      let operator ← query fun g => g.operator id
      change fun g => g.setPayload id (.op (f operator))) ⟨g, notes⟩ Q E := by
  refine runs_bind (runs_query (fun o ho log => runs_change (hok o (operator_eq_ok.mp ho))) ?_)
  intro error he
  refine herror (Option.eq_none_iff_forall_ne_some.mpr fun o ho => ?_)
  rw [operator_eq_ok.mpr ho] at he
  cases he

/-- The operation of an operator is replaced, and its inference stays. -/
theorem runs_setOperation {Q : Unit → Graph α → Prop} {operation : Operation}
    (hok : ∀ o, g.operator? id = some o →
      Q () (g.setPayload id (.op { o with operation })))
    (herror : g.operator? id = none → E g) :
    Runs (setOperation id operation) ⟨g, notes⟩ Q E :=
  runs_operatorEdit hok herror

/-- The inference of an operator is replaced, and its operation stays. -/
theorem runs_setInference {Q : Unit → Graph α → Prop} {inference : Option Inference}
    (hok : ∀ o, g.operator? id = some o →
      Q () (g.setPayload id (.op { o with inference })))
    (herror : g.operator? id = none → E g) :
    Runs (setInference id inference) ⟨g, notes⟩ Q E :=
  runs_operatorEdit hok herror

/-- The content of a data node is replaced by what is made of it. -/
theorem runs_modifyContent {Q : Unit → Graph α → Prop} {f : Content α → Content α}
    (hok : ∀ c, g.content? id = some c → Q () (g.setPayload id (.data (f c))))
    (herror : g.content? id = none → E g) :
    Runs (modifyContent id f) ⟨g, notes⟩ Q E := by
  refine runs_bind (runs_query (fun c hc log => runs_change (hok c (content_eq_ok.mp hc))) ?_)
  intro error he
  refine herror (Option.eq_none_iff_forall_ne_some.mpr fun c hc => ?_)
  rw [content_eq_ok.mpr hc] at he
  cases he

/-- The old value of an attribute is returned. -/
theorem runs_setAttribute {Q : Option Attribute → Graph α → Prop} {name : String}
    {value : Option Attribute}
    (hok : ∀ n, g.node? id = some n →
      ∀ attributes, Q (n.attributes.get? name) (g.setAttributes id attributes))
    (herror : g.node? id = none → E g) :
    Runs (setAttribute id name value) ⟨g, notes⟩ Q E := by
  refine runs_bind (runs_query (fun n hn log => ?_) ?_)
  · exact runs_bind (runs_change fun _ => runs_pure (hok n (node_eq_ok.mp hn) _))
  · intro error he
    refine herror (Option.eq_none_iff_forall_ne_some.mpr fun n hn => ?_)
    rw [node_eq_ok.mpr hn] at he
    cases he

/-! ## Edges -/

/-- A new edge is listed at its ends, for which there are entries. -/
theorem runs_insertEdge {Q : EdgeId → Graph α → Prop} {w : Wire} (hends : g.checkEnds w = .ok ())
    (h : Q g.nextEdge (g.insertEdge w)) : Runs (insertEdge w) ⟨g, notes⟩ Q E := by
  refine runs_bind (runs_graph fun _ => ?_)
  rw [hends]
  exact runs_bind (runs_pure fun _ => runs_bind (runs_change fun _ => runs_pure h))

/-- There are entries at the ends of each edge. -/
theorem runs_detach {Q : Option Edge → Graph α → Prop} (hg : g.WellFormed) {id : EdgeId}
    (h : Q (g.edge? id) (g.eraseEdge id)) : Runs (detach id) ⟨g, notes⟩ Q E := by
  refine runs_bind (runs_graph fun _ => ?_)
  cases he : g.edge? id with
  | none =>
    rw [he, eraseEdge, he] at h
    exact runs_pure h
  | some e =>
    have hmem := (hg.edge?_eq_some_iff.mp he).1
    rw [he] at h
    dsimp only
    rw [hg.checkEnds_of_alternates (hg.alternates e hmem)]
    exact runs_bind (runs_pure fun _ => runs_bind (runs_change fun _ => runs_pure h))

/-- Edges are taken away one after the other. -/
theorem runs_detachAll {Q : PUnit → Graph α → Prop} (hg : g.WellFormed) {ids : List EdgeId}
    (h : Q ⟨⟩ (g.eraseEdges ids)) :
    Runs (ids.forM fun e => do let _ ← detach e) ⟨g, notes⟩ Q E := by
  -- what is still to be taken away leads from the graph so far to the same end
  refine (runs_forM (fun rest g' => g'.WellFormed ∧ g'.eraseEdges rest = g.eraseEdges ids) ?_ _ _
    ⟨hg, rfl⟩).imp (fun _ g' hdone => ?_) fun _ hE => hE
  · rintro x rest ⟨g', _⟩ ⟨hg', hrest⟩
    exact runs_bind (runs_detach hg' fun _ => runs_pure ⟨hg'.eraseEdge x, hrest⟩)
  · rw [← hdone.2] at h
    exact h

/-- A wire that is admitted is added, and any other is refused. -/
theorem runs_addEdge {Q : EdgeId → Graph α → Prop} (hg : g.WellFormed)
    {src dst : NodeId} {srcPort dstPort : Nat}
    (hok : ∀ k, g.kind? src = some k →
      g.Admits (wireBetween k src srcPort dst dstPort) →
      Q g.nextEdge (g.insertEdge (wireBetween k src srcPort dst dstPort)))
    (herror : (∀ k, g.kind? src = some k →
      ¬ g.Admits (wireBetween k src srcPort dst dstPort)) → E g) :
    Runs (addEdge src srcPort dst dstPort) ⟨g, notes⟩ Q E := by
  refine runs_bind (runs_query (fun w hw _ => ?_) ?_)
  · obtain ⟨k, hk, rfl, hadmits⟩ := (checkWire_eq_ok_iff hg).mp hw
    exact runs_insertEdge (hg.checkEnds_of_alternates hadmits.alternates) (hok k hk hadmits)
  · intro error he
    refine herror fun k hk hadmits => ?_
    rw [(checkWire_eq_ok_iff hg).mpr ⟨k, hk, rfl, hadmits⟩] at he
    cases he

/-- An edge is removed unless it makes data that is needed. -/
theorem runs_removeEdge {Q : Edge → Graph α → Prop} (hg : g.WellFormed) {id : EdgeId}
    (hok : ∀ e, g.edge? id = some e →
      (g.kind? e.src = some .op → ¬ g.Needed e.dst) → Q e (g.eraseEdge id))
    (herror : (∀ e, g.edge? id = some e →
      g.kind? e.src = some .op ∧ g.Needed e.dst) → E g) :
    Runs (removeEdge id) ⟨g, notes⟩ Q E := by
  refine runs_bind (runs_query (fun e he _ => ?_) ?_)
  · obtain ⟨hedge, hneeded⟩ := (checkRemoveEdge_eq_ok_iff hg).mp he
    refine runs_bind (runs_detach hg fun _ => ?_)
    rw [hedge]
    exact runs_pure (hok e hedge hneeded)
  · intro error he
    refine herror fun e hedge => ?_
    by_contra hfine
    rw [(checkRemoveEdge_eq_ok_iff hg).mpr ⟨hedge, fun hop hneeded => hfine ⟨hop, hneeded⟩⟩] at he
    cases he

/-! ## Removing nodes -/

/-- There is an entry for each live node. -/
theorem runs_takeNode {Q : Node α → Graph α → Prop} (hg : g.WellFormed) {n : Node α}
    (hn : g.node? id = some n) (h : Q n (g.takeNode id)) : Runs (takeNode id) ⟨g, notes⟩ Q E := by
  have hlive : g.kind? id = some n.kind := by rw [kind?, hn]; rfl
  refine runs_bind (runs_graph fun _ => ?_)
  rw [checkIndex_eq_ok_iff.mpr (hg.below_of_kind? hlive), node_eq_ok.mpr hn]
  exact runs_bind (runs_pure fun _ => runs_bind (runs_pure fun _ =>
    runs_bind (runs_change fun _ => runs_pure h)))

/-- A removable node goes with its edges, and any other is refused. -/
theorem runs_removeNode {Q : Node α → Graph α → Prop} (hg : g.WellFormed)
    (hok : ∀ n, g.node? id = some n → g.Removable id → Q n (g.eraseNode id))
    (herror : ¬ (g.node? id ≠ none ∧ g.Removable id) → E g) :
    Runs (removeNode id) ⟨g, notes⟩ Q E := by
  refine runs_bind (runs_query (fun n hn _ => ?_) ?_)
  · obtain ⟨hnode, hremovable⟩ := (checkRemoveNode_eq_ok_iff hg).mp hn
    refine runs_bind (runs_graph fun _ => runs_bind (runs_detachAll hg fun _ => ?_))
    refine runs_takeNode (hg.eraseEdges _) (n := n) ?_ (hok n hnode hremovable)
    rw [node?_eraseEdges, hnode]
  · intro error he
    refine herror fun ⟨hnode, hremovable⟩ => ?_
    obtain ⟨n, hn⟩ := Option.ne_none_iff_exists'.mp hnode
    rw [(checkRemoveNode_eq_ok_iff hg).mpr ⟨hn, hremovable⟩] at he
    cases he

/-! ## Ports -/

/-- A check of the kind leaves the graph as it is. -/
theorem runs_requireKind {Q : Unit → Graph α → Prop} {k : Kind}
    (hok : g.kind? id = some k → Q () g)
    (herror : g.kind? id ≠ some k → E g) :
    Runs (query fun g => g.requireKind id k) ⟨g, notes⟩ Q E := by
  refine runs_query (fun _ h => hok (requireKind_eq_ok.mp h)) fun error he => herror fun hk => ?_
  rw [requireKind_eq_ok.mpr hk] at he
  cases he

/-- A check for an operator leaves the graph as it is. -/
theorem runs_requireOperator {Q : Operator → Graph α → Prop}
    (hok : ∀ o, g.operator? id = some o → Q o g)
    (herror : g.kind? id ≠ some .op → E g) :
    Runs (query fun g => g.operator id) ⟨g, notes⟩ Q E := by
  refine runs_query (fun o h => hok o (operator_eq_ok.mp h)) fun error he => herror fun hk => ?_
  obtain ⟨o, ho⟩ := kind?_eq_op.mp hk
  rw [operator_eq_ok.mpr ho] at he
  cases he

/-- Data feeds a port by a wire that is admitted. -/
theorem runs_feed {Q : Unit → Graph α → Prop} (hg : g.WellFormed) {data : NodeId}
    {port : InputPort}
    (hok : g.kind? data = some .data →
      g.Admits ⟨data, 0, port.node, port.index⟩ →
      Q () (g.insertEdge ⟨data, 0, port.node, port.index⟩))
    (herror : ¬ (g.kind? data = some .data ∧
      g.Admits ⟨data, 0, port.node, port.index⟩) → E g) :
    Runs (feed data port) ⟨g, notes⟩ Q E := by
  refine runs_bind (runs_requireKind (fun hdata log => ?_) fun hdata => ?_)
  · refine runs_bind (runs_addEdge hg (fun k hk hadmits _ => ?_) fun hrefused => ?_)
    · obtain rfl : k = .data := Option.some.inj (hk.symm.trans hdata)
      exact runs_pure (hok hdata hadmits)
    · exact herror fun h => hrefused .data hdata h.2
  · exact herror fun h => hdata h.1

/-- A port produces data by a wire that is admitted. -/
theorem runs_produce {Q : Unit → Graph α → Prop} (hg : g.WellFormed) {data : NodeId}
    {port : OutputPort}
    (hok : g.kind? port.node = some .op →
      g.Admits ⟨port.node, port.index, data, 0⟩ →
      Q () (g.insertEdge ⟨port.node, port.index, data, 0⟩))
    (herror : ¬ (g.kind? port.node = some .op ∧
      g.Admits ⟨port.node, port.index, data, 0⟩) → E g) :
    Runs (produce port data) ⟨g, notes⟩ Q E := by
  refine runs_bind (runs_requireKind (fun hop log => ?_) fun hop => ?_)
  · refine runs_bind (runs_addEdge hg (fun k hk hadmits _ => ?_) fun hrefused => ?_)
    · obtain rfl : k = .op := Option.some.inj (hk.symm.trans hop)
      exact runs_pure (hok hop hadmits)
    · exact herror fun h => hrefused .op hop h.2
  · exact herror fun h => hop h.1

/-- The edge into a port of an operator goes, if there is one. -/
theorem runs_unplug {Q : Option NodeId → Graph α → Prop} (hg : g.WellFormed) {port : InputPort}
    (hfed : ∀ e, g.kind? port.node = some .op → g.edgeInto? port = some e →
      Q (some e.src) (g.eraseEdge e.id))
    (hfree : g.kind? port.node = some .op → g.edgeInto? port = none → Q none g)
    (herror : g.kind? port.node ≠ some .op → E g) :
    Runs (unplug port) ⟨g, notes⟩ Q E := by
  refine runs_bind (runs_requireOperator (fun o ho log => ?_) herror)
  have hop := kind?_eq_op.mpr ⟨o, ho⟩
  refine runs_bind (runs_graph fun _ => ?_)
  split
  · rename_i e he
    refine runs_bind (runs_detach hg fun _ => ?_)
    rw [hg.edge?_eq_some_iff.mpr ⟨(hg.edgeInto?_spec he).1, rfl⟩]
    exact runs_pure (hfed e hop he)
  · rename_i hnone
    exact runs_pure (hfree hop hnone)

/-- The edge out of a port of an operator goes, if there is one and its data is not needed. -/
theorem runs_release {Q : Option NodeId → Graph α → Prop} (hg : g.WellFormed)
    {port : OutputPort}
    (hused : ∀ e, g.kind? port.node = some .op → g.edgeOutOf? port = some e →
      ¬ g.Needed e.dst → Q (some e.dst) (g.eraseEdge e.id))
    (hfree : g.kind? port.node = some .op → g.edgeOutOf? port = none →
      Q none g)
    (herror : (g.kind? port.node = some .op →
      ∃ e, g.edgeOutOf? port = some e ∧ g.Needed e.dst) → E g) :
    Runs (release port) ⟨g, notes⟩ Q E := by
  refine runs_bind (runs_requireOperator (fun o ho log => ?_) fun hop =>
    herror fun h => absurd h hop)
  have hop := kind?_eq_op.mpr ⟨o, ho⟩
  refine runs_bind (runs_graph fun _ => ?_)
  split
  · rename_i e he
    obtain ⟨hmem, hsrc, _⟩ := hg.edgeOutOf?_spec he
    have hedge := hg.edge?_eq_some_iff.mpr ⟨hmem, rfl⟩
    refine runs_bind (runs_removeEdge hg (fun f hf hneeded _ => ?_) fun hneeded => ?_)
    · obtain rfl : e = f := Option.some.inj (hedge.symm.trans hf)
      exact runs_pure (hused e hop he (hneeded (hsrc ▸ hop)))
    · exact herror fun _ => ⟨e, he, (hneeded e hedge).2⟩
  · rename_i hnone
    exact runs_pure (hfree hop hnone)

/-- Between live nodes a data node can be added with its two edges. -/
theorem runs_insertLink {Q : NodeId → Graph α → Prop} (hg : g.WellFormed) {name : String}
    {source : OutputPort} {port : InputPort} (hsource : g.kind? source.node = some .op)
    (hport : g.kind? port.node = some .op) (hresult : g.edgeOutOf? source = none)
    (hfree : g.edgeInto? port = none) (hback : ¬ ReflTransGen g.Joins port.node source.node)
    (h : ∀ name, Q g.nextNode (g.insertLink name source port)) :
    Runs (insertLink name source port) ⟨g, notes⟩ Q E := by
  refine runs_bind (runs_addNode fun _ => ?_)
  have hg₁ := hg.insertNode (g.freeName name) (.data {})
  obtain ⟨hfirst, hsecond⟩ := hg.admits_insertLink hsource hport
    (hg.edgeOutOf?_eq_none_iff.mp hresult) (hg.edgeInto?_eq_none_iff.mp hfree) hback
  refine runs_bind (runs_insertEdge (hg₁.checkEnds_of_alternates hfirst.alternates) fun _ => ?_)
  refine runs_bind (runs_insertEdge
    ((hg₁.insertEdge hfirst).checkEnds_of_alternates hsecond.alternates) fun _ => ?_)
  exact runs_pure (h _)

/-- A port is linked through the result of the other, if it has one, and otherwise through a new
data node.  A link is refused where the wire is not admitted, where it would close a cycle, and
where the new node has no number. -/
theorem runs_link {Q : NodeId → Graph α → Prop} (hg : g.WellFormed) {source : OutputPort}
    {port : InputPort}
    (hused : ∀ data, g.kind? source.node = some .op → g.result? source = some data →
      g.kind? data = some .data → g.Admits ⟨data, 0, port.node, port.index⟩ →
      Q data (g.insertEdge ⟨data, 0, port.node, port.index⟩))
    (hnew : ∀ name, g.kind? source.node = some .op → g.kind? port.node = some .op →
      g.result? source = none → g.edgeInto? port = none →
      ¬ ReflTransGen g.Joins port.node source.node →
      Q g.nextNode (g.insertLink name source port))
    (herror : (g.kind? source.node = some .op → g.kind? port.node = some .op →
      (∀ data, g.result? source = some data → ¬ g.Admits ⟨data, 0, port.node, port.index⟩) ∧
        (g.result? source = none → g.edgeInto? port = none →
          ReflTransGen g.Joins port.node source.node ∨ wordLimit ≤ source.index + 1)) → E g) :
    Runs (link source port) ⟨g, notes⟩ Q E := by
  refine runs_bind (runs_requireKind (fun hsource _ => ?_) fun h => herror fun h' => absurd h' h)
  refine runs_bind (runs_requireKind (fun hport _ => ?_) fun h => herror fun _ h' => absurd h' h)
  refine runs_bind (runs_graph fun _ => ?_)
  dsimp only
  split
  · rename_i hbusy
    obtain ⟨e, he⟩ := Option.isSome_iff_exists.mp hbusy
    obtain ⟨hmem, hends⟩ := hg.edgeInto?_spec he
    refine runs_bind (runs_throw (herror fun _ _ => ⟨fun data _ hadmits => ?_, fun _ hfree => ?_⟩))
    · exact hadmits.input_free _ ⟨e, hmem, rfl⟩ hends
    · rw [hfree] at he
      cases he
  · rename_i hfree
    rw [Bool.not_eq_true, Option.isSome_eq_false_iff, Option.isNone_iff_eq_none] at hfree
    refine runs_bind (runs_pure fun _ => ?_)
    split
    · rename_i data hdata
      refine runs_bind (runs_feed hg (fun hkind hadmits _ => ?_) fun hrefused => ?_)
      · exact runs_pure (hused data hsource hdata hkind hadmits)
      · refine herror fun _ _ => ⟨fun data' hdata' hadmits => ?_, fun hnone => ?_⟩
        · obtain rfl : data = data' := Option.some.inj (hdata.symm.trans hdata')
          have hwired := hg.wired_of_op ((hg.result?_eq_some_iff hsource).mp hdata) hsource
          exact hrefused ⟨hwired.1, hadmits⟩
        · rw [hdata] at hnone
          cases hnone
    · rename_i hresult
      have hstop : ReflTransGen g.Joins port.node source.node ∨ wordLimit ≤ source.index + 1 →
          E g := by
        intro h
        refine herror fun _ _ => ⟨fun data hdata => ?_, fun _ _ => h⟩
        rw [hresult] at hdata
        cases hdata
      split
      · rename_i hback
        exact runs_bind (runs_throw (hstop (.inl ((hg.same_or_hasPath_iff Eq.symm).mp hback))))
      · rename_i hback
        rw [hg.same_or_hasPath_iff Eq.symm] at hback
        refine runs_bind (runs_attempt (fun _ _ _ => ?_) fun error hnode => ?_)
        · refine runs_bind (runs_attempt (fun _ _ _ => ?_) fun error hsum => ?_)
          · exact runs_insertLink hg hsource hport (Option.map_eq_none_iff.mp hresult) hfree hback
              fun name => hnew name hsource hport hresult hfree hback
          · refine hstop (.inr (Nat.not_lt.mp fun hlt => ?_))
            rw [checkedAdd, if_pos hlt] at hsum
            cases hsum
        · obtain ⟨o, ho⟩ := kind?_eq_op.mp hsource
          obtain ⟨n, hn, -⟩ := Option.bind_eq_some_iff.mp ho
          rw [node_eq_ok.mpr hn] at hnode
          cases hnode

/-- An edge moves to a free port if the new wire is admitted beside it. -/
theorem runs_moveInput {Q : Unit → Graph α → Prop} (hg : g.WellFormed) {old new : InputPort}
    (hmoved : ∀ e k, g.edgeInto? old = some e → old ≠ new → g.kind? e.src = some k →
      g.Admits (wireBetween k e.src 0 new.node new.index) →
      Q () ((g.eraseEdge e.id).insertEdge (wireBetween k e.src 0 new.node new.index)))
    (hsame : g.edgeInto? old ≠ none → old = new → Q () g)
    (herror : (∀ e k, g.edgeInto? old = some e → g.kind? e.src = some k →
      ¬ g.Admits (wireBetween k e.src 0 new.node new.index)) → E g) :
    Runs (moveInput old new) ⟨g, notes⟩ Q E := by
  refine runs_bind (runs_graph fun _ => ?_)
  cases he : g.edgeInto? old with
  | none =>
    refine runs_throw (herror fun e k hedge _ => ?_)
    rw [he] at hedge
    cases hedge
  | some e =>
    dsimp only
    split
    · rename_i hports
      exact runs_pure (hsame (by rw [he]; exact Option.some_ne_none e) hports)
    · rename_i hports
      refine runs_bind (runs_attempt (fun w hw _ => ?_) fun error hw => ?_)
      · obtain ⟨k, hk, rfl, hadmits⟩ := (checkWire_eq_ok_iff hg).mp hw
        refine runs_bind (runs_detach hg fun _ => runs_bind (runs_insertEdge ?_ fun _ => ?_))
        · refine (hg.eraseEdge e.id).checkEnds_of_alternates ?_
          rw [Alternates, kind?_eraseEdge g e.id]
          exact hadmits.alternates
        · exact runs_pure (hmoved e k he hports hk hadmits)
      · refine herror fun f k hf hk hadmits => ?_
        obtain rfl : e = f := Option.some.inj (he.symm.trans hf)
        rw [(checkWire_eq_ok_iff hg).mpr ⟨k, hk, rfl, hadmits⟩] at hw
        cases hw

/-- An operator lets go of the data at a port and reads other data there. -/
theorem runs_refeed {Q : Unit → Graph α → Prop} (hg : g.WellFormed) {data : NodeId}
    {port : InputPort} (hdata : g.kind? data = some .data) (hport : g.kind? port.node = some .op)
    (h : Q () (g.refeed data port)) : Runs (refeed data port) ⟨g, notes⟩ Q E := by
  rw [Graph.refeed] at h
  refine runs_bind (runs_graph fun _ => ?_)
  have halternates : g.Alternates ⟨data, 0, port.node, port.index⟩ := .inr ⟨hdata, hport, rfl⟩
  cases he : g.edgeInto? port with
  | none =>
    rw [he] at h
    exact runs_bind (runs_insertEdge (hg.checkEnds_of_alternates halternates) fun _ => runs_pure h)
  | some e =>
    rw [he] at h
    refine runs_bind (runs_detach hg fun _ => runs_bind (runs_insertEdge ?_ fun _ => runs_pure h))
    refine (hg.eraseEdge e.id).checkEnds_of_alternates ?_
    rw [Alternates, kind?_eraseEdge g e.id]
    exact halternates

/-- Ports are fed with other data one after the other; none of them reaches the data. -/
theorem runs_refeedAll {Q : PUnit → Graph α → Prop} (hg : g.WellFormed) {data : NodeId}
    {ports : List InputPort} (hdata : g.kind? data = some .data)
    (hops : ∀ p ∈ ports, g.kind? p.node = some .op)
    (hback : ∀ p ∈ ports, ¬ ReflTransGen g.Joins p.node data)
    (h : Q ⟨⟩ (g.refeedAll data ports)) : Runs (ports.forM (refeed data)) ⟨g, notes⟩ Q E := by
  -- a port that was fed does not begin to reach the data, which comes before it
  refine (runs_forM (fun rest g' => g'.WellFormed ∧ g'.kind? = g.kind? ∧ rest ⊆ ports ∧
    (∀ p ∈ rest, ¬ ReflTransGen g'.Joins p.node data) ∧
      g'.refeedAll data rest = g.refeedAll data ports) ?_ _ _
    ⟨hg, rfl, List.Subset.refl _, hback, rfl⟩).imp (fun _ g' hdone => ?_) fun _ hE => hE
  · rintro port rest ⟨g', _⟩ ⟨hg', hkind, hsub, hback', hrest⟩
    obtain ⟨hport, hsub⟩ := List.cons_subset.mp hsub
    have hdata' : g'.kind? data = some .data := hkind ▸ hdata
    have hport' : g'.kind? port.node = some .op := hkind ▸ hops port hport
    obtain ⟨hfed, hrest'⟩ := List.forall_mem_cons.mp hback'
    refine runs_refeed hg' hdata' hport' ⟨hg'.refeed hdata' hport' hfed, ?_, hsub, ?_, hrest⟩
    · exact (kind?_of_node? (node?_refeed g' data port)).trans hkind
    · exact fun p hp hpath => hrest' p hp (path_to_source (joins_refeed hg') hpath)
  · rw [← hdone.2.2.2.2] at h
    exact h

/-- All readers are looked at before the first one is moved. -/
theorem runs_clear {Q : PUnit → Graph α → Prop} (hg : g.WellFormed) {data : NodeId}
    {ports : List InputPort}
    (hok : (∀ p ∈ ports, ¬ ReflTransGen g.Joins p.node data) → Q ⟨⟩ g)
    (herror : (¬ ∀ p ∈ ports, ¬ ReflTransGen g.Joins p.node data) → E g) :
    Runs (ports.forM fun p => do
      if p.node = data || g.hasPath p.node data then
        throw (.cycle data p.node)) ⟨g, notes⟩ Q E := by
  induction ports generalizing notes with
  | nil => exact runs_pure (hok (by simp))
  | cons p ports ih =>
    have hpath := hg.same_or_hasPath_iff (a := p.node) (b := data) id
    simp only [List.forall_mem_cons] at hok herror
    show Runs (_ >>= fun _ => ports.forM _) _ _ _
    refine runs_bind ?_
    dsimp only
    by_cases hp : ReflTransGen g.Joins p.node data
    · rw [if_pos (hpath.mpr hp)]
      exact runs_throw (herror fun h => h.1 hp)
    · rw [if_neg (mt hpath.mp hp)]
      exact runs_pure fun _ => ih (fun h => hok ⟨hp, h⟩) fun h => herror fun h' => h h'.2

/-- Readers can move to another data node if no path leads from one of them to it. -/
theorem runs_moveReaders {Q : Unit → Graph α → Prop} (hg : g.WellFormed) {old new : NodeId}
    (hmoved : g.kind? old = some .data → g.kind? new = some .data → old ≠ new →
      (∀ p ∈ g.readers old, ¬ ReflTransGen g.Joins p.node new) →
      Q () (g.refeedAll new (g.readers old)))
    (hsame : g.kind? old = some .data → old = new → Q () g)
    (herror : ¬ (g.kind? old = some .data ∧ g.kind? new = some .data ∧
      ∀ p ∈ g.readers old, ¬ ReflTransGen g.Joins p.node new) → E g) :
    Runs (moveReaders old new) ⟨g, notes⟩ Q E := by
  refine runs_bind (runs_requireKind (fun hold _ => ?_) fun hold => herror fun h => hold h.1)
  refine runs_bind (runs_requireKind (fun hnew _ => ?_) fun hnew => herror fun h => hnew h.2.1)
  split
  · rename_i heq
    exact runs_pure (hsame hold heq)
  · rename_i hne
    refine runs_bind (runs_graph fun _ => runs_bind (runs_clear hg (fun hclear _ => ?_) ?_))
    · exact runs_refeedAll hg hnew (hg.readers_op hold) hclear (hmoved hold hnew hne hclear)
    · exact fun hclosed => herror fun h => hclosed h.2.2

/-! ## Every edit keeps graphs well-formed -/

/-- New nodes have no edges. -/
theorem keeps_addNode (name : String) (payload : Payload α) :
    Keeps WellFormed WellFormed (addNode name payload) :=
  fun _ hg => runs_addNode (hg.insertNode _ _)

/-- What a node holds is no part of the wiring. -/
theorem keeps_setOperation (id : NodeId) (operation : Operation) :
    Keeps WellFormed WellFormed (setOperation id operation : Edit α Unit) :=
  fun _ hg => runs_setOperation
    (fun o ho => hg.setPayload (kind?_setPayload_op (kind?_eq_op.mpr ⟨o, ho⟩))) fun _ => hg

theorem keeps_setInference (id : NodeId) (inference : Option Inference) :
    Keeps WellFormed WellFormed (setInference id inference : Edit α Unit) :=
  fun _ hg => runs_setInference
    (fun o ho => hg.setPayload (kind?_setPayload_op (kind?_eq_op.mpr ⟨o, ho⟩))) fun _ => hg

theorem keeps_modifyContent (id : NodeId) (f : Content α → Content α) :
    Keeps WellFormed WellFormed (modifyContent id f) :=
  fun _ hg => runs_modifyContent
    (fun c hc => hg.setPayload (kind?_setPayload_data (kind?_eq_data.mpr ⟨c, hc⟩))) fun _ => hg

theorem keeps_setAttribute (id : NodeId) (name : String) (value : Option Attribute) :
    Keeps WellFormed WellFormed (setAttribute id name value : Edit α (Option Attribute)) :=
  fun _ hg => runs_setAttribute (fun _ _ attributes => hg.setAttributes id attributes) fun _ => hg

theorem keeps_setLayout (layout : Layout) :
    Keeps WellFormed WellFormed (setLayout layout : Edit α Unit) :=
  fun _ hg => runs_change (hg.setLayout layout)

/-- No edge is left behind at a node that goes. -/
theorem keeps_removeNode (id : NodeId) :
    Keeps WellFormed WellFormed (removeNode id : Edit α (Node α)) :=
  fun _ hg => runs_removeNode hg (fun _ _ _ => hg.eraseNode id) fun _ => hg

/-- Only wires that are admitted come in. -/
theorem keeps_addEdge (src : NodeId) (srcPort : Nat) (dst : NodeId) (dstPort : Nat) :
    Keeps WellFormed WellFormed (addEdge src srcPort dst dstPort : Edit α EdgeId) :=
  fun _ hg => runs_addEdge hg (fun _ _ hadmits => hg.insertEdge hadmits) fun _ => hg

/-- Fewer edges are in order if all of them are. -/
theorem keeps_removeEdge (id : EdgeId) :
    Keeps WellFormed WellFormed (removeEdge id : Edit α Edge) :=
  fun _ hg => runs_removeEdge hg (fun _ _ _ => hg.eraseEdge id) fun _ => hg

theorem keeps_feed (data : NodeId) (port : InputPort) :
    Keeps WellFormed WellFormed (feed data port : Edit α Unit) :=
  fun _ hg => runs_feed hg (fun _ hadmits => hg.insertEdge hadmits) fun _ => hg

theorem keeps_produce (port : OutputPort) (data : NodeId) :
    Keeps WellFormed WellFormed (produce port data : Edit α Unit) :=
  fun _ hg => runs_produce hg (fun _ hadmits => hg.insertEdge hadmits) fun _ => hg

theorem keeps_unplug (port : InputPort) :
    Keeps WellFormed WellFormed (unplug port : Edit α (Option NodeId)) :=
  fun _ hg => runs_unplug hg (fun e _ _ => hg.eraseEdge e.id) (fun _ _ => hg) fun _ => hg

theorem keeps_release (port : OutputPort) :
    Keeps WellFormed WellFormed (release port : Edit α (Option NodeId)) :=
  fun _ hg => runs_release hg (fun e _ _ _ => hg.eraseEdge e.id) (fun _ _ => hg) fun _ => hg

/-- Both edges of a link are admitted. -/
theorem keeps_link (source : OutputPort) (port : InputPort) :
    Keeps WellFormed WellFormed (link source port : Edit α NodeId) := by
  intro s hg
  refine runs_link hg (fun _ _ _ _ hadmits => hg.insertEdge hadmits) ?_ fun _ => hg
  intro name hsource hport hresult hfree hback
  rw [result?, Option.map_eq_none_iff] at hresult
  exact hg.insertLink hsource hport (hg.edgeOutOf?_eq_none_iff.mp hresult)
    (hg.edgeInto?_eq_none_iff.mp hfree) hback

/-- A wire that is admitted beside the old one is admitted without it. -/
theorem keeps_moveInput (old new : InputPort) :
    Keeps WellFormed WellFormed (moveInput old new : Edit α Unit) := by
  intro s hg
  refine runs_moveInput hg (fun e k he _ _ hadmits => ?_) (fun _ _ => hg) fun _ => hg
  have hmem := (hg.edgeInto?_spec he).1
  exact (hg.eraseEdge e.id).insertEdge
    (hadmits.mono (kind?_eraseEdge _ e.id) fun v hv => ((hg.wired_eraseEdge hmem).mp hv).1)

/-- All readers are clear of a cycle before the first of them is moved. -/
theorem keeps_moveReaders (old new : NodeId) :
    Keeps WellFormed WellFormed (moveReaders old new : Edit α Unit) := by
  intro s hg
  refine runs_moveReaders hg (fun hold hnew _ hclear => ?_) (fun _ _ => hg) fun _ => hg
  exact (WellFormed.refeedAll _ hg hnew (hg.readers_op hold) hclear).1

theorem keeps_order : Keeps WellFormed WellFormed (order : Edit α (List NodeId)) :=
  fun _ hg => runs_bind (runs_graph fun _ => runs_bind (runs_change fun _ => runs_pure hg.remember))

/-! ## Properties that every edit keeps -/

/-- Every edit keeps the property, whether it succeeds or fails. -/
structure KeptByEdits (P : Graph α → Prop) : Prop where
  addNode : ∀ name payload, Keeps P P (addNode name payload)
  setOperation : ∀ id operation, Keeps P P (setOperation id operation)
  setInference : ∀ id inference, Keeps P P (setInference id inference)
  modifyContent : ∀ id f, Keeps P P (modifyContent id f)
  setAttribute : ∀ id name value, Keeps P P (setAttribute id name value)
  setLayout : ∀ layout, Keeps P P (setLayout layout)
  removeNode : ∀ id, Keeps P P (removeNode id)
  addEdge : ∀ src srcPort dst dstPort, Keeps P P (addEdge src srcPort dst dstPort)
  removeEdge : ∀ id, Keeps P P (removeEdge id)
  feed : ∀ data port, Keeps P P (feed data port)
  produce : ∀ port data, Keeps P P (produce port data)
  unplug : ∀ port, Keeps P P (unplug port)
  release : ∀ port, Keeps P P (release port)
  link : ∀ source port, Keeps P P (link source port)
  moveInput : ∀ old new, Keeps P P (moveInput old new)
  moveReaders : ∀ old new, Keeps P P (moveReaders old new)
  order : Keeps P P order

/-- **Every edit keeps graphs well-formed**, whether it succeeds or fails. -/
theorem keptByEdits_wellFormed : KeptByEdits (WellFormed : Graph α → Prop) where
  addNode := keeps_addNode
  setOperation := keeps_setOperation
  setInference := keeps_setInference
  modifyContent := keeps_modifyContent
  setAttribute := keeps_setAttribute
  setLayout := keeps_setLayout
  removeNode := keeps_removeNode
  addEdge := keeps_addEdge
  removeEdge := keeps_removeEdge
  feed := keeps_feed
  produce := keeps_produce
  unplug := keeps_unplug
  release := keeps_release
  link := keeps_link
  moveInput := keeps_moveInput
  moveReaders := keeps_moveReaders
  order := keeps_order

end TensorGraph.Edit
