/-
  Names and ids.

  A new node takes the first variant of its name that the dictionary of names does not have.  The
  variants of a name are all different, so one of them is free, and the bounded search for it does
  not miss it (`firstFree_freeName`).

  The dictionary is kept beside the nodes: a new node is entered, and a node that goes takes its
  name along.  That it has the names of the live nodes and no others, each with the id of its node,
  is what every step keeps (`Registered.names_exact`, `keptBySteps_registered`).  Hence names stay
  distinct, a node is found by its name, and a name that the dictionary does not have is one that no
  node has.

  The ids that a history gives away are the numbers from the first counter up to the last one
  (`History.ids_eq`).  They are given away once.  An id below the counter names the node it was
  given to, with its name and its kind, until the node is removed, and nothing afterwards
  (`Outlives`).
-/
import TensorGraph.Proofs.Graph.History

namespace TensorGraph

open Edit

variable {α : Type}

namespace Graph

/-! ## Free names -/

/-- Different numbers give different names. -/
theorem numbered_injective (base : String) : Function.Injective (numbered base) := by
  intro m n h
  rw [numbered, numbered, String.append_right_inj, Nat.toString_eq_ofList_toDigits,
    Nat.toString_eq_ofList_toDigits] at h
  have hdigits : Nat.toDigits 10 m = Nat.toDigits 10 n := String.ofList_injective h
  rw [← Nat.ofDigitChars_ten_toDigits (n := m), hdigits, Nat.ofDigitChars_ten_toDigits]

/-- There are more variants than names. -/
theorem exists_free_variant (g : Graph α) (base : String) :
    ∃ i < g.names.entries.length + 1, g.hasName (numbered base (i + 1)) = false := by
  by_contra hnone
  have htaken : (List.range (g.names.entries.length + 1)).map (fun i => numbered base (i + 1)) ⊆
      g.names.entries.map (·.1) := by
    intro name hname
    obtain ⟨i, hi, rfl⟩ := List.mem_map.mp hname
    rw [List.mem_range] at hi
    rw [← Dictionary.get?_isSome_iff]
    by_contra hfree
    exact hnone ⟨i, hi, Bool.eq_false_of_not_eq_true hfree⟩
  have hdistinct :
      ((List.range (g.names.entries.length + 1)).map fun i => numbered base (i + 1)).Nodup := by
    refine List.nodup_range.map fun i j h => ?_
    have hij := numbered_injective base h
    omega
  have hlength := (hdistinct.subperm htaken).length_le
  simp only [List.length_map, List.length_range] at hlength
  omega

/-- The name is free and the first such one: `base` itself, or its least variant that is free. -/
structure FirstFree (taken : String → Prop) (base name : String) : Prop where
  free : ¬ taken name
  first : name = base ∨ taken base ∧ ∃ n, 1 ≤ n ∧ name = numbered base n ∧
    ∀ m, 1 ≤ m → m < n → taken (numbered base m)

/-- A free name is the base, or the base with the least number that is free. -/
theorem firstFree_freeName (g : Graph α) (base : String) :
    FirstFree (fun name => g.hasName name = true) base (g.freeName base) := by
  by_cases hbase : g.hasName base = true
  · -- the search stops at the first variant that is free, and there is one
    obtain ⟨i, hi, hfree⟩ := exists_free_variant g base
    have hfound : ((List.range (g.names.entries.length + 1)).find?
        ((fun name => !g.hasName name) ∘ fun i => numbered base (i + 1))).isSome := by
      rw [List.find?_isSome]
      exact ⟨i, List.mem_range.mpr hi, by simp [hfree]⟩
    obtain ⟨k, hk⟩ := Option.isSome_iff_exists.mp hfound
    have hname : g.freeName base = numbered base (k + 1) := by
      rw [freeName, if_pos hbase]
      dsimp only
      rw [List.find?_map, hk]
      rfl
    obtain ⟨hkfree, -, hbefore⟩ := List.find?_range_eq_some.mp hk
    rw [hname]
    refine ⟨by simpa using hkfree, .inr ⟨hbase, k + 1, by omega, rfl, fun m hm hmk => ?_⟩⟩
    obtain ⟨j, rfl⟩ : ∃ j, m = j + 1 := ⟨m - 1, by omega⟩
    simpa using hbefore j (by omega)
  · have hname : g.freeName base = base := by rw [freeName, if_neg hbase]
    rw [hname]
    exact ⟨hbase, .inl rfl⟩

/-! ## Registers -/

/-- The entries of a graph are told apart: nodes by their ids and by their names, and all ids are
below the counters.  The tables have an entry for each id that was given away. -/
structure Registered (g : Graph α) : Prop where
  nodes_increasing : (g.nodes.map (·.id)).Pairwise (· < ·)
  nodes_below : ∀ n ∈ g.nodes, n.id < g.nextNode
  edges_below : ∀ e ∈ g.edges, e.id < g.nextEdge
  incoming_length : g.incoming.length = g.nextNode
  outgoing_length : g.outgoing.length = g.nextNode
  /-- The dictionary of names is exact. -/
  names_exact : ∀ name id, g.names.get? name = some id ↔ ∃ n ∈ g.nodes, n.name = name ∧ n.id = id

/-- The empty graph has no name registered. -/
theorem registered_empty (layout : Layout) : (Graph.empty layout : Graph α).Registered where
  nodes_increasing := .nil
  nodes_below := by simp [empty]
  edges_below := by simp [empty]
  incoming_length := rfl
  outgoing_length := rfl
  names_exact := by simp [empty, Dictionary.get?]

namespace Registered

variable {g : Graph α} (h : g.Registered)
include h

/-- What is found under an id is the node with this id. -/
theorem node?_iff {id : NodeId} {n : Node α} : g.node? id = some n ↔ n ∈ g.nodes ∧ n.id = id :=
  node?_eq_some_iff_of_nodup (h.nodes_increasing.imp Nat.ne_of_lt)

/-- Nodes of one name have one id, the one that the dictionary gives. -/
theorem eq_of_name {n n' : Node α} (hn : n ∈ g.nodes) (hn' : n' ∈ g.nodes) (hname : n.name = n'.name) :
    n = n' := by
  have hget := (h.names_exact n.name n.id).mpr ⟨n, hn, rfl, rfl⟩
  have hget' := (h.names_exact n.name n'.id).mpr ⟨n', hn', hname.symm, rfl⟩
  have hid : n.id = n'.id := Option.some.inj (hget.symm.trans hget')
  exact List.inj_on_of_nodup_map (h.nodes_increasing.imp Nat.ne_of_lt) hn hn' hid

/-- A name is taken if a live node has it. -/
theorem hasName_iff {name : String} :
    g.hasName name = true ↔ ∃ id n, g.node? id = some n ∧ n.name = name := by
  rw [hasName, Option.isSome_iff_exists]
  simp only [h.names_exact, h.node?_iff]
  constructor
  · rintro ⟨id, n, hn, hname, hid⟩
    exact ⟨id, n, ⟨hn, hid⟩, hname⟩
  · rintro ⟨id, n, ⟨hn, hid⟩, hname⟩
    exact ⟨id, n, hn, hname, hid⟩

/-- What a map over the nodes keeps. -/
theorem map (f : Node α → Node α) (hid : ∀ n, (f n).id = n.id) (hname : ∀ n, (f n).name = n.name) :
    Registered { g with nodes := g.nodes.map f } where
  nodes_increasing := by simpa [Function.comp_def, hid] using h.nodes_increasing
  nodes_below := by simpa [hid] using h.nodes_below
  edges_below := h.edges_below
  incoming_length := h.incoming_length
  outgoing_length := h.outgoing_length
  names_exact := by simpa [hid, hname] using h.names_exact

/-- A node under a free name gets the counter as its id, and the dictionary gives the id for the
name. -/
theorem insertNode {name : String} (payload : Payload α) (hfree : ¬ g.hasName name = true) :
    (g.insertNode name payload).Registered where
  nodes_increasing := (increasing_append h.nodes_increasing h.nodes_below).1
  nodes_below := (increasing_append h.nodes_increasing h.nodes_below).2
  edges_below := h.edges_below
  incoming_length := by simp [Graph.insertNode, h.incoming_length]
  outgoing_length := by simp [Graph.insertNode, h.outgoing_length]
  names_exact := by
    intro name' id
    simp only [Graph.insertNode, Dictionary.get?_insert, List.mem_append, List.mem_singleton]
    by_cases hsame : name' = name
    · subst hsame
      rw [if_pos rfl, Option.some.injEq]
      constructor
      · rintro rfl
        exact ⟨_, .inr rfl, rfl, rfl⟩
      · rintro ⟨n, hn | rfl, hname, hid⟩
        · -- no older node has the name
          exact absurd (h.hasName_iff.mpr ⟨n.id, n, h.node?_iff.mpr ⟨hn, rfl⟩, hname⟩) hfree
        · exact hid
    · rw [if_neg hsame, h.names_exact]
      constructor
      · rintro ⟨n, hn, hnode⟩
        exact ⟨n, .inl hn, hnode⟩
      · rintro ⟨n, hn | rfl, hname, hid⟩
        · exact ⟨n, hn, hname, hid⟩
        · exact absurd hname.symm hsame

/-- Edges have no names. -/
theorem insertEdge (wire : Wire) : (g.insertEdge wire).Registered where
  nodes_increasing := h.nodes_increasing
  nodes_below := h.nodes_below
  edges_below := by
    intro e he
    rcases List.mem_append.mp he with he | he
    · exact Nat.lt_succ_of_lt (h.edges_below e he)
    · rw [List.mem_singleton.mp he]
      exact Nat.lt_succ_self _
  incoming_length := by simp [Graph.insertEdge, h.incoming_length]
  outgoing_length := by simp [Graph.insertEdge, h.outgoing_length]
  names_exact := h.names_exact

/-- Without an edge, all names stay as they are. -/
theorem eraseEdge (id : EdgeId) : (g.eraseEdge id).Registered := by
  rw [Graph.eraseEdge]
  split
  · exact h
  · exact ⟨h.nodes_increasing, h.nodes_below, fun e he => h.edges_below e (List.mem_of_mem_filter he),
      by simp [h.incoming_length], by simp [h.outgoing_length], h.names_exact⟩

/-- The name of a node goes with it, since it is the name of no other. -/
theorem takeNode (id : NodeId) : (g.takeNode id).Registered := by
  rw [Graph.takeNode]
  split
  · exact h
  · rename_i n hn
    obtain ⟨hmem, rfl⟩ := h.node?_iff.mp hn
    have hnamed : g.names.get? n.name = some n.id := (h.names_exact _ _).mpr ⟨n, hmem, rfl, rfl⟩
    rw [if_pos hnamed]
    refine ⟨h.nodes_increasing.sublist (List.filter_sublist.map _),
      fun m hm => h.nodes_below m (List.mem_of_mem_filter hm), h.edges_below, h.incoming_length,
      h.outgoing_length, fun name id => ?_⟩
    simp only [Dictionary.get?_erase, List.mem_filter, bne_iff_ne]
    by_cases hsame : name = n.name
    · subst hsame
      rw [if_pos rfl]
      refine iff_of_false (by simp) ?_
      rintro ⟨m, ⟨hm, hother⟩, hname, -⟩
      exact hother (congrArg Node.id (h.eq_of_name hm hmem hname))
    · rw [if_neg hsame, h.names_exact]
      constructor
      · rintro ⟨m, hm, rfl, rfl⟩
        refine ⟨m, ⟨hm, fun hid => hsame ?_⟩, rfl, rfl⟩
        rw [List.inj_on_of_nodup_map (h.nodes_increasing.imp Nat.ne_of_lt) hm hmem hid]
      · rintro ⟨m, ⟨hm, -⟩, hnode⟩
        exact ⟨m, hm, hnode⟩

end Registered

/-- Every step keeps the register: the writes that nodes and edges come and go by write the
dictionary and the tables as well. -/
theorem keptBySteps_registered : KeptBySteps (Registered : Graph α → Prop) := by
  intro g ids g' hstep h
  cases hstep with
  | insertNode base payload => exact h.insertNode payload (firstFree_freeName g base).free
  | setPayload hkind => exact h.map _ (fun n => by split <;> rfl) fun n => by split <;> rfl
  | setAttributes id attributes => exact h.map _ (fun n => by split <;> rfl) fun n => by split <;> rfl
  | insertEdge wire => exact h.insertEdge wire
  | eraseEdge id => exact h.eraseEdge id
  | takeNode id => exact h.takeNode id
  | setLayout | remember =>
    exact ⟨h.nodes_increasing, h.nodes_below, h.edges_below, h.incoming_length, h.outgoing_length,
      h.names_exact⟩

/-- The nodes of a graph can be told by their names, which the dictionary has and no others. -/
structure Identified (g : Graph α) : Prop where
  names_distinct : ∀ id id' n n', g.node? id = some n → g.node? id' = some n' →
    n.name = n'.name → id = id'
  names_exact : ∀ name id, g.names.get? name = some id ↔ ∃ n, g.node? id = some n ∧ n.name = name
  named?_iff : ∀ name id, g.named? name = some id ↔ ∃ n, g.node? id = some n ∧ n.name = name
  freeName_first : ∀ base,
    FirstFree (fun name => ∃ id n, g.node? id = some n ∧ n.name = name) base (g.freeName base)

/-- A graph whose names are registered has distinct names and finds each of them. -/
theorem Registered.identified {g : Graph α} (h : g.Registered) : g.Identified := by
  have hexact : ∀ name id, g.names.get? name = some id ↔ ∃ n, g.node? id = some n ∧ n.name = name := by
    intro name id
    rw [h.names_exact]
    simp only [h.node?_iff]
    constructor
    · rintro ⟨n, hn, hname, hid⟩
      exact ⟨n, ⟨hn, hid⟩, hname⟩
    · rintro ⟨n, ⟨hn, hid⟩, hname⟩
      exact ⟨n, hn, hname, hid⟩
  refine ⟨?_, hexact, ?_, ?_⟩
  · intro id id' n n' hn hn' hname
    obtain ⟨hmem, rfl⟩ := h.node?_iff.mp hn
    obtain ⟨hmem', rfl⟩ := h.node?_iff.mp hn'
    rw [h.eq_of_name hmem hmem' hname]
  · intro name id
    rw [named?, Option.filter_eq_some_iff, hexact]
    refine and_iff_left_of_imp ?_
    rintro ⟨n, hn, -⟩
    rw [hasNode, hn]
    rfl
  · intro base
    have htaken : (fun name => g.hasName name = true) =
        fun name => ∃ id n, g.node? id = some n ∧ n.name = name :=
      funext fun name => propext h.hasName_iff
    rw [← htaken]
    exact firstFree_freeName g base

/-! ## Ids that are given away -/

/-- A step gives the next ids away, one after the other. -/
theorem Step.ids_eq {g g' : Graph α} {ids : List NodeId} (h : Step g ids g') :
    ids = List.range' g.nextNode ids.length ∧ g'.nextNode = g.nextNode + ids.length := by
  cases h with
  | eraseEdge id => exact ⟨rfl, nextNode_eraseEdge g id⟩
  | takeNode id => exact ⟨rfl, nextNode_takeNode g id⟩
  | _ => exact ⟨rfl, rfl⟩

/-- The ids that are given away are the numbers between the counters. -/
theorem History.ids_eq {g g' : Graph α} {ids : List NodeId} (h : History g ids g') :
    ids = List.range' g.nextNode ids.length ∧ g'.nextNode = g.nextNode + ids.length := by
  induction h with
  | start => exact ⟨rfl, rfl⟩
  | step _ hstep ih =>
    obtain ⟨hids, hnext⟩ := ih
    obtain ⟨hnew, hnext'⟩ := hstep.ids_eq
    rw [hnext] at hnew hnext'
    rw [List.length_append]
    constructor
    · rw [← List.range'_append_1, ← hids, ← hnew]
    · rw [hnext', Nat.add_assoc]

/-- All ids below the next one were given away. -/
theorem History.mem_ids_iff {layout : Layout} {g : Graph α} {ids : List NodeId}
    (h : History (Graph.empty layout) ids g) {id : NodeId} : id ∈ ids ↔ id < g.nextNode := by
  obtain ⟨hids, hnext⟩ := h.ids_eq
  have hzero : (Graph.empty layout : Graph α).nextNode = 0 := rfl
  rw [hids, List.mem_range'_1, hnext, hzero]
  exact and_iff_right (Nat.zero_le id)

/-- No id is given away twice. -/
theorem History.ids_nodup {g g' : Graph α} {ids : List NodeId} (h : History g ids g') :
    ids.Nodup := by
  rw [h.ids_eq.1]
  exact List.nodup_range' 1

/-! ## Lifetimes -/

/-- The name and the kind of a node. -/
def signature? (g : Graph α) (id : NodeId) : Option (String × Kind) :=
  (g.node? id).map fun n => (n.name, n.kind)

/-- An id that could be in use in the earlier graph stands in the later one for what it stood for
there, if for anything: for a node of that name and kind, or for that edge. -/
structure Outlives (g g' : Graph α) : Prop where
  nextNode_le : g.nextNode ≤ g'.nextNode
  nextEdge_le : g.nextEdge ≤ g'.nextEdge
  signature : ∀ id, id < g.nextNode → ∀ s, g'.signature? id = some s → g.signature? id = some s
  edges : ∀ e ∈ g'.edges, e.id < g.nextEdge → e ∈ g.edges

theorem Outlives.refl (g : Graph α) : g.Outlives g :=
  ⟨Nat.le_refl _, Nat.le_refl _, fun _ _ _ h => h, fun _ h _ => h⟩

/-- A new node leaves names and kinds of all others as they are. -/
theorem signature?_insertNode {g : Graph α} {name : String} {payload : Payload α} {id : NodeId}
    (hid : id ≠ g.nextNode) : (g.insertNode name payload).signature? id = g.signature? id := by
  rw [signature?, node?, insertNode, List.find?_append]
  simp [hid.symm, signature?, node?]

/-- What a node holds is no part of its name. -/
theorem signature?_setPayload {g : Graph α} {id : NodeId} {payload : Payload α}
    (hkind : (g.setPayload id payload).kind? = g.kind?) :
    (g.setPayload id payload).signature? = g.signature? := by
  funext x
  have hkind := congrFun hkind x
  rw [kind?, kind?] at hkind
  rw [signature?, signature?]
  rw [node?_setPayload] at hkind ⊢
  by_cases hx : x = id
  · subst hx
    rw [Function.update_self] at hkind ⊢
    cases hn : g.node? x with
    | none => rfl
    | some n =>
      rw [hn] at hkind
      simp only [Option.map_some, Option.some.injEq] at hkind ⊢
      rw [hkind]
  · rw [Function.update_of_ne hx]

theorem signature?_setAttributes (g : Graph α) (id : NodeId) (attributes : Attributes) :
    (g.setAttributes id attributes).signature? = g.signature? := by
  funext x
  rw [signature?, signature?, node?_setAttributes]
  by_cases hx : x = id
  · subst hx
    rw [Function.update_self, Option.map_map]
    rfl
  · rw [Function.update_of_ne hx]

/-- What is left has the name and kind that it had. -/
theorem signature?_takeNode {g : Graph α} {id x : NodeId} {s : String × Kind}
    (h : (g.takeNode id).signature? x = some s) : g.signature? x = some s := by
  rw [signature?, node?_takeNode] at h
  by_cases hx : x = id
  · subst hx
    rw [Function.update_self] at h
    cases h
  · rwa [Function.update_of_ne hx] at h

/-- A new node or edge takes the next id, which is not below the earlier counter. -/
theorem keptBySteps_outlives (g : Graph α) : KeptBySteps g.Outlives := by
  intro g' ids g'' hstep h
  cases hstep with
  | insertNode base payload =>
    refine ⟨Nat.le_succ_of_le h.nextNode_le, h.nextEdge_le, fun id hid s hs => ?_, h.edges⟩
    rw [signature?_insertNode (Nat.ne_of_lt (Nat.lt_of_lt_of_le hid h.nextNode_le))] at hs
    exact h.signature id hid s hs
  | setPayload hkind =>
    refine ⟨h.nextNode_le, h.nextEdge_le, fun id hid s hs => h.signature id hid s ?_, h.edges⟩
    rwa [signature?_setPayload hkind] at hs
  | setAttributes id attributes =>
    refine ⟨h.nextNode_le, h.nextEdge_le, fun id hid s hs => h.signature id hid s ?_, h.edges⟩
    rwa [signature?_setAttributes] at hs
  | insertEdge wire =>
    refine ⟨h.nextNode_le, Nat.le_succ_of_le h.nextEdge_le, h.signature, fun e he hid => ?_⟩
    rcases List.mem_append.mp he with he | he
    · exact h.edges e he hid
    · rw [List.mem_singleton.mp he] at hid
      exact absurd hid (Nat.not_lt.mpr h.nextEdge_le)
  | eraseEdge id =>
    refine ⟨nextNode_eraseEdge g' id ▸ h.nextNode_le, nextEdge_eraseEdge g' id ▸ h.nextEdge_le,
      fun x hx s hs => h.signature x hx s ?_, fun e he => h.edges e (mem_edges_eraseEdge.mp he).1⟩
    rwa [signature?, node?_eraseEdge] at hs
  | takeNode id =>
    refine ⟨nextNode_takeNode g' id ▸ h.nextNode_le, nextEdge_takeNode g' id ▸ h.nextEdge_le,
      fun x hx s hs => h.signature x hx s (signature?_takeNode hs), fun e he => h.edges e ?_⟩
    rwa [edges_takeNode] at he
  | setLayout | remember => exact ⟨h.nextNode_le, h.nextEdge_le, h.signature, h.edges⟩

/-- An edge is found if there is one with this id. -/
theorem edge?_ne_none_iff {g : Graph α} {id : EdgeId} :
    g.edge? id ≠ none ↔ ∃ e ∈ g.edges, e.id = id := by
  simp [edge?, List.find?_eq_none]

/-- A node or an edge that is gone does not come back, and a node stays what it is. -/
structure Succession (g₀ g₁ g₂ : Graph α) : Prop where
  nodes_gone : ∀ id, g₀.node? id ≠ none → g₁.node? id = none → g₂.node? id = none
  edges_gone : ∀ id, g₀.edge? id ≠ none → g₁.edge? id = none → g₂.edge? id = none
  nodes_kept : ∀ id n n', g₀.node? id = some n → g₁.node? id = some n' →
    n'.id = n.id ∧ n'.name = n.name ∧ n'.kind = n.kind

/-- Along two histories, one after the other, nodes keep their names and nothing comes back. -/
theorem Registered.succession {g₀ g₁ g₂ : Graph α} {ids₁ ids₂ : List NodeId} (h₀ : g₀.Registered)
    (h₁ : History g₀ ids₁ g₁) (h₂ : History g₁ ids₂ g₂) : Succession g₀ g₁ g₂ := by
  have hearlier : g₀.Outlives g₁ := (keptBySteps_outlives g₀).history h₁ (.refl g₀)
  have hlater : g₁.Outlives g₂ := (keptBySteps_outlives g₁).history h₂ (.refl g₁)
  constructor
  · intro id hlive hgone
    obtain ⟨n, hn⟩ := Option.ne_none_iff_exists'.mp hlive
    have hid : id < g₁.nextNode := by
      obtain ⟨hmem, rfl⟩ := h₀.node?_iff.mp hn
      exact Nat.lt_of_lt_of_le (h₀.nodes_below n hmem) hearlier.nextNode_le
    by_contra hback
    obtain ⟨n', hn'⟩ := Option.ne_none_iff_exists'.mp hback
    have hsignature := hlater.signature id hid (n'.name, n'.kind) (by rw [signature?, hn']; rfl)
    rw [signature?, hgone] at hsignature
    cases hsignature
  · intro id hlive hgone
    obtain ⟨e, he, rfl⟩ := edge?_ne_none_iff.mp hlive
    by_contra hback
    obtain ⟨e', he', hid⟩ := edge?_ne_none_iff.mp hback
    refine edge?_ne_none_iff.mpr ⟨e', hlater.edges e' he' ?_, hid⟩ hgone
    rw [hid]
    exact Nat.lt_of_lt_of_le (h₀.edges_below e he) hearlier.nextEdge_le
  · intro id n n' hn hn'
    obtain ⟨hmem, hid⟩ := h₀.node?_iff.mp hn
    have hsignature := hearlier.signature id (hid ▸ h₀.nodes_below n hmem) (n'.name, n'.kind)
      (by rw [signature?, hn']; rfl)
    rw [signature?, hn, Option.map_some, Option.some.injEq, Prod.mk.injEq] at hsignature
    exact ⟨(node?_id hn').trans hid.symm, hsignature.1.symm, hsignature.2.symm⟩

/-- The ids of the list have been given away, and those that are given away next are others. -/
structure Issued (g : Graph α) (ids : List NodeId) : Prop where
  live : ∀ id, g.node? id ≠ none → id ∈ ids
  addNode : ∀ name payload notes, Runs (addNode name payload) ⟨g, notes⟩
    (fun id g' => id ∉ ids ∧ History g [id] g') fun _ => False
  link : ∀ source port notes, Runs (link source port) ⟨g, notes⟩
    (fun id g' => (g.result? source = some id ∧ History g [] g') ∨ (id ∉ ids ∧ History g [id] g'))
    (· = g)

/-- Between nodes with entries in the tables a data node can be added with its two edges. -/
theorem Registered.runs_insertLink {g : Graph α} (hg : g.Registered) {notes : List LogEntry}
    {name : String} {source : OutputPort} {port : InputPort} {E : Graph α → Prop}
    (hsource : source.node < g.nextNode) (hport : port.node < g.nextNode) :
    Runs (Edit.insertLink name source port) ⟨g, notes⟩
      (fun id g' => id = g.nextNode ∧ History g [id] g') E := by
  have hwrite : ∀ {g' : Graph α} {w : Wire} {notes : List LogEntry} {Q : EdgeId → Graph α → Prop},
      g'.Registered → w.src < g'.nextNode → w.dst < g'.nextNode → Q g'.nextEdge (g'.insertEdge w) →
      Runs (Edit.insertEdge w) ⟨g', notes⟩ Q E := by
    intro g' w notes Q hg' hsrc hdst hQ
    refine runs_insertEdge (checkEnds_eq_ok_iff.mpr ?_) hQ
    rw [hg'.outgoing_length, hg'.incoming_length]
    exact ⟨hsrc, hdst⟩
  have hg₁ := hg.insertNode (.data {}) (firstFree_freeName g name).free
  have hnew : g.nextNode < g.nextNode + 1 := Nat.lt_succ_self _
  refine runs_bind (runs_addNode fun _ => ?_)
  refine runs_bind (hwrite hg₁ (Nat.lt_succ_of_lt hsource) hnew fun _ => ?_)
  refine runs_bind (hwrite (hg₁.insertEdge _) hnew (Nat.lt_succ_of_lt hport) fun _ => ?_)
  exact runs_pure ⟨rfl,
    ((History.start.step (.insertNode g name _)).step (.insertEdge _ _)).step (.insertEdge _ _)⟩

/-- Linking ports returns the data node that is there already, or a new one. -/
theorem Registered.runs_link {g : Graph α} (hg : g.Registered) {notes : List LogEntry}
    (source : OutputPort) (port : InputPort) :
    Runs (link source port) ⟨g, notes⟩ (fun id g' =>
      (g.result? source = some id ∧ History g [] g') ∨ (id = g.nextNode ∧ History g [id] g'))
      (· = g) := by
  have hlive : ∀ {id k}, g.kind? id = some k → id < g.nextNode := by
    intro id k hk
    obtain ⟨n, hn, -⟩ := Option.map_eq_some_iff.mp hk
    obtain ⟨hmem, rfl⟩ := hg.node?_iff.mp hn
    exact hg.nodes_below n hmem
  refine runs_bind (runs_requireKind (fun hsource _ => ?_) fun _ => rfl)
  refine runs_bind (runs_requireKind (fun hport _ => ?_) fun _ => rfl)
  refine runs_bind (runs_graph fun _ => ?_)
  dsimp only
  split
  · exact runs_bind (runs_throw rfl)
  refine runs_bind (runs_pure fun _ => ?_)
  split
  · -- the one edge is written after all checks, that of the tables included
    rename_i data hdata
    refine runs_bind (runs_bind (runs_requireKind (fun _ _ => ?_) fun _ => rfl))
    refine runs_bind (runs_bind (runs_query (fun w _ _ => ?_) fun _ _ => rfl))
    refine runs_bind (runs_graph fun _ => runs_bind (runs_attempt (fun _ _ _ => ?_) fun _ _ => rfl))
    refine runs_bind (runs_change fun _ => runs_pure fun _ => runs_pure fun _ => runs_pure ?_)
    exact .inl ⟨hdata, History.start.step (.insertEdge g w)⟩
  · split
    · exact runs_bind (runs_throw rfl)
    refine runs_bind (runs_attempt (fun n _ _ => ?_) fun _ _ => rfl)
    refine runs_bind (runs_attempt (fun number _ _ => ?_) fun _ _ => rfl)
    exact (hg.runs_insertLink (hlive hsource) (hlive hport)).imp (fun _ _ h => .inr h) fun _ h => h

/-- The ids that were given away are those of the live nodes and of the removed ones. -/
theorem Registered.issued {layout : Layout} {g : Graph α} {ids : List NodeId} (hg : g.Registered)
    (h : History (Graph.empty layout) ids g) : g.Issued ids := by
  have hnew : g.nextNode ∉ ids := fun hmem => Nat.lt_irrefl _ (h.mem_ids_iff.mp hmem)
  constructor
  · intro id hlive
    obtain ⟨n, hn⟩ := Option.ne_none_iff_exists'.mp hlive
    obtain ⟨hmem, rfl⟩ := hg.node?_iff.mp hn
    exact h.mem_ids_iff.mpr (hg.nodes_below n hmem)
  · intro name payload notes
    exact runs_addNode ⟨hnew, History.start.step (.insertNode g name payload)⟩
  · intro source port notes
    refine (hg.runs_link source port).imp (fun id g' h => ?_) fun _ h => h
    rcases h with h | ⟨rfl, h⟩
    · exact .inl h
    · exact .inr ⟨hnew, h⟩

end Graph

open TensorGraph.Graph

/-- Commands make a history. -/
theorem history_commands [Scalar α] (commands : List (Command α)) (s : Session α) :
    ∃ ids, History s.graph ids (commands.foldl Command.apply s).graph := by
  induction commands generalizing s with
  | nil => exact ⟨[], .start⟩
  | cons command rest ih =>
    obtain ⟨ids, h⟩ := Command.apply_keeps (keptBySteps_history s.graph).keptByEdits
      ⟨[], .start⟩ command
    obtain ⟨ids', h'⟩ := ih (Command.apply s command)
    exact ⟨ids ++ ids', h.trans h'⟩

/-- Two nodes of one name, the second of which has to go past a variant that is taken. -/
def namesakeCommands : List (Command Float) :=
  [.addData "a" {}, .addData "a_1" {}, .addData "a" {}]

end TensorGraph
