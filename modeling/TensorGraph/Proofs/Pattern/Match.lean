/-
  The matches that the search finds.

  A list of nodes that `Binds` the first roles of a pattern is a partial solution.  A node is
  accepted for the next role exactly if it extends the partial solution (`accepts_iff`), and every
  node that does so is among the candidates (`mem_candidates`): the neighbours of a bound role
  contain it because the edge of the pattern has to be there.  So by induction over the remaining
  roles the search lists the solutions that extend what is bound, each once.

  `Match.Fits` says the same without positions, in terms of the role names of a description; that is
  how rules and the main statement `allMatches_exact` read a match.
-/
import TensorGraph.Proofs.Graph.View
import TensorGraph.Proofs.Reachable

namespace TensorGraph

variable {α : Type}

namespace Pattern

variable {p : Pattern} {g : Graph α}

/-! ## Partial solutions -/

theorem hasEdge_iff (hg : g.WellFormed) {bound : List NodeId} {e : PatternEdge} :
    hasEdge g bound e = true ↔ ∃ src dst, bound[e.src]? = some src ∧ bound[e.dst]? = some dst ∧
      ∃ w ∈ g.edges, w.src = src ∧ w.dst = dst ∧ ∀ port ∈ e.port, port = g.operatorPort w := by
  rw [hasEdge]
  split
  · rename_i src dst hsrc hdst
    simp only [List.any_eq_true, hg.mem_outEdges, beq_iff_eq, Bool.and_eq_true, Option.all_eq_true]
    constructor
    · rintro ⟨w, ⟨hw, rfl⟩, rfl, hport⟩
      exact ⟨_, _, hsrc, hdst, w, hw, rfl, rfl, hport⟩
    · rintro ⟨src', dst', hsrc', hdst', w, hw, rfl, rfl, hport⟩
      rw [hsrc] at hsrc'
      rw [hdst] at hdst'
      cases hsrc'
      cases hdst'
      exact ⟨w, ⟨hw, rfl⟩, rfl, hport⟩
  · rename_i hnone
    refine iff_of_false (by simp) ?_
    rintro ⟨src, dst, hsrc, hdst, _⟩
    exact hnone src dst hsrc hdst

/-- Longer lists bind the same nodes to the first roles. -/
theorem hasEdge_append {bound rest : List NodeId} {e : PatternEdge}
    (hlt : max e.src e.dst < bound.length) :
    hasEdge g (bound ++ rest) e = hasEdge g bound e := by
  have hsrc : e.src < bound.length := Nat.lt_of_le_of_lt (Nat.le_max_left _ _) hlt
  have hdst : e.dst < bound.length := Nat.lt_of_le_of_lt (Nat.le_max_right _ _) hlt
  rw [hasEdge, hasEdge, List.getElem?_append_left hsrc, List.getElem?_append_left hdst]

/-- The nodes can be bound to the first roles: they are distinct and live, they meet the conditions
of their roles, and the edges between these roles are there. -/
structure Binds (p : Pattern) (g : Graph α) (bound : List NodeId) : Prop where
  distinct : bound.Nodup
  roles : ∀ (i : Nat) (id : NodeId), bound[i]? = some id →
    ∃ (role : Role) (n : Node α), p.roles[i]? = some role ∧ g.node? id = some n ∧ role.predicate.holds n = true
  edges : ∀ e ∈ p.edges, max e.src e.dst < bound.length → hasEdge g bound e = true

theorem Binds.of_append {bound rest : List NodeId} (h : p.Binds g (bound ++ rest)) :
    p.Binds g bound where
  distinct := h.distinct.of_append_left
  roles := by
    intro i id hi
    refine h.roles i id ?_
    rw [List.getElem?_append_left (List.getElem?_eq_some_iff.mp hi).1]
    exact hi
  edges := by
    intro e he hlt
    have hlong : max e.src e.dst < (bound ++ rest).length :=
      Nat.lt_of_lt_of_le hlt (by simp)
    rw [← hasEdge_append hlt]
    exact h.edges e he hlong

/-- A node is accepted exactly if it extends the partial solution. -/
theorem accepts_iff {role : Role} {bound : List NodeId} {id : NodeId} (hbound : p.Binds g bound)
    (hrole : p.roles[bound.length]? = some role) :
    p.accepts g role bound id = true ↔ p.Binds g (bound ++ [id]) := by
  -- edges among the nodes that are bound hold already: only those at the new node are looked at
  have hedges : (∀ e ∈ p.edges, max e.src e.dst = bound.length →
      hasEdge g (bound ++ [id]) e = true) ↔
      ∀ e ∈ p.edges, max e.src e.dst < (bound ++ [id]).length →
        hasEdge g (bound ++ [id]) e = true := by
    refine forall_congr' fun e => forall_congr' fun he => ?_
    rw [List.length_append, List.length_singleton]
    constructor
    · intro h hlt
      rcases Nat.lt_or_eq_of_le (Nat.le_of_lt_succ hlt) with hlt | heq
      · rw [hasEdge_append hlt]
        exact hbound.edges e he hlt
      · exact h heq
    · intro h heq
      exact h (heq ▸ Nat.lt_succ_self _)
  have haccepts : p.accepts g role bound id = true ↔
      (id ∉ bound ∧ ∃ n, g.node? id = some n ∧ role.predicate.holds n = true) ∧
        ∀ e ∈ p.edges, max e.src e.dst = bound.length → hasEdge g (bound ++ [id]) e = true := by
    rw [accepts]
    cases g.node? id <;> simp [← imp_iff_not_or]
  rw [haccepts, hedges]
  constructor
  · rintro ⟨⟨hnew, n, hn, hholds⟩, hedges⟩
    refine ⟨?_, ?_, hedges⟩
    · rw [List.nodup_append]
      exact ⟨hbound.distinct, List.nodup_singleton _, fun a ha b hb => by
        rw [List.mem_singleton.mp hb]
        rintro rfl
        exact hnew ha⟩
    · intro i x hi
      rcases Nat.lt_or_ge i bound.length with hlt | hge
      · rw [List.getElem?_append_left hlt] at hi
        exact hbound.roles i x hi
      · rw [List.getElem?_append_right hge, List.getElem?_singleton] at hi
        split at hi
        · rename_i hzero
          cases hi
          have heq : i = bound.length := Nat.le_antisymm (Nat.sub_eq_zero_iff_le.mp hzero) hge
          exact ⟨role, n, heq ▸ hrole, hn, hholds⟩
        · cases hi
  · intro h
    obtain ⟨role', n, hrole', hn, hholds⟩ := h.roles bound.length id (by simp)
    obtain rfl : role = role' := Option.some.inj (hrole.symm.trans hrole')
    refine ⟨⟨fun hmem => ?_, n, hn, hholds⟩, h.edges⟩
    have hdistinct := List.nodup_append.mp h.distinct
    exact hdistinct.2.2 id hmem id (List.mem_singleton_self _) rfl

/-- Every node that extends a partial solution is tried. -/
theorem mem_candidates (hg : g.WellFormed) {bound : List NodeId} {id : NodeId}
    (h : p.Binds g (bound ++ [id])) : id ∈ p.candidates g g.topologicalOrder bound := by
  have hlast : (bound ++ [id])[bound.length]? = some id := by simp
  rw [candidates]
  split
  · rename_i nodes hnodes
    obtain ⟨e, he, hnodes⟩ := List.exists_of_findSome?_eq_some hnodes
    rw [mem_ascending]
    split at hnodes
    · rename_i hdst
      obtain ⟨a, ha, rfl⟩ := Option.map_eq_some_iff.mp hnodes
      have hlt := (List.getElem?_eq_some_iff.mp ha).1
      obtain ⟨src, dst, hsrc', hdst', w, hw, rfl, rfl, _⟩ := (hasEdge_iff hg).mp
        (h.edges e he (by rw [hdst]; simp; omega))
      rw [hdst, hlast] at hdst'
      rw [List.getElem?_append_left hlt, ha] at hsrc'
      cases hdst'
      cases hsrc'
      exact hg.mem_successors.mpr ⟨w, hw, rfl, rfl⟩
    · split at hnodes
      · rename_i hsrc
        obtain ⟨b, hb, rfl⟩ := Option.map_eq_some_iff.mp hnodes
        have hlt := (List.getElem?_eq_some_iff.mp hb).1
        obtain ⟨src, dst, hsrc', hdst', w, hw, rfl, rfl, _⟩ := (hasEdge_iff hg).mp
          (h.edges e he (by rw [hsrc]; simp; omega))
        rw [hsrc, hlast] at hsrc'
        rw [List.getElem?_append_left hlt, hb] at hdst'
        cases hsrc'
        cases hdst'
        exact hg.mem_predecessors.mpr ⟨w, hw, rfl, rfl⟩
      · cases hnodes
  · obtain ⟨_, n, _, hn, _⟩ := h.roles bound.length id hlast
    rw [hg.mem_topologicalOrder, Graph.hasNode, hn]
    rfl

theorem candidates_nodup (hg : g.WellFormed) (bound : List NodeId) :
    (p.candidates g g.topologicalOrder bound).Nodup := by
  rw [candidates]
  split
  · exact ascending_nodup _
  · exact hg.topologicalOrder_perm.nodup_iff.mpr hg.ids_nodup

/-! ## The search -/

/-- The search lists the solutions that extend what is bound. -/
theorem mem_extensions (hg : g.WellFormed) {found : List NodeId} :
    ∀ (roles done : List Role) (bound : List NodeId), p.roles = done ++ roles →
      bound.length = done.length → p.Binds g bound →
      (found ∈ p.extensions g g.topologicalOrder roles bound ↔
        bound <+: found ∧ found.length = p.roles.length ∧ p.Binds g found) := by
  intro roles
  induction roles with
  | nil =>
    intro done bound hroles hlength hbound
    rw [extensions, List.mem_singleton, hroles, List.append_nil, ← hlength]
    constructor
    · rintro rfl
      exact ⟨List.prefix_rfl, rfl, hbound⟩
    · rintro ⟨hpre, hsame, _⟩
      exact (hpre.eq_of_length hsame.symm).symm
  | cons role roles ih =>
    intro done bound hroles hlength hbound
    have hrole : p.roles[bound.length]? = some role := by
      rw [hroles, hlength]
      simp
    have hnext : ∀ id, p.Binds g (bound ++ [id]) →
        (found ∈ p.extensions g g.topologicalOrder roles (bound ++ [id]) ↔
          bound ++ [id] <+: found ∧ found.length = p.roles.length ∧ p.Binds g found) := fun id =>
      ih (done ++ [role]) (bound ++ [id]) (by rw [hroles]; simp) (by simp [hlength])
    simp only [extensions, List.mem_flatMap, List.mem_filter]
    constructor
    · rintro ⟨id, ⟨_, haccepts⟩, hfound⟩
      obtain ⟨hpre, hrest⟩ := (hnext id ((accepts_iff hbound hrole).mp haccepts)).mp hfound
      exact ⟨(List.prefix_append _ _).trans hpre, hrest⟩
    · rintro ⟨⟨rest, rfl⟩, hfull, hbinds⟩
      -- a solution is longer than what is bound, so it has a node for this role
      cases rest with
      | nil =>
        rw [List.append_nil, hroles] at hfull
        simp [hlength] at hfull
      | cons id rest =>
        rw [List.append_cons bound id rest] at hfull hbinds hnext ⊢
        have hid := hbinds.of_append
        exact ⟨id, ⟨mem_candidates hg hid, (accepts_iff hbound hrole).mpr hid⟩,
          (hnext id hid).mpr ⟨List.prefix_append _ _, hfull, hbinds⟩⟩

/-- All that the search lists extends what is bound. -/
theorem extensions_extend {order : List NodeId} {found : List NodeId} :
    ∀ (roles : List Role) (bound : List NodeId), found ∈ p.extensions g order roles bound →
      bound <+: found := by
  intro roles
  induction roles with
  | nil =>
    intro bound h
    rw [extensions, List.mem_singleton] at h
    rw [h]
  | cons role roles ih =>
    intro bound h
    obtain ⟨id, _, hfound⟩ := List.mem_flatMap.mp h
    exact (List.prefix_append _ _).trans (ih _ hfound)

/-- The search lists nothing twice: different nodes for a role give different solutions. -/
theorem extensions_nodup (hg : g.WellFormed) (roles : List Role) (bound : List NodeId) :
    (p.extensions g g.topologicalOrder roles bound).Nodup := by
  induction roles generalizing bound with
  | nil => exact List.nodup_singleton _
  | cons role roles ih =>
    refine List.nodup_flatMap.mpr ⟨fun id _ => ih _, ?_⟩
    refine ((candidates_nodup hg bound).filter _).imp fun {a b} hne => ?_
    intro found ha hb
    have hpa := extensions_extend roles _ ha
    have hpb := extensions_extend roles _ hb
    have hsame := List.prefix_of_prefix_length_le hpa hpb (by simp)
    exact hne (by simpa using hsame.eq_of_length (by simp))

theorem binds_nil : p.Binds g [] where
  distinct := List.nodup_nil
  roles := by simp
  edges := by simp

theorem mem_allMatches (hg : g.WellFormed) {m : Match} :
    m ∈ p.allMatches g ↔
      ∃ bound, m = p.toMatch bound ∧ bound.length = p.roles.length ∧ p.Binds g bound := by
  rw [allMatches, List.mem_map]
  simp only [mem_extensions hg p.roles [] [] rfl rfl binds_nil, List.nil_prefix, true_and]
  constructor
  · rintro ⟨bound, hbound, rfl⟩
    exact ⟨bound, rfl, hbound⟩
  · rintro ⟨bound, rfl, hbound⟩
    exact ⟨bound, hbound, rfl⟩

theorem allMatches_nodup (hg : g.WellFormed) : (p.allMatches g).Nodup := by
  refine (extensions_nodup hg p.roles []).map_on fun a ha b hb hsame => ?_
  have hlength : ∀ x ∈ p.extensions g g.topologicalOrder p.roles [], x.length = p.roles.length :=
    fun x hx => ((mem_extensions hg p.roles [] [] rfl rfl binds_nil).mp hx).2.1
  rw [← toMatch_nodes (hlength a ha), ← toMatch_nodes (hlength b hb), hsame]

/-! ## Names of roles -/

theorem position?_eq_some_iff {roles : List Role} (hnames : (roles.map (·.name)).Nodup)
    {name : String} {i : Nat} :
    position? roles name = some i ↔ (roles.map (·.name))[i]? = some name := by
  rw [position?, List.findIdx?_eq_some_iff_getElem, List.getElem?_eq_some_iff]
  simp only [List.length_map, List.getElem_map, beq_iff_eq]
  constructor
  · rintro ⟨hi, hname, _⟩
    exact ⟨hi, hname⟩
  · rintro ⟨hi, hname⟩
    refine ⟨hi, hname, fun j hj hsame => ?_⟩
    have hji : (roles.map (·.name))[j]? = (roles.map (·.name))[i]? := by
      rw [List.getElem?_map, List.getElem?_map, List.getElem?_eq_getElem (hj.trans hi),
        List.getElem?_eq_getElem hi, Option.map_some, Option.map_some, hsame, hname]
    have := (List.getElem?_inj (by simpa using hj.trans hi) hnames).mp hji
    omega

theorem buildEdge_eq_ok {roles : List Role} {e : EdgeDescription} {pe : PatternEdge} :
    buildEdge roles e = .ok pe ↔ position? roles e.src = some pe.src ∧
      position? roles e.dst = some pe.dst ∧ pe.src ≠ pe.dst ∧ pe.port = e.port := by
  obtain ⟨src, dst, port⟩ := pe
  rw [buildEdge, endpoint, endpoint]
  cases position? roles e.src with
  | none => simp [bind, Except.bind]
  | some i =>
    cases position? roles e.dst with
    | none => simp [bind, Except.bind]
    | some j =>
      by_cases hij : i = j
      · subst hij
        simp only [bind, Except.bind, throw, throwThe, MonadExceptOf.throw, reduceIte,
          Option.some.injEq, reduceCtorEq, false_iff]
        rintro ⟨rfl, rfl, hne, _⟩
        exact hne rfl
      · simp only [bind, Except.bind, hij, pure, Except.pure, reduceIte, Except.ok.injEq,
          PatternEdge.mk.injEq, Option.some.injEq]
        constructor
        · rintro ⟨rfl, rfl, rfl⟩
          exact ⟨rfl, rfl, hij, rfl⟩
        · rintro ⟨rfl, rfl, _, rfl⟩
          exact ⟨rfl, rfl, rfl⟩

/-- A pattern that can be built has the roles of its description, with distinct names, and the edges
of the description with positions for names. -/
theorem build_eq_ok {d : PatternDescription} (h : build d = .ok p) :
    p.roles = d.roles ∧ (d.roles.map (·.name)).Nodup ∧
      (∀ e ∈ d.edges, ∃ pe ∈ p.edges, buildEdge d.roles e = .ok pe) ∧
      ∀ pe ∈ p.edges, ∃ e ∈ d.edges, buildEdge d.roles e = .ok pe := by
  rw [build] at h
  split at h
  · cases h
  · cases hrepeat : firstRepeat? (d.roles.map (·.name)) with
    | some name =>
      simp only [hrepeat] at h
      cases h
    | none =>
      simp only [hrepeat] at h
      obtain ⟨edges, hedges, h⟩ := except_bind_eq_ok.mp h
      cases h
      exact ⟨rfl, firstRepeat?_eq_none_iff.mp hrepeat, except_mapM_mem hedges⟩

end Pattern

theorem Match.get_eq_ok_iff {m : Match} (hnames : (m.bindings.map (·.1)).Nodup) {role : String}
    {id : NodeId} :
    m.get role = .ok id ↔
      ∃ i : Nat, (m.bindings.map (·.1))[i]? = some role ∧ m.nodes[i]? = some id := by
  have hfind : m.get role = .ok id ↔ (role, id) ∈ m.bindings := by
    rw [get]
    constructor
    · intro h
      split at h
      · rename_i binding hfound
        cases h
        have hname : binding.1 = role := by simpa using List.find?_some hfound
        rw [← hname]
        exact List.mem_of_find?_eq_some hfound
      · cases h
    · intro hmem
      cases hfound : m.bindings.find? fun binding => binding.1 == role with
      | none =>
        have := List.find?_eq_none.mp hfound _ hmem
        simp at this
      | some binding =>
        have hname : binding.1 = role := by simpa using List.find?_some hfound
        have hsame : binding = (role, id) :=
          List.inj_on_of_nodup_map hnames (List.mem_of_find?_eq_some hfound) hmem hname
        rw [hsame]
  rw [hfind, List.mem_iff_getElem?]
  refine exists_congr fun i => ?_
  rw [nodes, List.getElem?_map, List.getElem?_map]
  cases m.bindings[i]? <;> simp [Prod.ext_iff]

/-! ## Matches of a description -/

/-- The match assigns distinct live nodes to the roles: every node meets the condition of its role,
and for every edge of the description the graph has one between the two nodes, at the given port on
its operator side. -/
structure Match.Fits (m : Match) (d : PatternDescription) (g : Graph α) : Prop where
  roles : m.bindings.map (·.1) = d.roles.map (·.name)
  injective : m.nodes.Nodup
  nodes : ∀ role ∈ d.roles, ∃ id n, m.get role.name = .ok id ∧ g.node? id = some n ∧
    role.predicate.holds n = true
  edges : ∀ e ∈ d.edges, ∃ src dst, m.get e.src = .ok src ∧ m.get e.dst = .ok dst ∧
    ∃ w ∈ g.edges, w.src = src ∧ w.dst = dst ∧ ∀ port ∈ e.port,
      (g.kind? src = some .op ∧ w.srcPort = port) ∨ (g.kind? dst = some .op ∧ w.dstPort = port)

/-- One end of an edge is an operator, and the port counts there. -/
theorem Graph.WellFormed.operatorPort_eq_iff {g : Graph α} (hg : g.WellFormed) {w : Edge}
    (hw : w ∈ g.edges) {port : Nat} :
    port = g.operatorPort w ↔
      (g.kind? w.src = some .op ∧ w.srcPort = port) ∨
        (g.kind? w.dst = some .op ∧ w.dstPort = port) := by
  show port = (if g.kind? w.src = some .op then w.srcPort else w.dstPort) ↔ _
  rcases hg.alternates w hw with ⟨hsrc, hdst, _⟩ | ⟨hsrc, hdst, _⟩ <;> simp [hsrc, hdst, eq_comm]

section Description

variable {g : Graph α} {d : PatternDescription} {p : Pattern}

/-- What fits a description binds the roles of its pattern. -/
theorem Match.Fits.binds (hg : g.WellFormed) (hp : Pattern.build d = .ok p) {m : Match}
    (h : m.Fits d g) :
    m = p.toMatch m.nodes ∧ m.nodes.length = p.roles.length ∧ p.Binds g m.nodes := by
  obtain ⟨hroles, hnames, _, hedges⟩ := Pattern.build_eq_ok hp
  have hkeys : (m.bindings.map (·.1)).Nodup := h.roles ▸ hnames
  have hlength : m.nodes.length = p.roles.length := by
    have hsame := congrArg List.length h.roles
    simpa [Match.nodes, hroles] using hsame
  -- a name stands at one position only
  have hposition : ∀ {i j : Nat} {name : String}, (m.bindings.map (·.1))[i]? = some name →
      (m.bindings.map (·.1))[j]? = some name → i = j := fun hi hj =>
    (List.getElem?_inj (List.getElem?_eq_some_iff.mp hi).1 hkeys).mp (hi.trans hj.symm)
  refine ⟨?_, hlength, h.injective, ?_, ?_⟩
  · have hzip := List.zip_of_prod h.roles (rfl : m.bindings.map Prod.snd = m.nodes)
    rw [Pattern.toMatch, hroles]
    exact congrArg Match.mk hzip
  · intro i id hi
    have hlt : i < d.roles.length := hroles ▸ hlength ▸ (List.getElem?_eq_some_iff.mp hi).1
    obtain ⟨id', n, hgot, hn, hholds⟩ := h.nodes _ (List.getElem_mem hlt)
    obtain ⟨j, hj, hid'⟩ := (Match.get_eq_ok_iff hkeys).mp hgot
    have hji : j = i := by
      refine hposition hj ?_
      rw [h.roles, List.getElem?_map, List.getElem?_eq_getElem hlt]
      rfl
    obtain rfl : id' = id := Option.some.inj (hid'.symm.trans (hji ▸ hi))
    refine ⟨d.roles[i], n, ?_, hn, hholds⟩
    rw [hroles, List.getElem?_eq_getElem hlt]
  · intro pe hpe _
    obtain ⟨e, he, hbuild⟩ := hedges pe hpe
    obtain ⟨hsrc, hdst, _, hport⟩ := Pattern.buildEdge_eq_ok.mp hbuild
    rw [Pattern.position?_eq_some_iff hnames, ← h.roles] at hsrc hdst
    obtain ⟨src, dst, hgsrc, hgdst, w, hw, rfl, rfl, hports⟩ := h.edges e he
    obtain ⟨i, hi, hi'⟩ := (Match.get_eq_ok_iff hkeys).mp hgsrc
    obtain ⟨j, hj, hj'⟩ := (Match.get_eq_ok_iff hkeys).mp hgdst
    obtain rfl := hposition hi hsrc
    obtain rfl := hposition hj hdst
    refine (Pattern.hasEdge_iff hg).mpr ⟨_, _, hi', hj', w, hw, rfl, rfl, fun port hmem => ?_⟩
    rw [hg.operatorPort_eq_iff hw]
    exact hports port (hport ▸ hmem)

/-- What binds the roles of a pattern fits its description. -/
theorem Pattern.Binds.fits (hg : g.WellFormed) (hp : Pattern.build d = .ok p)
    {bound : List NodeId} (hlength : bound.length = p.roles.length) (h : p.Binds g bound) :
    (p.toMatch bound).Fits d g := by
  obtain ⟨hroles, hnames, hedges, _⟩ := Pattern.build_eq_ok hp
  have hnodes := Pattern.toMatch_nodes hlength
  have hfirst : (p.toMatch bound).bindings.map (·.1) = d.roles.map (·.name) := by
    rw [Pattern.toMatch, hroles]
    exact List.map_fst_zip (by simp [hlength, hroles])
  have hget : ∀ {i : Nat} {name : String} {id : NodeId}, (d.roles.map (·.name))[i]? = some name →
      bound[i]? = some id → (p.toMatch bound).get name = .ok id := fun {i _ _} hname hid =>
    (Match.get_eq_ok_iff (hfirst ▸ hnames)).mpr ⟨i, hfirst ▸ hname, by rw [hnodes, hid]⟩
  refine ⟨hfirst, by rw [hnodes]; exact h.distinct, fun role hmem => ?_, fun e he => ?_⟩
  · obtain ⟨i, hi, rfl⟩ := List.getElem_of_mem hmem
    have hlt : i < bound.length := by
      rw [hlength, hroles]
      exact hi
    have hid := List.getElem?_eq_getElem hlt
    obtain ⟨role, n, hrole, hn, hholds⟩ := h.roles i _ hid
    rw [hroles, List.getElem?_eq_getElem hi] at hrole
    cases hrole
    refine ⟨_, n, hget ?_ hid, hn, hholds⟩
    rw [List.getElem?_map, List.getElem?_eq_getElem hi]
    rfl
  · obtain ⟨pe, hpe, hbuild⟩ := hedges e he
    obtain ⟨hsrc, hdst, _, hport⟩ := Pattern.buildEdge_eq_ok.mp hbuild
    rw [Pattern.position?_eq_some_iff hnames] at hsrc hdst
    have hlt : ∀ {i : Nat} {name : String}, (d.roles.map (·.name))[i]? = some name →
        i < bound.length := fun hi => by
      rw [hlength, hroles]
      simpa using (List.getElem?_eq_some_iff.mp hi).1
    have hthere := h.edges pe hpe (Nat.max_lt.mpr ⟨hlt hsrc, hlt hdst⟩)
    obtain ⟨src, dst, hi, hj, w, hw, rfl, rfl, hports⟩ := (Pattern.hasEdge_iff hg).mp hthere
    refine ⟨_, _, hget hsrc hi, hget hdst hj, w, hw, rfl, rfl, fun port hmem => ?_⟩
    rw [← hg.operatorPort_eq_iff hw]
    exact hports port (hport.symm ▸ hmem)

theorem Pattern.mem_allMatches_iff (hg : g.WellFormed) (hp : Pattern.build d = .ok p) {m : Match} :
    m ∈ p.allMatches g ↔ m.Fits d g := by
  rw [mem_allMatches hg]
  constructor
  · rintro ⟨bound, rfl, hlength, hbinds⟩
    exact hbinds.fits hg hp hlength
  · intro h
    exact ⟨m.nodes, h.binds hg hp⟩

end Description

/-! ## What a rule reads off a match -/

namespace Match.Fits

variable {m : Match} {d : PatternDescription} {g : Graph α} (h : m.Fits d g)
include h

theorem kind_eq_data {name : String} (hrole : ⟨name, .data⟩ ∈ d.roles) {id : NodeId}
    (hid : m.get name = .ok id) : g.kind? id = some .data := by
  obtain ⟨id', n, hid', hn, hholds⟩ := h.nodes _ hrole
  obtain rfl : id = id' := Except.ok.inj (hid.symm.trans hid')
  rw [Graph.kind?, hn]
  simpa [Predicate.holds, Predicate.data, Check.holds] using hholds

theorem operator_type {name : String} (type : Opcode) (hrole : ⟨name, .operator type⟩ ∈ d.roles)
    {id : NodeId} (hid : m.get name = .ok id) :
    ∃ o, g.operator? id = some o ∧ o.operation.type = type := by
  obtain ⟨id', n, hid', hn, hholds⟩ := h.nodes _ hrole
  obtain rfl : id = id' := Except.ok.inj (hid.symm.trans hid')
  have htype : n.operator?.map (fun o => o.operation.type) = some type := by
    simpa [Predicate.holds, Predicate.operator, Check.holds, Node.opcode?] using
      (List.all_eq_true.mp hholds) (.opcode type) (by simp [Predicate.operator])
  obtain ⟨o, ho, hotype⟩ := Option.map_eq_some_iff.mp htype
  exact ⟨o, by rw [Graph.operator?, hn]; exact ho, hotype⟩

variable (hg : g.WellFormed)
include hg

/-- A required edge to data with a port: the data is the result at that port. -/
theorem output_eq {src dst : String} {k : Nat} (hedge : ⟨src, dst, some k⟩ ∈ d.edges)
    (hrole : ⟨dst, .data⟩ ∈ d.roles) {a b : NodeId} (ha : m.get src = .ok a)
    (hb : m.get dst = .ok b) : g.view.output ⟨a, k⟩ = some b := by
  obtain ⟨a', b', ha', hb', w, hw, rfl, rfl, hport⟩ := h.edges _ hedge
  obtain rfl : a = w.src := Except.ok.inj (ha.symm.trans ha')
  obtain rfl : b = w.dst := Except.ok.inj (hb.symm.trans hb')
  exact hg.view_output_of_edge hw (h.kind_eq_data hrole hb) (hport k rfl)

/-- A required edge from data with a port: the data is what that port reads. -/
theorem input_eq {src dst : String} {k : Nat} (hedge : ⟨src, dst, some k⟩ ∈ d.edges)
    (hrole : ⟨src, .data⟩ ∈ d.roles) {a b : NodeId} (ha : m.get src = .ok a)
    (hb : m.get dst = .ok b) : g.view.input ⟨b, k⟩ = some a := by
  obtain ⟨a', b', ha', hb', w, hw, rfl, rfl, hport⟩ := h.edges _ hedge
  obtain rfl : a = w.src := Except.ok.inj (ha.symm.trans ha')
  obtain rfl : b = w.dst := Except.ok.inj (hb.symm.trans hb')
  exact hg.view_input_of_edge hw (h.kind_eq_data hrole ha) (hport k rfl)

end Match.Fits

/-- The matches of a pattern in a reachable graph are listed once each: every assignment that fits
the description, and nothing else. -/
theorem allMatches_exact [Scalar α] {g : Graph α} (hg : Reachable g) {d : PatternDescription}
    {p : Pattern} (hp : Pattern.build d = .ok p) :
    (p.allMatches g).Nodup ∧ ∀ m, m ∈ p.allMatches g ↔ m.Fits d g :=
  ⟨Pattern.allMatches_nodup hg.wellFormed, fun _ => Pattern.mem_allMatches_iff hg.wellFormed hp⟩

/-- A product of a graph input with itself: two wires between the same two nodes. -/
def squareCommands : List (Command Float) :=
  [.addOperator "x" .parameter, .addOperator "square" .mul, .link ⟨0, 0⟩ ⟨1, 0⟩, .feed 2 ⟨1, 1⟩]

/-- Data that a product reads. -/
def factorDescription : PatternDescription :=
  ⟨[⟨"factor", .data⟩, ⟨"product", .operator .mul⟩], [⟨"factor", "product", none⟩]⟩

def factorPattern : Pattern := ⟨factorDescription.roles, [⟨0, 1, none⟩]⟩

/-- Parallel wires give one match. -/
theorem allMatches_square :
    factorPattern.allMatches (runCommands .nchw squareCommands) =
        [⟨[("factor", 2), ("product", 1)]⟩] ∧
      (factorPattern.allMatches (runCommands .nchw squareCommands)).Nodup ∧
      ∀ m, m ∈ factorPattern.allMatches (runCommands .nchw squareCommands) ↔
        m.Fits factorDescription (runCommands .nchw squareCommands) :=
  ⟨by decide +kernel, allMatches_exact ⟨_, _, rfl⟩ rfl⟩

end TensorGraph
