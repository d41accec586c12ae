/-
  The order of the matches.

  The search tries the nodes for a role one after the other and lists what it finds for the first
  before what it finds for the second.  A role that an edge ties to an earlier role is tried at
  neighbours, by id, and any other role along the topological order: in both cases the candidates
  come by increasing `rank` (`candidates_ranked`).  Two matches that part at a role then stand in
  the list as their ranks at this role do, whatever the later roles are bound to, so the list is
  sorted by the lists of ranks (`extensions_ranked`, by induction over the roles that are still
  open).

  The early exit takes the first match of this list that is not skipped.  Main statement:
  `allMatches_in_order`.
-/
import TensorGraph.Proofs.Pattern.Match

namespace TensorGraph

variable {α : Type}

namespace Pattern

variable {p : Pattern} {g : Graph α}

/-- An edge of the pattern joins the role to an earlier one. -/
def Tied (p : Pattern) (role : Nat) : Prop :=
  ∃ e ∈ p.edges, (e.dst = role ∧ e.src < role) ∨ (e.src = role ∧ e.dst < role)

instance (p : Pattern) (role : Nat) : Decidable (p.Tied role) :=
  inferInstanceAs (Decidable (∃ e ∈ p.edges, _))

/-- The place of a node among all that a role can be bound to. -/
def rank (p : Pattern) (g : Graph α) (role : Nat) (id : NodeId) : Nat :=
  if p.Tied role then id else g.topologicalOrder.idxOf id

/-- The ranks of the bound nodes, role by role. -/
def ranks (p : Pattern) (g : Graph α) (bound : List NodeId) : List Nat :=
  bound.mapIdx (p.rank g)

/-! ## The order of the candidates -/

/-- Neighbours are tried exactly for the roles that are tied to an earlier one. -/
theorem isSome_neighbours?_iff {bound : List NodeId} :
    (p.neighbours? g bound).isSome ↔ p.Tied bound.length := by
  rw [neighbours?, List.findSome?_isSome_iff]
  refine exists_congr fun e => and_congr_right fun _ => ?_
  split
  · rename_i hdst
    rw [Option.isSome_map, Option.isSome_iff_ne_none, ne_eq, List.getElem?_eq_none_iff]
    omega
  · split
    · rename_i hdst hsrc
      rw [Option.isSome_map, Option.isSome_iff_ne_none, ne_eq, List.getElem?_eq_none_iff]
      omega
    · simp [*]

theorem pairwise_idxOf_lt {order : List NodeId} (h : order.Nodup) :
    order.Pairwise fun a b => order.idxOf a < order.idxOf b := by
  refine List.pairwise_iff_getElem.mpr fun i j hi hj hij => ?_
  rwa [h.idxOf_getElem i hi, h.idxOf_getElem j hj]

theorem candidates_ranked (hg : g.WellFormed) (bound : List NodeId) :
    (p.candidates g g.topologicalOrder bound).Pairwise fun a b =>
      p.rank g bound.length a < p.rank g bound.length b := by
  rw [candidates]
  split
  · rename_i nodes hnodes
    have htied : p.Tied bound.length := isSome_neighbours?_iff.mp (Option.isSome_of_eq_some hnodes)
    simp only [rank, if_pos htied]
    exact ascending_increasing nodes
  · rename_i hnodes
    have hfree : ¬ p.Tied bound.length := fun htied => by
      have hsome := (isSome_neighbours?_iff (g := g)).mpr htied
      rw [hnodes] at hsome
      cases hsome
    simp only [rank, if_neg hfree]
    exact pairwise_idxOf_lt (hg.topologicalOrder_perm.nodup_iff.mpr hg.ids_nodup)

/-! ## The order of the matches -/

/-- Where two lists part, the ranks at this role decide. -/
theorem ranks_lt {bound rest rest' : List NodeId} {a b : NodeId}
    (h : p.rank g bound.length a < p.rank g bound.length b) :
    p.ranks g (bound ++ a :: rest) < p.ranks g (bound ++ b :: rest') := by
  simp only [ranks, List.mapIdx_append, List.mapIdx_cons, Nat.zero_add]
  exact List.append_left_lt (List.cons_lt_cons_iff.mpr (.inl h))

theorem extensions_ranked (hg : g.WellFormed) (roles : List Role) (bound : List NodeId) :
    (p.extensions g g.topologicalOrder roles bound).Pairwise fun found found' =>
      p.ranks g found < p.ranks g found' := by
  induction roles generalizing bound with
  | nil => exact List.pairwise_singleton _ _
  | cons role roles ih =>
    refine List.pairwise_flatMap.mpr ⟨fun id _ => ih _, ?_⟩
    -- what two candidates are extended to parts at this role, since both begin with `bound`
    refine ((candidates_ranked hg bound).filter _).imp fun hlt found hfound found' hfound' => ?_
    obtain ⟨rest, rfl⟩ := extensions_extend roles _ hfound
    obtain ⟨rest', rfl⟩ := extensions_extend roles _ hfound'
    rw [List.append_assoc, List.append_assoc]
    exact ranks_lt hlt

/-- The search with an early exit finds the first match of all that is not skipped. -/
theorem firstMatch?_eq_find? (skip : Match → Bool) :
    p.firstMatch? g (fun bound => skip (p.toMatch bound)) =
      (p.allMatches g).find? fun m => !skip m := by
  rw [firstMatch?, allMatches, firstExtension?_eq_find?, List.find?_map]
  rfl

/-- The matches are those that bind the roles.  They are listed by the ranks of their nodes, in
lexicographic order, and the search for one returns the first that is not skipped. -/
theorem allMatches_in_order [Scalar α] {g : Graph α} (h : Reachable g) (p : Pattern) :
    (∀ m, m ∈ p.allMatches g ↔
      ∃ bound, m = p.toMatch bound ∧ bound.length = p.roles.length ∧ p.Binds g bound) ∧
    (p.allMatches g).Pairwise (fun m m' => p.ranks g m.nodes < p.ranks g m'.nodes) ∧
    ∀ skip : Match → Bool, p.firstMatch? g (fun bound => skip (p.toMatch bound)) =
      (p.allMatches g).find? fun m => !skip m := by
  have hg := h.wellFormed
  refine ⟨fun m => mem_allMatches hg, ?_, firstMatch?_eq_find?⟩
  refine List.pairwise_map.mpr ((extensions_ranked hg p.roles []).imp_of_mem ?_)
  intro found found' hfound hfound' hlt
  have hlength := length_of_mem_extensions p.roles [] hfound
  have hlength' := length_of_mem_extensions p.roles [] hfound'
  rw [List.length_nil, Nat.zero_add] at hlength hlength'
  rwa [toMatch_nodes hlength, toMatch_nodes hlength']

/-- A product with two results that reads from one with a higher id. -/
def backwardCommands : List (Command Float) :=
  [.addOperator "last" .mul, .addOperator "first" .mul, .addOperator "sink" .output,
    .link ⟨1, 0⟩ ⟨0, 0⟩, .link ⟨0, 0⟩ ⟨2, 0⟩, .link ⟨0, 1⟩ ⟨2, 1⟩]

/-- A product with one of its results. -/
def resultPattern : Pattern :=
  ⟨[⟨"op", .operator .mul⟩, ⟨"result", .data⟩], [⟨0, 1, none⟩]⟩

theorem backwardCommands_in_order :
    Reachable (runCommands .nchw backwardCommands) ∧
    ¬ resultPattern.Tied 0 ∧ resultPattern.Tied 1 ∧
    (resultPattern.allMatches (runCommands .nchw backwardCommands)).map Match.nodes =
      [[1, 3], [0, 4], [0, 5]] ∧
    (resultPattern.allMatches (runCommands .nchw backwardCommands)).Pairwise fun m m' =>
      resultPattern.ranks (runCommands .nchw backwardCommands) m.nodes <
        resultPattern.ranks (runCommands .nchw backwardCommands) m'.nodes :=
  ⟨⟨_, _, rfl⟩, by decide, by decide, by decide +kernel,
    (allMatches_in_order ⟨_, _, rfl⟩ resultPattern).2.1⟩

end Pattern

end TensorGraph
