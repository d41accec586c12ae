/-
  Paths along the edges of a graph.

  `Joins` is one step of a path.  The search behind `hasPath` is exact if the table that it reads
  is: it answers `true` if and only if a path, possibly an empty one, leads from the start to the
  target.  What every turn of it keeps is whether a path leads from the stack to the target along
  edges out of unseen nodes: a path that comes through a node that has been seen can be cut, so that
  it begins behind the last visit to this node.

  A cycle is a path of at least one step that comes back to its start.  One more edge closes a cycle
  exactly if a path leads back from its end to its start.
-/
import TensorGraph.Graph.Change
import Mathlib.Data.List.Basic
import Mathlib.Logic.Relation

namespace TensorGraph

open Relation

/-- Some edge of the list leads from `a` to `b`. -/
def JoinedBy (edges : List Edge) (a b : NodeId) : Prop :=
  ∃ e ∈ edges, e.src = a ∧ e.dst = b

theorem JoinedBy.mono {edges more : List Edge} (hsub : ∀ e ∈ edges, e ∈ more) {a b : NodeId}
    (h : JoinedBy edges a b) : JoinedBy more a b := by
  obtain ⟨e, he, hends⟩ := h
  exact ⟨e, hsub e he, hends⟩

namespace Graph

variable {α : Type} {g : Graph α}

/-- Some edge of the graph leads from `a` to `b`. -/
def Joins (g : Graph α) (a b : NodeId) : Prop :=
  JoinedBy g.edges a b

/-- No path of at least one step comes back to its start. -/
def Acyclic (g : Graph α) : Prop :=
  ∀ id, ¬ TransGen g.Joins id id

/-! ## The search -/

/-- The edges out of `id` are only needed for the last visit to `id`: a path avoids them, or goes on
without them from the end of one of them. -/
theorem path_without (id : NodeId) {pool : List Edge} {a target : NodeId}
    (h : ReflTransGen (JoinedBy pool) a target) :
    ReflTransGen (JoinedBy (pool.filter fun e => e.src != id)) a target ∨
      ∃ e ∈ pool, e.src = id ∧
        ReflTransGen (JoinedBy (pool.filter fun e => e.src != id)) e.dst target := by
  induction h using ReflTransGen.head_induction_on with
  | refl => exact Or.inl .refl
  | @head a b hab _ ih =>
    obtain ⟨e, he, rfl, rfl⟩ := hab
    rcases ih with hrest | hlater
    · by_cases hsrc : e.src = id
      · exact Or.inr ⟨e, he, hsrc, hrest⟩
      · have hmem : e ∈ pool.filter fun e => e.src != id := by
          rw [List.mem_filter]
          exact ⟨he, by simpa using hsrc⟩
        exact Or.inl (hrest.head ⟨e, hmem, rfl, rfl⟩)
    · exact Or.inr hlater

/-- A path cannot leave a node without an edge out of it. -/
theorem eq_of_path {edges : List Edge} {a b : NodeId} (hout : ∀ e ∈ edges, e.src ≠ a)
    (h : ReflTransGen (JoinedBy edges) a b) : a = b := by
  rcases ReflTransGen.cases_head h with rfl | ⟨_, ⟨e, he, hsrc, _⟩, _⟩
  · rfl
  · exact absurd hsrc (hout e he)

/-- Looking at a node keeps what can be reached, as long as it is not the target: the edges out of
it leave the pool, and their ends take its place. -/
theorem exists_path_expand {pool : List Edge} {stack : List NodeId} {id target : NodeId}
    (hne : id ≠ target) :
    (∃ a ∈ id :: stack, ReflTransGen (JoinedBy pool) a target) ↔
      ∃ a ∈ (pool.filter fun e => e.src == id).map (·.dst) ++ stack,
        ReflTransGen (JoinedBy (pool.filter fun e => e.src != id)) a target := by
  have hmore : ∀ {a}, ReflTransGen (JoinedBy (pool.filter fun e => e.src != id)) a target →
      ReflTransGen (JoinedBy pool) a target := by
    intro a h
    exact ReflTransGen.mono (fun _ _ => JoinedBy.mono fun e he => (List.mem_filter.mp he).1) _ _ h
  constructor
  · rintro ⟨a, ha, hpath⟩
    rcases path_without id hpath with hrest | ⟨e, he, hsrc, hrest⟩
    · rcases List.mem_cons.mp ha with rfl | ha
      · -- the path starts at the visited node, and its first edge has left the pool
        refine absurd (eq_of_path (fun e he => ?_) hrest) hne
        simpa using (List.mem_filter.mp he).2
      · exact ⟨a, List.mem_append_right _ ha, hrest⟩
    · have hdst : e.dst ∈ (pool.filter fun e => e.src == id).map (·.dst) :=
        List.mem_map.mpr ⟨e, List.mem_filter.mpr ⟨he, by simpa using hsrc⟩, rfl⟩
      exact ⟨e.dst, List.mem_append_left _ hdst, hrest⟩
  · rintro ⟨a, ha, hpath⟩
    rcases List.mem_append.mp ha with ha | ha
    · obtain ⟨e, he, rfl⟩ := List.mem_map.mp ha
      obtain ⟨he, hsrc⟩ := List.mem_filter.mp he
      refine ⟨id, List.mem_cons_self, (hmore hpath).head ⟨e, he, by simpa using hsrc, rfl⟩⟩
    · exact ⟨a, List.mem_cons_of_mem _ ha, hmore hpath⟩

end Graph

namespace Search

open TensorGraph.Graph

variable {α : Type} {g : Graph α} {target : NodeId}

/-- The edges out of nodes that have not been seen. -/
def fresh (g : Graph α) (seen : List NodeId) : List Edge :=
  g.edges.filter fun e => e.src ∉ seen

theorem fresh_cons (g : Graph α) (id : NodeId) (seen : List NodeId) :
    fresh g (id :: seen) = (fresh g seen).filter fun e => e.src != id := by
  rw [fresh, fresh, List.filter_filter]
  refine List.filter_congr fun e _ => ?_
  by_cases hid : e.src = id <;> simp [hid]

/-- The edges out of an unseen node lead where the edges of the graph lead. -/
theorem mem_fresh_dst {id b : NodeId} {seen : List NodeId} (hnew : id ∉ seen) :
    b ∈ ((fresh g seen).filter fun e => e.src == id).map (·.dst) ↔ g.Joins id b := by
  simp only [List.mem_map, List.mem_filter, fresh, decide_eq_true_eq, beq_iff_eq]
  constructor
  · rintro ⟨e, ⟨⟨he, -⟩, hsrc⟩, hdst⟩
    exact ⟨e, he, hsrc, hdst⟩
  · rintro ⟨e, he, hsrc, hdst⟩
    exact ⟨e, ⟨⟨he, hsrc ▸ hnew⟩, hsrc⟩, hdst⟩

/-- A path along edges out of unseen nodes leads from the stack to the target. -/
def Leads (g : Graph α) (target : NodeId) (s : Search) : Prop :=
  ∃ a ∈ s.stack, ReflTransGen (JoinedBy (fresh g s.seen)) a target

theorem leads_drop {id : NodeId} {stack seen : List NodeId} (hne : id ≠ target)
    (hseen : id ∈ seen) : Leads g target ⟨id :: stack, seen⟩ ↔ Leads g target ⟨stack, seen⟩ := by
  constructor
  · rintro ⟨a, ha, hpath⟩
    rcases List.mem_cons.mp ha with rfl | ha
    · -- no edge out of a node that has been seen is left
      refine absurd (eq_of_path (fun e he hsrc => ?_) hpath) hne
      have hnew : e.src ∉ seen := by simpa using (List.mem_filter.mp he).2
      exact hnew (hsrc ▸ hseen)
    · exact ⟨a, ha, hpath⟩
  · rintro ⟨a, ha, hpath⟩
    exact ⟨a, List.mem_cons_of_mem _ ha, hpath⟩

/-- If a turn gives the answer, it is right. -/
theorem turn_answer {s : Search} {found : Bool} (h : s.turn g.heads target = .inl found) :
    found = true ↔ s.Leads g target := by
  obtain ⟨stack, seen⟩ := s
  cases stack with
  | nil =>
    cases h
    simp [Leads]
  | cons id stack =>
    simp only [turn] at h
    split at h
    · rename_i hid
      cases h
      exact iff_of_true rfl ⟨id, List.mem_cons_self, hid ▸ .refl⟩
    · split at h <;> cases h

section Exact

variable (hheads : ∀ a b, b ∈ g.heads a ↔ g.Joins a b)
include hheads

theorem leads_expand {id : NodeId} {stack seen : List NodeId} (hne : id ≠ target)
    (hnew : id ∉ seen) :
    Leads g target ⟨id :: stack, seen⟩ ↔
      Leads g target ⟨(g.heads id).reverse ++ stack, id :: seen⟩ := by
  simp only [Leads, fresh_cons, List.mem_append, List.mem_reverse]
  rw [exists_path_expand hne]
  simp only [List.mem_append, mem_fresh_dst hnew, hheads]

/-- If the search goes on, it is for the same answer. -/
theorem turn_next {s next : Search} (h : s.turn g.heads target = .inr next) :
    s.Leads g target ↔ next.Leads g target := by
  obtain ⟨id, stack, seen, rfl, hne, ⟨hseen, rfl⟩ | ⟨hnew, rfl⟩⟩ := turn_eq_inr h
  · exact leads_drop hne hseen
  · exact leads_expand hheads hne hnew

/-- The search finds the target exactly if a path leads to it from the stack. -/
theorem run_iff (s : Search) : s.run g target = true ↔ s.Leads g target := by
  fun_induction s.run g target with
  | case1 s found h => exact turn_answer h
  | case2 s next h ih => rw [ih, turn_next hheads h]

end Exact

end Search

namespace Graph

variable {α : Type} {g : Graph α}

/-- The path test is exact if the ends of the listed edges are. -/
theorem hasPath_iff_of_heads (hheads : ∀ a b, b ∈ g.heads a ↔ g.Joins a b) (a b : NodeId) :
    g.hasPath a b = true ↔ ReflTransGen g.Joins a b := by
  have hall : Search.fresh g [] = g.edges := List.filter_eq_self.mpr fun _ _ => by simp
  rw [hasPath, Search.run_iff hheads, Search.Leads, Search.start, hall]
  simp only [List.mem_singleton, exists_eq_left]
  exact Iff.rfl

/-! ## Cycles -/

/-- Paths of at least one step, with one more way to step from `s` to `d`, are old paths or run
through that step. -/
theorem path_with_step {r r' : NodeId → NodeId → Prop} {s d a b : NodeId}
    (hstep : ∀ x y, r' x y → r x y ∨ (x = s ∧ y = d)) (h : TransGen r' a b) :
    TransGen r a b ∨ (ReflTransGen r a s ∧ ReflTransGen r d b) := by
  induction h with
  | single hab =>
    rcases hstep _ _ hab with hold | ⟨rfl, rfl⟩
    · exact Or.inl (.single hold)
    · exact Or.inr ⟨.refl, .refl⟩
  | tail _ hbc ih =>
    rcases hstep _ _ hbc with hold | ⟨rfl, rfl⟩
    · rcases ih with hpath | ⟨hto, hfrom⟩
      · exact Or.inl (hpath.tail hold)
      · exact Or.inr ⟨hto, hfrom.tail hold⟩
    · rcases ih with hpath | ⟨hto, _⟩
      · exact Or.inr ⟨hpath.to_reflTransGen, .refl⟩
      · exact Or.inr ⟨hto, .refl⟩

/-- One more step closes no cycle if no path leads back. -/
theorem acyclic_with_step {r r' : NodeId → NodeId → Prop} {s d : NodeId}
    (hstep : ∀ x y, r' x y → r x y ∨ (x = s ∧ y = d)) (hr : ∀ id, ¬ TransGen r id id)
    (hback : ¬ ReflTransGen r d s) : ∀ id, ¬ TransGen r' id id := by
  intro id hcycle
  rcases path_with_step hstep hcycle with hold | ⟨hto, hfrom⟩
  · exact hr id hold
  · exact hback (hfrom.trans hto)

/-- Fewer steps close no cycle. -/
theorem Acyclic.mono {g' : Graph α} (hg : g.Acyclic)
    (hsub : ∀ a b, g'.Joins a b → g.Joins a b) : g'.Acyclic :=
  fun id hcycle => hg id (TransGen.mono hsub _ _ hcycle)

end Graph

end TensorGraph
