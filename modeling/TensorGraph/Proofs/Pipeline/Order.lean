/-
  The order of the rules of a pipeline.

  Rules are known by their position in the order of registration.  `DeclaredBefore` is what the
  declarations of the enabled rules say about positions.  Ordering the rules counts down, for each
  of them, the declarations that hold it back, repeated ones as often as they are made:

    1. the counts belong to `waitingRules`, so counting down is `leastOrder` (`orderRules_eq`);
    2. with distinct names a rule waits for those that are declared to run before it
       (`awaited_iff`);
    3. so the general statements about `leastOrder` carry over: the rules that are refused are those
       on a cycle of declarations and those after one (`stuck_iff`), and without a cycle the order
       is the least among the `Admissible` ones (`leastOrder_admissible`).

  `build_exact` puts this together for the pipeline that is built.
-/
import TensorGraph.Pipeline
import TensorGraph.Proofs.Countdown
import TensorGraph.Proofs.Graph.Check
import TensorGraph.Proofs.Permutation

namespace TensorGraph

open Relation

variable {α : Type} {rules : List (Rule α)}

/-- The rule at position `i` is declared to run before the one at position `j`, by either of them.
Names that are not registered say nothing. -/
def DeclaredBefore (rules : List (Rule α)) (i j : Nat) : Prop :=
  ∃ first second, rules[i]? = some first ∧ rules[j]? = some second ∧
    (first.name ∈ second.after ∨ second.name ∈ first.before)

/-- The rule at this position lies on a cycle of declarations, or after such a rule. -/
def AfterCycle (rules : List (Rule α)) (i : Nat) : Prop :=
  ∃ c, TransGen (DeclaredBefore rules) c c ∧ ReflTransGen (DeclaredBefore rules) c i

/-- An order of the positions, each once, in which every declaration holds. -/
structure Admissible (rules : List (Rule α)) (order : List Nat) : Prop where
  positions : order.Perm (List.range rules.length)
  respects : ∀ i j, DeclaredBefore rules i j → order.idxOf i < order.idxOf j

/-! ## What the rules wait for -/

/-- The positions, and what each has to come after, once for every declaration. -/
def waitingRules (rules : List (Rule α)) : List (Waiting Nat) :=
  (List.range rules.length).map fun i =>
    ⟨i, ((declarations rules).filter fun d => d.2 == i).map (·.1)⟩

theorem waitingRules_items (rules : List (Rule α)) :
    (waitingRules rules).map (·.item) = List.range rules.length := by
  rw [waitingRules, List.map_map]
  exact List.map_id _

theorem waitingRules_increasing (rules : List (Rule α)) :
    ((waitingRules rules).map (·.item)).Pairwise (· < ·) := by
  rw [waitingRules_items]
  exact List.pairwise_lt_range

theorem waitingRules_nodup (rules : List (Rule α)) :
    ((waitingRules rules).map (·.item)).Nodup :=
  (waitingRules_increasing rules).imp Nat.ne_of_lt

/-- Each declaration stands at the rule that waits and at the rule that is waited for. -/
theorem matched_waitingRules (rules : List (Rule α)) :
    Countdown.Matched (fun i => ((declarations rules).filter fun d => d.1 == i).map (·.2))
      (waitingRules rules) := by
  intro v _ w hw
  obtain ⟨i, -, rfl⟩ := List.mem_map.mp hw
  simp only [List.count, List.countP_map, List.countP_filter]
  refine List.countP_congr fun d _ => ?_
  simp [and_comm]

/-- Counting down orders what waits, and names what is left over. -/
theorem orderRules_eq (rules : List (Rule α)) :
    orderRules rules =
      if (leastOrder (waitingRules rules)).1.length = rules.length then
        .ok (leastOrder (waitingRules rules)).1
      else .error (.ruleCycle (((leastOrder (waitingRules rules)).2.map (·.item)).filterMap fun i =>
        (rules[i]?).map (·.name))) := by
  have hcounts : ((List.range rules.length).map fun i =>
      (i, (declarations rules).countP fun d => d.2 == i)) =
      (waitingRules rules).map fun w => (w.item, w.waitsFor.length) := by
    rw [waitingRules, List.map_map]
    refine List.map_congr_left fun i _ => ?_
    rw [Function.comp_apply, List.length_map, List.countP_eq_length_filter]
  obtain ⟨horder, hstuck⟩ :=
    countdown_eq_leastOrder (waitingRules_increasing rules) (matched_waitingRules rules)
  rw [orderRules]
  dsimp only
  rw [hcounts, horder, hstuck]

/-- All positions are ordered exactly if nothing is left over. -/
theorem length_order_iff :
    (leastOrder (waitingRules rules)).1.length = rules.length ↔
      (leastOrder (waitingRules rules)).2 = [] := by
  have hlength := (emitSteps_perm (waitingRules rules).length (waitingRules rules)
    (waitingRules_nodup rules)).length_eq
  rw [waitingRules_items, List.length_append, List.length_map, List.length_range] at hlength
  rw [← List.length_eq_zero_iff]
  unfold leastOrder
  omega

section Distinct

variable (hnodup : (rules.map (·.name)).Nodup)
include hnodup

/-- With distinct names, the position of a name is that of its rule. -/
theorem position_eq_some_iff {name : String} {i : Nat} :
    rules.findIdx? (fun rule => rule.name == name) = some i ↔
      ∃ rule, rules[i]? = some rule ∧ rule.name = name := by
  rw [List.findIdx?_eq_some_iff_getElem]
  constructor
  · rintro ⟨hi, hname, -⟩
    exact ⟨rules[i], List.getElem?_eq_getElem hi, beq_iff_eq.mp hname⟩
  · rintro ⟨rule, hrule, rfl⟩
    obtain ⟨hi, rfl⟩ := List.getElem?_eq_some_iff.mp hrule
    refine ⟨hi, beq_self_eq_true _, fun j hj hsame => ?_⟩
    -- two positions of one name are the same
    have hjlt : j < (rules.map (·.name)).length := by
      rw [List.length_map]
      exact hj.trans hi
    refine Nat.ne_of_lt hj ((List.getElem?_inj hjlt hnodup).mp ?_)
    rw [List.getElem?_map, List.getElem?_map, hrule, List.getElem?_eq_getElem (hj.trans hi)]
    exact congrArg some (beq_iff_eq.mp hsame)

/-- The declarations are those of either rule. -/
theorem mem_declarations {i j : Nat} : (i, j) ∈ declarations rules ↔ DeclaredBefore rules i j := by
  simp only [declarations, List.mem_flatMap, List.mem_append, List.mem_filterMap, Prod.exists,
    List.mem_zipIdx_iff_getElem?, Option.map_eq_some_iff, position_eq_some_iff hnodup,
    Prod.mk.injEq, DeclaredBefore]
  constructor
  · rintro ⟨rule, k, hrule, ⟨_, hname, _, ⟨first, hfirst, rfl⟩, rfl, rfl⟩ |
      ⟨_, hname, _, ⟨second, hsecond, rfl⟩, rfl, rfl⟩⟩
    · exact ⟨first, rule, hfirst, hrule, .inl hname⟩
    · exact ⟨rule, second, hrule, hsecond, .inr hname⟩
  · rintro ⟨first, second, hfirst, hsecond, hname | hname⟩
    · exact ⟨second, j, hsecond, .inl ⟨_, hname, _, ⟨first, hfirst, rfl⟩, rfl, rfl⟩⟩
    · exact ⟨first, i, hfirst, .inr ⟨_, hname, _, ⟨second, hsecond, rfl⟩, rfl, rfl⟩⟩

/-- A rule waits for those that are declared to run before it. -/
theorem awaited_iff {i j : Nat} : Awaited (waitingRules rules) i j ↔ DeclaredBefore rules i j := by
  rw [← mem_declarations hnodup]
  constructor
  · rintro ⟨w, hw, rfl, hi⟩
    obtain ⟨j, -, rfl⟩ := List.mem_map.mp hw
    obtain ⟨⟨_, _⟩, hd, rfl⟩ := List.mem_map.mp hi
    obtain ⟨hdeclared, hj⟩ := List.mem_filter.mp hd
    obtain rfl := beq_iff_eq.mp hj
    exact hdeclared
  · intro hd
    obtain ⟨_, _, -, hsecond, -⟩ := (mem_declarations hnodup).mp hd
    refine ⟨_, List.mem_map.mpr ⟨j, ?_, rfl⟩, rfl, List.mem_map.mpr ⟨(i, j), ?_, rfl⟩⟩
    · exact List.mem_range.mpr (List.getElem?_eq_some_iff.mp hsecond).1
    · exact List.mem_filter.mpr ⟨hd, beq_self_eq_true _⟩

theorem awaited_eq : Awaited (waitingRules rules) = DeclaredBefore rules := by
  funext i j
  exact propext (awaited_iff hnodup)

/-- Rules wait for rules of the same list. -/
theorem waitingRules_closed : ∀ w ∈ waitingRules rules, ∀ i ∈ w.waitsFor,
    i ∈ (waitingRules rules).map (·.item) := by
  intro w hw i hi
  obtain ⟨first, _, hfirst, _⟩ := (awaited_iff hnodup).mp ⟨w, hw, rfl, hi⟩
  rw [waitingRules_items, List.mem_range]
  exact (List.getElem?_eq_some_iff.mp hfirst).1

theorem follows_iff {order : List Nat} :
    Follows (waitingRules rules) order ↔ Admissible rules order := by
  constructor
  · rintro ⟨hitems, hafter⟩
    refine ⟨waitingRules_items rules ▸ hitems, fun i j hdeclared => ?_⟩
    obtain ⟨w, hw, rfl, hi⟩ := (awaited_iff hnodup).mpr hdeclared
    exact hafter w hw i hi
  · rintro ⟨hpositions, hrespects⟩
    refine ⟨(waitingRules_items rules).symm ▸ hpositions, fun w hw i hi => ?_⟩
    exact hrespects i w.item ((awaited_iff hnodup).mp ⟨w, hw, rfl, hi⟩)

/-! ## Ordering the rules -/

/-- The positions that are left over are those on a cycle and those after one. -/
theorem stuck_iff {i : Nat} (hi : i < rules.length) :
    i ∈ (leastOrder (waitingRules rules)).2.map (·.item) ↔ AfterCycle rules i := by
  rw [AfterCycle, ← awaited_eq hnodup]
  refine leastOrder_rest_iff (waitingRules_nodup rules) (waitingRules_closed hnodup) ?_
  rw [waitingRules_items, List.mem_range]
  exact hi

/-- Nothing is left over if and only if there is no cycle. -/
theorem rest_eq_nil_iff :
    (leastOrder (waitingRules rules)).2 = [] ↔ ∀ i, ¬ TransGen (DeclaredBefore rules) i i := by
  constructor
  · intro hrest i hcycle
    -- a rule on a cycle is declared to run before another one, so it is registered
    obtain ⟨_, ⟨first, _, hfirst, _⟩, _⟩ := TransGen.head'_iff.mp hcycle
    have hstuck := (stuck_iff hnodup (List.getElem?_eq_some_iff.mp hfirst).1).mpr ⟨i, hcycle, .refl⟩
    rw [hrest] at hstuck
    exact absurd hstuck List.not_mem_nil
  · intro hacyclic
    refine leastOrder_complete (waitingRules_nodup rules) (waitingRules_closed hnodup)
      (r := DeclaredBefore rules) (fun w hw i hi => ?_) hacyclic
    exact (awaited_iff hnodup).mp ⟨w, hw, rfl, hi⟩

theorem orderRules_ok (hacyclic : ∀ i, ¬ TransGen (DeclaredBefore rules) i i) :
    orderRules rules = .ok (leastOrder (waitingRules rules)).1 := by
  rw [orderRules_eq, if_pos (length_order_iff.mpr ((rest_eq_nil_iff hnodup).mpr hacyclic))]

theorem orderRules_error (hcycle : ¬ ∀ i, ¬ TransGen (DeclaredBefore rules) i i) :
    orderRules rules = .error (.ruleCycle (((leastOrder (waitingRules rules)).2.map (·.item)).filterMap
      fun i => (rules[i]?).map (·.name))) := by
  rw [← rest_eq_nil_iff hnodup, ← length_order_iff] at hcycle
  rw [orderRules_eq, if_neg hcycle]

theorem leastOrder_admissible (hacyclic : ∀ i, ¬ TransGen (DeclaredBefore rules) i i) :
    Admissible rules (leastOrder (waitingRules rules)).1 :=
  (follows_iff hnodup).mp
    (leastOrder_follows (waitingRules_nodup rules) ((rest_eq_nil_iff hnodup).mpr hacyclic))

end Distinct

/-- The rules that an error names are in the order of registration. -/
theorem stuck_names_sublist (rules : List (Rule α)) :
    (((leastOrder (waitingRules rules)).2.map (·.item)).filterMap fun i =>
      (rules[i]?).map (·.name)).Sublist (rules.map (·.name)) := by
  have hsub := emitSteps_sublist (waitingRules rules).length (waitingRules rules)
  rw [waitingRules_items, ← List.length_map (fun rule : Rule α => rule.name)] at hsub
  -- positions are left over in increasing order, so their names are in the order of registration
  have hnames := hsub.filterMap fun i => (rules.map (·.name))[i]?
  have hall : (List.range (rules.map (·.name)).length).filterMap (fun i => (rules.map (·.name))[i]?) =
      rules.map (·.name) := Permutation.select_range _
  rw [hall] at hnames
  simp only [List.getElem?_map] at hnames
  exact hnames

/-- A rule is named in the error if it is on a cycle or after one: names stand for positions. -/
theorem mem_stuck_names_iff (hnodup : (rules.map (·.name)).Nodup) {i : Nat} {rule : Rule α}
    (hrule : rules[i]? = some rule) :
    rule.name ∈ ((leastOrder (waitingRules rules)).2.map (·.item)).filterMap (fun i =>
        (rules[i]?).map (·.name)) ↔ AfterCycle rules i := by
  have hi := (List.getElem?_eq_some_iff.mp hrule).1
  have hname : (rules.map (·.name))[i]? = some rule.name := by
    rw [List.getElem?_map, hrule, Option.map_some]
  rw [← stuck_iff hnodup hi, List.mem_filterMap]
  simp only [← List.getElem?_map]
  constructor
  · -- the name might be that of another position, if names were repeated
    rintro ⟨j, hj, hsame⟩
    have hlt : i < (rules.map (·.name)).length := by rwa [List.length_map]
    obtain rfl : i = j := (List.getElem?_inj hlt hnodup).mp (hname.trans hsame.symm)
    exact hj
  · intro hstuck
    exact ⟨i, hstuck, hname⟩

/-- No position of an admissible order is outside the list. -/
theorem Admissible.map_some {order : List Nat} (h : Admissible rules order) :
    (order.filterMap fun i => rules[i]?).map some = order.map fun i => rules[i]? := by
  have hinside : ∀ i ∈ order, i < rules.length := fun i hi =>
    List.mem_range.mp (h.positions.mem_iff.mp hi)
  -- the rest of an admissible order is not admissible; that its positions are inside is enough
  clear h
  induction order with
  | nil => rfl
  | cons i order ih =>
    have hi := List.getElem?_eq_getElem (hinside i List.mem_cons_self)
    rw [List.filterMap_cons, List.map_cons, hi]
    exact congrArg _ (ih fun j hj => hinside j (List.mem_cons_of_mem _ hj))

/-! ## Building a pipeline -/

section Build

variable {d : PipelineDescription α} (hpatterns : ∀ rule ∈ d.enabled, rule.checkPattern = .ok ())
include hpatterns

theorem build_eq :
    d.build.2 = match firstRepeat? (d.enabled.map (·.name)) with
      | some name => .error (.duplicateRule name)
      | none => (orderRules d.enabled).map fun order =>
          ⟨order.filterMap fun i => d.enabled[i]?, d.maxIterations⟩ := by
  rw [PipelineDescription.build, except_forM_eq_ok.mpr hpatterns]
  dsimp only
  cases firstRepeat? (d.enabled.map (·.name)) <;> rfl

theorem build_of_nodup (hnodup : (d.enabled.map (·.name)).Nodup) :
    d.build.2 = (orderRules d.enabled).map fun order =>
      ⟨order.filterMap fun i => d.enabled[i]?, d.maxIterations⟩ := by
  rw [build_eq hpatterns, firstRepeat?_eq_none_iff.mpr hnodup]

/-- Rules of one name are refused, and nothing else is refused for that reason. -/
theorem build_duplicate_iff :
    (∃ name, d.build.2 = .error (.duplicateRule name)) ↔ ¬ (d.enabled.map (·.name)).Nodup := by
  constructor
  · rintro ⟨name, hbuild⟩ hnodup
    rw [build_of_nodup hpatterns hnodup] at hbuild
    by_cases hacyclic : ∀ i, ¬ TransGen (DeclaredBefore d.enabled) i i
    · rw [orderRules_ok hnodup hacyclic] at hbuild
      cases hbuild
    · rw [orderRules_error hnodup hacyclic] at hbuild
      cases hbuild
  · intro hrepeat
    rw [← firstRepeat?_eq_none_iff] at hrepeat
    obtain ⟨name, hname⟩ := Option.ne_none_iff_exists'.mp hrepeat
    refine ⟨name, ?_⟩
    rw [build_eq hpatterns, hname]

variable (hnodup : (d.enabled.map (·.name)).Nodup)
include hnodup

theorem build_cyclic {names : List String} (hbuild : d.build.2 = .error (.ruleCycle names)) :
    (∃ i, TransGen (DeclaredBefore d.enabled) i i) ∧ names.Sublist (d.enabled.map (·.name)) ∧
      ∀ i rule, d.enabled[i]? = some rule → (rule.name ∈ names ↔ AfterCycle d.enabled i) := by
  rw [build_of_nodup hpatterns hnodup] at hbuild
  by_cases hacyclic : ∀ i, ¬ TransGen (DeclaredBefore d.enabled) i i
  · rw [orderRules_ok hnodup hacyclic] at hbuild
    cases hbuild
  · rw [orderRules_error hnodup hacyclic] at hbuild
    cases hbuild
    exact ⟨by simpa using hacyclic, stuck_names_sublist _, fun i rule => mem_stuck_names_iff hnodup⟩

theorem build_refused {i : Nat} (hcycle : TransGen (DeclaredBefore d.enabled) i i) :
    ∃ names, d.build.2 = .error (.ruleCycle names) := by
  rw [build_of_nodup hpatterns hnodup, orderRules_error hnodup fun hacyclic => hacyclic i hcycle]
  exact ⟨_, rfl⟩

theorem build_acyclic (hacyclic : ∀ i, ¬ TransGen (DeclaredBefore d.enabled) i i) :
    d.build.2 = .ok ⟨(leastOrder (waitingRules d.enabled)).1.filterMap fun i => d.enabled[i]?,
      d.maxIterations⟩ := by
  rw [build_of_nodup hpatterns hnodup, orderRules_ok hnodup hacyclic]
  rfl

end Build

/-- Building a pipeline whose patterns are in order is refused for a repeated name, and otherwise
exactly if the declarations of the enabled rules have a cycle; the error names the rules on a cycle
or after one, as they were registered.  A pipeline that is built has every rule once, in the least
of the orders in which all declarations hold. -/
theorem build_exact (d : PipelineDescription α)
    (hpatterns : ∀ rule ∈ d.enabled, rule.checkPattern = .ok ()) :
    ((∃ name, d.build.2 = .error (.duplicateRule name)) ↔ ¬ (d.enabled.map (·.name)).Nodup) ∧
    ((d.enabled.map (·.name)).Nodup →
      ((∃ names, d.build.2 = .error (.ruleCycle names)) ↔
        ∃ i, TransGen (DeclaredBefore d.enabled) i i) ∧
      (∀ names, d.build.2 = .error (.ruleCycle names) →
        names.Sublist (d.enabled.map (·.name)) ∧
        ∀ i rule, d.enabled[i]? = some rule → (rule.name ∈ names ↔ AfterCycle d.enabled i)) ∧
      ((∀ i, ¬ TransGen (DeclaredBefore d.enabled) i i) →
        ∃ p order, d.build.2 = .ok p ∧ p.maxIterations = d.maxIterations ∧
          p.rules.map some = (order.map fun i => d.enabled[i]?) ∧ Admissible d.enabled order ∧
          ∀ other, Admissible d.enabled other → order = other ∨ List.Lex (· < ·) order other)) := by
  refine ⟨build_duplicate_iff hpatterns, fun hnodup => ⟨⟨?_, ?_⟩, ?_, fun hacyclic => ?_⟩⟩
  · rintro ⟨names, hbuild⟩
    exact (build_cyclic hpatterns hnodup hbuild).1
  · rintro ⟨i, hcycle⟩
    exact build_refused hpatterns hnodup hcycle
  · intro names hbuild
    exact (build_cyclic hpatterns hnodup hbuild).2
  · have hadmissible := leastOrder_admissible hnodup hacyclic
    refine ⟨_, _, build_acyclic hpatterns hnodup hacyclic, rfl, hadmissible.map_some, hadmissible,
      fun other hother => ?_⟩
    exact emitSteps_least _ _ _ (waitingRules_increasing d.enabled) (Nat.le_refl _)
      ((follows_iff hnodup).mpr hother)

/-- Rules that wait for each other, one that comes after them and one that comes first; the last one
waits for itself but is left out. -/
def knottedRules (disabled : List String) : PipelineDescription Float where
  rules :=
    [{ name := "late", after := ["tie"] }, { name := "tie", after := ["knot"] },
      { name := "knot", after := ["tie", "tie"], before := ["ghost"] },
      { name := "free", before := ["late", "off"] }, { name := "off", after := ["off"] }]
  disabled := "off" :: disabled

theorem knottedRules_cycle :
    (knottedRules []).build.2 = .error (.ruleCycle ["late", "tie", "knot"]) := by
  have hrefused : (match (knottedRules []).build.2 with
      | .ok _ => false
      | .error error => decide (error = .ruleCycle ["late", "tie", "knot"])) = true := by
    decide +kernel
  split at hrefused
  · cases hrefused
  · rename_i error hbuild
    rw [hbuild, of_decide_eq_true hrefused]

/-- The rule that comes first is not named in the error; without the second rule the others run, and
the one that comes late moves to the end. -/
theorem knottedRules_build :
    (∀ disabled, ∀ rule ∈ (knottedRules disabled).enabled, rule.checkPattern = .ok ()) ∧
    (knottedRules []).build.2 = .error (.ruleCycle ["late", "tie", "knot"]) ∧
    AfterCycle (knottedRules []).enabled 0 ∧ ¬ AfterCycle (knottedRules []).enabled 3 ∧
    (∀ i, ¬ TransGen (DeclaredBefore (knottedRules ["tie"]).enabled) i i) ∧
    ∃ p order, (knottedRules ["tie"]).build.2 = .ok p ∧
      p.rules.map (·.name) = ["knot", "free", "late"] ∧
      Admissible (knottedRules ["tie"]).enabled order ∧
      p.rules.map some = order.map fun i => (knottedRules ["tie"]).enabled[i]? := by
  have hpatterns : ∀ disabled, ∀ rule ∈ (knottedRules disabled).enabled,
      rule.checkPattern = .ok () := by
    intro disabled rule hrule
    have hidle : ∀ rule ∈ (knottedRules disabled).rules, rule.checkPattern = .ok () := by
      simp [knottedRules, Rule.checkPattern]
    exact hidle rule (List.mem_filter.mp hrule).1
  obtain ⟨-, hcyclic⟩ := build_exact (knottedRules []) (hpatterns _)
  obtain ⟨-, hnamed, -⟩ := hcyclic (by decide +kernel)
  have hmem := (hnamed _ knottedRules_cycle).2
  obtain ⟨-, hordered⟩ := build_exact (knottedRules ["tie"]) (hpatterns _)
  obtain ⟨hrefused, -, hbuilt⟩ := hordered (by decide +kernel)
  have hnames : (match (knottedRules ["tie"]).build.2 with
      | .ok p => p.rules.map (·.name) == ["knot", "free", "late"]
      | .error _ => false) = true := by
    decide +kernel
  split at hnames
  · rename_i p hok
    have hacyclic : ∀ i, ¬ TransGen (DeclaredBefore (knottedRules ["tie"]).enabled) i i := by
      intro i hcycle
      obtain ⟨names, herror⟩ := hrefused.mpr ⟨i, hcycle⟩
      rw [hok] at herror
      cases herror
    obtain ⟨p', order, hbuild, -, hrules, hadmissible, -⟩ := hbuilt hacyclic
    rw [hok] at hbuild
    cases hbuild
    exact ⟨hpatterns, knottedRules_cycle, (hmem 0 _ rfl).mp (by decide +kernel),
      fun hafter => absurd ((hmem 3 _ rfl).mpr hafter) (by decide +kernel), hacyclic, p, order, hok,
      beq_iff_eq.mp hnames, hadmissible, hrules⟩
  · cases hnames

end TensorGraph
