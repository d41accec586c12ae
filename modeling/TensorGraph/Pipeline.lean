/-
  Pipelines: rules in the order in which they are to run.

  A rule names the rules that it comes after and before.  Building a pipeline drops the disabled
  rules, checks the patterns of the others and orders them: every declared constraint holds, and
  otherwise a rule that was registered earlier runs earlier.  Names of rules that are not registered
  are noted and ignored.
-/
import TensorGraph.Rule.Dead
import TensorGraph.Rule.Multiplier
import TensorGraph.Rule.Permute
import TensorGraph.Rule.Slice
import TensorGraph.Rule.Tile

namespace TensorGraph

variable {α : Type}

/-- Rules as they were registered. -/
structure PipelineDescription (α : Type) where
  rules : List (Rule α) := []
  /-- The names of rules to leave out. -/
  disabled : List String := []
  /-- The limit on the rounds of rules that repeat until they are stable. -/
  maxIterations : Nat := 10

/-- Rules in the order of their execution. -/
structure Pipeline (α : Type) where
  rules : List (Rule α)
  maxIterations : Nat

/-- The built-in rules, in the order of their registration. -/
def builtinRules [Scalar α] : List (Rule α) :=
  [TileRule.rule, PermuteRule.rule, MultiplierRule.rule, SliceRule.rule, DeadRule.rule]

namespace Rule

/-- Checks that the pattern of a rule can be built. -/
def checkPattern (rule : Rule α) : Except Error Unit :=
  match rule.body with
  | .replacing (.error e) _ => .error e
  | _ => .ok ()

/-- Notes on the names in the declarations of a rule that are not registered. -/
def unknownNames (registered : List String) (rule : Rule α) : List LogEntry :=
  let note (relation : String) (name : String) : Option LogEntry :=
    if registered.contains name then none
    else some ⟨.debug, rule.name ++ ": " ++ relation ++ " '" ++ name ++ "' is not registered"⟩
  rule.after.filterMap (note "run_after") ++ rule.before.filterMap (note "run_before")

end Rule

/-- What the rules declare about their positions, each time that they do: the first is to come
before the second.  Names that are not registered declare nothing. -/
def declarations (rules : List (Rule α)) : List (Nat × Nat) :=
  let position? (name : String) : Option Nat := rules.findIdx? fun rule => rule.name == name
  rules.zipIdx.flatMap fun (rule, i) =>
    rule.after.filterMap (fun name => (position? name).map fun j => (j, i)) ++
      rule.before.filterMap fun name => (position? name).map fun j => (i, j)

/-- The positions of rules with distinct names in the order of execution; an error names the rules
that wait for a cycle. -/
def orderRules (rules : List (Rule α)) : Except Error (List Nat) :=
  let declared := declarations rules
  let counts := (List.range rules.length).map fun i => (i, declared.countP fun d => d.2 == i)
  let heads (i : Nat) : List Nat := (declared.filter fun d => d.1 == i).map (·.2)
  let (order, rest) := countdown counts heads
  if order.length = rules.length then .ok order
  else .error (.ruleCycle (rest.stuck.filterMap fun i => (rules[i]?).map (·.name)))

namespace PipelineDescription

/-- The rules that are not disabled. -/
def enabled (d : PipelineDescription α) : List (Rule α) :=
  d.rules.filter fun rule => !d.disabled.contains rule.name

/-- The described pipeline, and notes for the log. -/
def build (d : PipelineDescription α) : List LogEntry × Except Error (Pipeline α) :=
  let rules := d.enabled
  let names := rules.map (·.name)
  match rules.forM Rule.checkPattern with
  | .error e => ([], .error e)
  | .ok () =>
    match firstRepeat? names with
    | some name => ([], .error (.duplicateRule name))
    | none =>
      (rules.flatMap (Rule.unknownNames names),
        (orderRules rules).map fun order =>
          ⟨order.filterMap fun i => rules[i]?, d.maxIterations⟩)

end PipelineDescription

/-- What each rule of a pipeline did, in the order of execution. -/
structure Report where
  outcomes : List (String × Outcome)
deriving DecidableEq, Repr

namespace Report

/-- The replacements of all rules together. -/
def total (r : Report) : Nat :=
  r.outcomes.foldl (fun total entry => total + entry.2.replacements) 0

/-- The replacements of one rule. -/
def get? (r : Report) (rule : String) : Option Nat :=
  (r.outcomes.find? fun entry => entry.1 == rule).map fun entry => entry.2.replacements

end Report

namespace Pipeline

/-- Applies one rule; a graph that it changed is checked as a whole. -/
def step (rule : Rule α) (maxIterations : Nat) : Edit α (String × Outcome) := do
  let outcome ← rule.run maxIterations
  if outcome.replacements > 0 then
    Edit.query Graph.checkAll
    Edit.log .info (rule.name ++ ": " ++ toString outcome.replacements ++ " rewrite(s)")
  else
    Edit.log .debug (rule.name ++ ": nothing to rewrite")
  return (rule.name, outcome)

/-- Applies the rules in turn. -/
def run (p : Pipeline α) : Edit α Report := do
  return ⟨← p.rules.mapM fun rule => step rule p.maxIterations⟩

end Pipeline

namespace PipelineDescription

/-- Builds the pipeline, notes included, and runs it. -/
def execute (d : PipelineDescription α) : Edit α Report := do
  let (notes, pipeline) := d.build
  notes.forM fun note => Edit.log note.level note.text
  (← Edit.attempt pipeline).run

end PipelineDescription

end TensorGraph
