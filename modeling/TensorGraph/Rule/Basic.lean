/-
  Rules, and how they are applied to a graph.

  A rule looks for the matches of a pattern and is offered each of them; it answers whether it
  replaced the match.  A round of offers searches again after every offer, so an offered match is
  one of the graph as it then is, and makes no offer twice.  A rule gets one round, or rounds until
  one of them replaces nothing.
-/
import TensorGraph.Graph.Edit
import TensorGraph.Pattern.Match

namespace TensorGraph

variable {α : Type}

/-- How many rounds of offers a rule gets. -/
inductive Repetition where
  | once
  /-- Rounds until one replaces nothing, up to a limit. -/
  | untilStable
deriving DecidableEq, Repr

/-- What a rule does. -/
inductive RuleBody (α : Type) where
  /-- Nothing at all. -/
  | idle
  /-- Replaces matches of a pattern.  The answer is whether the match was replaced. -/
  | replacing (pattern : Except Error Pattern) (replace : Match → Edit α Bool)
  /-- Edits the whole graph and counts its edits. -/
  | editing (run : Edit α Nat)

/-- A named rule, and the rules that it comes after and before. -/
structure Rule (α : Type) where
  name : String
  after : List String := []
  before : List String := []
  repeats : Repetition := .once
  body : RuleBody α := .idle

/-- A match that was offered to a rule, and its answer. -/
structure Offer where
  nodes : List NodeId
  replaced : Bool
deriving DecidableEq, Repr

/-- What the application of a rule did. -/
structure Outcome where
  replacements : Nat
  offers : List Offer
deriving DecidableEq, Repr

/-- Nodes as the log lists them. -/
def nodesText (nodes : List NodeId) : String :=
  Text.bracketed (nodes.map fun id => "NodeId(" ++ toString id ++ ")")

namespace Rule

/-- Offers matches until all that are left have been attempted, in at most `steps` steps. -/
def offerSteps (name : String) (pattern : Pattern) (replace : Match → Edit α Bool) :
    Nat → List (List NodeId) → Edit α (List Offer)
  | 0, _ => throw .exhausted
  | steps + 1, attempted => do
    match pattern.firstMatch? (← Edit.graph) attempted.contains with
    | none => return []
    | some m =>
      let replaced ← replace m
      if replaced then
        Edit.log .info (name ++ ": rewrote match " ++ nodesText m.nodes)
      let rest ← offerSteps name pattern replace steps (m.nodes :: attempted)
      return ⟨m.nodes, replaced⟩ :: rest

/-- One step more than there are ways to bind the roles to the nodes of the graph: enough for a rule
that adds no node which takes part in a match. -/
def offerLimit (pattern : Pattern) (g : Graph α) : Nat :=
  Nat.pow g.nodes.length pattern.roles.length + 1

/-- One round of offers, in at most as many steps as `limit` allows for the graph at its start. -/
def offerRound (limit : Pattern → Graph α → Nat) (name : String) (pattern : Pattern)
    (replace : Match → Edit α Bool) : Edit α (List Offer) := do
  offerSteps name pattern replace (limit pattern (← Edit.graph)) []

/-- Rounds until one replaces nothing, at most `left` of them after `done` others. -/
def offerRounds (limit : Pattern → Graph α → Nat) (name : String) (pattern : Pattern)
    (replace : Match → Edit α Bool) : Nat → Nat → Edit α (List Offer)
  | 0, done => do
    Edit.log .warn
      (name ++ ": still rewriting after " ++ toString done ++ " iterations, stopping")
    return []
  | left + 1, done => do
    let offers ← offerRound limit name pattern replace
    if offers.any (·.replaced) then
      return offers ++ (← offerRounds limit name pattern replace left (done + 1))
    Edit.log .debug (name ++ ": converged after " ++ toString (done + 1) ++ " iteration(s)")
    return offers

/-- Applies a rule to the graph, with the given limit on the steps of a round. -/
def runWithin (limit : Pattern → Graph α → Nat) (rule : Rule α) (maxIterations : Nat) :
    Edit α Outcome := do
  match rule.body with
  | .idle => return ⟨0, []⟩
  | .replacing pattern replace =>
    let pattern ← Edit.attempt pattern
    let offers ← match rule.repeats with
      | .once => offerRound limit rule.name pattern replace
      | .untilStable => offerRounds limit rule.name pattern replace maxIterations 0
    return ⟨offers.countP (·.replaced), offers⟩
  | .editing run => return ⟨← run, []⟩

/-- Applies a rule to the graph. -/
def run (rule : Rule α) (maxIterations : Nat) : Edit α Outcome :=
  rule.runWithin offerLimit maxIterations

end Rule

end TensorGraph
