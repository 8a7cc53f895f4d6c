import EventRules.Dependency.Graph
import EventRules.Rule.Check

/-!
Ordering the actions of a rule and the rules of a ruleset by what they read and write, and the
problems that report cycles.
-/
namespace EventRules

def distinctFields (fields : List String) : List String :=
  distinct (fields.filter fun f => f ≠ "")

theorem mem_distinctFields {f : String} {fields : List String} :
    f ∈ distinctFields fields ↔ f ∈ fields ∧ f ≠ "" := by
  simp [distinctFields]

namespace Rule

def actionGraph (r : Rule) : DependencyGraph := .ofItems Action.dependsOn r.actions

/-- The rule with its actions in order, or the fields of a cycle. -/
def resolveActions (r : Rule) : Except Problem Rule :=
  let graph := r.actionGraph
  match graph.unresolvable with
  | [] => .ok { r with actions := pick r.actions graph.order }
  | cycle => .error (.actionCycle (distinctFields ((pick r.actions cycle).map Action.field)))

def inOtherGroup (r other : Rule) : Bool :=
  match r.group?, other.group? with
  | some a, some b => a ≠ b
  | _, _ => false

/-- An action or the condition of a rule reads a field that the other one writes. Rules of
different groups never depend on each other. -/
def dependsOn (r other : Rule) : Bool :=
  !r.inOtherGroup other &&
    let sources := r.sources
    other.actions.any fun action => Text.references sources action.field

def fieldsReadFrom (r other : Rule) : List String :=
  let sources := r.sources
  (other.actions.map Action.field).filter fun field => Text.references sources field

/-- The fields to name when rules depend on each other: those of a cycle among all their actions,
or else every field that one of them reads from another. -/
def cycleFields (rules : List Rule) : List String :=
  let actions := rules.flatMap Rule.actions
  match (DependencyGraph.ofItems Action.dependsOn actions).unresolvable with
  | [] =>
    let numbered := rules.zipIdx
    distinctFields (numbered.flatMap fun r =>
      numbered.flatMap fun other => if r.2 = other.2 then [] else r.1.fieldsReadFrom other.1)
  | cycle => distinctFields ((pick actions cycle).map Action.field)

end Rule

namespace RuleSet

def ruleGraph (s : RuleSet) : DependencyGraph := .ofItems Rule.dependsOn s.rules

/-- The ruleset with its rules in order, or the rules and the fields of a cycle. -/
def resolveRules (s : RuleSet) : Except Problem RuleSet :=
  let graph := s.ruleGraph
  match graph.unresolvable with
  | [] => .ok { s with entries := pick s.entries graph.order }
  | cycle =>
    let entries := pick s.entries cycle
    .error (.ruleCycle (Ordered.keys entries) (Rule.cycleFields (entries.map (·.2))))

end RuleSet

end EventRules
