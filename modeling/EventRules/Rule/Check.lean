import EventRules.Action.Check
import EventRules.Catalog.Basic
import EventRules.Distinct
import EventRules.Phases
import EventRules.Rule.Basic

/-!
Checks of rules and rulesets. A ruleset is checked rule by rule, then against the catalog if there
is one, then for outer phases that several rules declare. Two further checks concern rulesets that
are about to be compiled: how they are grouped, and which phase names they use.
-/
namespace EventRules

namespace Rule

/-- Check a rule: a phase where there is a group, a description, actions, the condition. -/
def check (r : Rule) : Check :=
  Check.all
    [Check.require (r.group?.isNone || r.phase?.isSome) .groupWithoutPhase,
      Check.require (isFilled r.description) .noDescription,
      if r.actions.isEmpty then Check.report .noActions else Check.each Action.check r.actions,
      (r.condition.map Condition.check).getD Check.pass]

end Rule

namespace RuleSet

/-- The version and the event type under which a rule is looked up: its own, or else those of the
ruleset; none when neither is declared. -/
def schemaOf? (s : RuleSet) (r : Rule) : Option (String × String) :=
  let version := (Text.nonBlank r.version).or (Text.nonBlank s.version)
  let eventType := (Text.nonBlank r.eventType).or (Text.nonBlank s.eventType)
  if version.isNone && eventType.isNone then none
  else some (version.getD "", eventType.getD "")

/-- Check that each declared schema is in the catalog, once for each. -/
def checkSchemas (catalog : Catalog) (s : RuleSet) : Check :=
  Check.each
    (fun schema =>
      Check.require (catalog.contains schema.1 schema.2) (.unknownSchema schema.1 schema.2))
    (distinct (s.rules.filterMap s.schemaOf?))

/-- Check that no two rules declare the same name for an outer phase. -/
def checkDeclarations (role : OuterPhase) (declared : Rule → Option String) (s : RuleSet) :
    Check :=
  Check.each (fun name => Check.report (.repeatedPhase role name))
    (repeated (s.rules.filterMap declared))

/-- Check a ruleset. An empty one has no other problem. -/
def check (catalog : Option Catalog) (s : RuleSet) : Check :=
  if s.entries.isEmpty then Check.report .noRules
  else
    Check.all
      [Check.each Rule.check s.rules,
        (catalog.map fun c => s.checkSchemas c).getD Check.pass,
        s.checkDeclarations .entry Rule.entry?, s.checkDeclarations .publish Rule.publish?]

def rulePhases (s : RuleSet) : List String := s.rules.filterMap Rule.phase?

/-- Check that neither outer phase is the phase of a rule. -/
def checkPhaseNames (phases : Phases) (s : RuleSet) : Check :=
  Check.both (Check.require (!s.rulePhases.contains phases.entry) (.phaseTaken .entry))
    (Check.require (!s.rulePhases.contains phases.publish) (.phaseTaken .publish))

def phasesOfGroup (s : RuleSet) (group : String) : List String :=
  distinct ((s.rules.filter fun r => r.group? == some group).filterMap Rule.phase?)

def groups (s : RuleSet) : List String :=
  (distinct (s.rules.filterMap Rule.group?)).mergeSort fun a b => a ≤ b

/-- Check that all rules have a group or none has one, and that each group has one phase. -/
def checkGroups (s : RuleSet) : Check :=
  let grouped := s.rules.filter fun r => r.group?.isSome
  Check.both
    (Check.require (grouped.isEmpty || grouped.length == s.size) .partlyGrouped)
    (Check.each
      (fun group =>
        Check.require ((s.phasesOfGroup group).length ≤ 1) (.groupInSeveralPhases group))
      s.groups)

end RuleSet

end EventRules
