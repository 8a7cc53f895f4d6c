import EventRules.Diagnostic

/-!
The problems that make a rule or a ruleset unacceptable, and checks that collect them. A check
looks at everything, adds what it finds to what was found before it, and tells whether it found
nothing.
-/
namespace EventRules

inductive Operand where
  | left
  | right
  deriving DecidableEq

def Operand.word : Operand → String
  | .left => "left"
  | .right => "right"

/-- The phases that a rule or a ruleset may declare around the rules. -/
inductive OuterPhase where
  | entry
  | publish
  deriving DecidableEq

def OuterPhase.word : OuterPhase → String
  | .entry => "entry"
  | .publish => "publish"

/-- Why a rule or a ruleset is not accepted. -/
inductive Problem where
  /-- The ruleset is empty. -/
  | noRules
  /-- A rule has a group but no phase. -/
  | groupWithoutPhase
  /-- Some rules have a group and some have none. -/
  | partlyGrouped
  /-- The rules of a group declare several phases. -/
  | groupInSeveralPhases (group : String)
  /-- Several rules declare an outer phase by the same name. -/
  | repeatedPhase (role : OuterPhase) (name : String)
  /-- The name of an outer phase is the phase of a rule. -/
  | phaseTaken (role : OuterPhase)
  /-- The description of a rule is blank. -/
  | noDescription
  /-- A rule has no actions. -/
  | noActions
  /-- A field of an action is blank. -/
  | blankField (field action target : String)
  /-- A concatenation has fewer than two filled values. -/
  | tooFewValues (target : String)
  /-- A table has no entries, or an entry with a blank part. -/
  | blankEntry (target : String)
  /-- A table has a default that is blank. -/
  | blankDefault (target : String)
  /-- A table has two entries with the same key. -/
  | repeatedKey (target : String)
  /-- A condition group has an unknown type. -/
  | unknownGroup (name : String)
  /-- A condition group has no members. -/
  | emptyGroup
  /-- A side of a comparison is blank. -/
  | blankOperand (side : Operand)
  /-- A comparison has an unknown operator. -/
  | unknownOperator (shown : String)
  /-- The catalog does not hold the event type under the version. -/
  | unknownSchema (version eventType : String)
  /-- Actions of a rule depend on each other; the fields are those that they write. -/
  | actionCycle (fields : List String)
  /-- Rules depend on each other within the fields. -/
  | ruleCycle (rules fields : List String)
  deriving DecidableEq

namespace Problem

def diagnostic : Problem → Diagnostic
  | .noRules => .invalidFormat "no rules found"
  | .groupWithoutPhase => .invalidFormat "please define group name"
  | .partlyGrouped => .invalidFormat "all rules must belong to a group"
  | .groupInSeveralPhases group =>
    .invalidFormat ("group " ++ group ++ " is assigned to more than one phase")
  | .repeatedPhase role name =>
    .invalidFormat (role.word ++ " phase name " ++ name ++ " is declared by more than one rule")
  | .phaseTaken role => ⟨.translateFailed, [role.word ++ " phase name already exists"]⟩
  | .noDescription => ⟨.missingRuleDescription, []⟩
  | .noActions => ⟨.missingAction, []⟩
  | .blankField field action target => ⟨.missingActionField, [field, action, target]⟩
  | .tooFewValues target => ⟨.missingConcatValue, [target]⟩
  | .blankEntry target => ⟨.missingEntry, [target]⟩
  | .blankDefault target => ⟨.missingDefaultValue, [target]⟩
  | .repeatedKey target => ⟨.duplicateKey, [target]⟩
  | .unknownGroup name => ⟨.invalidGroupCondition, [name]⟩
  | .emptyGroup => ⟨.missingConditionItem, []⟩
  | .blankOperand side => ⟨.missingOperand, [side.word]⟩
  | .unknownOperator shown => ⟨.invalidOperator, [shown]⟩
  | .unknownSchema version eventType => ⟨.unknownEventSchema, [version, eventType]⟩
  | .actionCycle fields => ⟨.actionDependency, [", ".intercalate fields]⟩
  | .ruleCycle rules fields =>
    ⟨.ruleDependency, [", ".intercalate rules, ", ".intercalate fields]⟩

end Problem

/-- A check: from the problems found before it to whether it found none, and the problems found
with it. -/
def Check := List Problem → Bool × List Problem

namespace Check

def pass : Check := fun found => (true, found)

def report (problem : Problem) : Check := fun found => (false, found ++ [problem])

def require (holds : Bool) (problem : Problem) : Check :=
  if holds then pass else report problem

/-- One check and then another, whatever the first one finds. -/
def both (first second : Check) : Check := fun found =>
  let (x, found) := first found
  let (y, found) := second found
  (x && y, found)

def all (checks : List Check) : Check := checks.foldr both pass

def each {α : Type} (check : α → Check) (items : List α) : Check := all (items.map check)

def problems (check : Check) : List Problem := (check []).2

def accepts (check : Check) : Bool := (check []).1

end Check

end EventRules
