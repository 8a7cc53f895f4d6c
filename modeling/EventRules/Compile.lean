import EventRules.Catalog.Json
import EventRules.Dependency.Resolution
import EventRules.Journal
import EventRules.Payload
import EventRules.Pipeline.Basic
import EventRules.Schema.Pipeline

/-!
Compiling rulesets. A ruleset is checked and the actions of its rules are put in order; its groups
are checked; its phase names are checked and its rules put in order; then the document is made and
held against the schema of documents. Each stage is a function of its own, and the whole reports
its progress as log entries.
-/
namespace EventRules

/-- Why no document came out of a ruleset that was accepted. -/
inductive TranslationFault where
  | untranslatable (fault : FilterFault)
  | invalidDocument (violations : List Violation)

def TranslationFault.message : TranslationFault → String
  | .untranslatable fault => fault.message
  | .invalidDocument violations =>
    "Pipeline document is invalid: " ++ Violation.messages violations

inductive CompileFault where
  | payload (fault : Payload.Fault)
  | catalog (fault : Catalog.Fault)
  | translation (fault : TranslationFault)
  | rejected (problems : List Problem)

def CompileFault.message : CompileFault → String
  | .payload fault => "Payload error: " ++ fault.message
  | .catalog fault => "Catalog error: " ++ fault.message
  | .translation fault => "Translation error: " ++ fault.message
  | .rejected problems => "Rules rejected with " ++ toString problems.length ++ " error(s)"

/-- The result of a check: a value if it found nothing, or else all that it found. -/
def Check.result {α : Type} (check : Check) (value : α) : Except (List Problem) α :=
  match check.problems with
  | [] => .ok value
  | problems => .error problems

namespace Rule

/-- A rule that passes its checks, with its actions in order. -/
def validated (r : Rule) : Except (List Problem) Rule :=
  match r.check.problems with
  | [] => r.resolveActions.mapError fun problem => [problem]
  | problems => .error problems

end Rule

namespace RuleSet

/-- The rules with their actions in order, each with the identifier under which it stands, and
the problems of those that have none. -/
def resolveEach (s : RuleSet) : List (String × Rule) × List Problem :=
  s.entries.foldr
    (fun entry done =>
      match entry.2.resolveActions with
      | .ok rule => ((entry.1, { rule with uid := entry.1 }) :: done.1, done.2)
      | .error problem => (done.1, problem :: done.2))
    ([], [])

/-- A ruleset that passes its checks, with the actions of each rule in order. Cycles are looked
for when nothing else is wrong. -/
def imported (catalog : Option Catalog) (s : RuleSet) : Except (List Problem) RuleSet :=
  match (s.check catalog).problems with
  | [] =>
    match s.resolveEach with
    | (entries, []) => .ok { s with entries }
    | (_, problems) => .error problems
  | problems => .error problems

def grouped (s : RuleSet) : Except (List Problem) RuleSet := s.checkGroups.result s

/-- The phase names for a ruleset: the configured ones, with those that it declares. -/
def effectivePhases (configured : Phases) (s : RuleSet) : Phases :=
  configured.override s.entry? s.publish?

/-- A ruleset whose phase names do not collide, with its rules in order. -/
def prepared (phases : Phases) (s : RuleSet) : Except (List Problem) RuleSet :=
  match (s.checkPhaseNames phases).problems with
  | [] => s.resolveRules.mapError fun problem => [problem]
  | problems => .error problems

/-- The finished document of a ruleset, if it conforms to its schema. -/
def document (phases : Phases) (s : RuleSet) : Except TranslationFault Json :=
  match Pipeline.ofRuleSet phases s with
  | .error fault => .error (.untranslatable fault)
  | .ok pipeline =>
    match Schema.pipeline pipeline.toJson with
    | [] => .ok pipeline.toJson
    | violations => .error (.invalidDocument violations)

end RuleSet

namespace Compile

def rejectionEntries (problems : List Problem) : List LogEntry :=
  .error (toString problems.length ++ " error(s) found") ::
    problems.map fun p => (LogEntry.error p.diagnostic.line).indented 1

def phasesEntry (phases : Phases) : LogEntry :=
  .success ("Phases: " ++ phases.entry ++ " -> " ++ phases.run ++ " -> " ++ phases.publish)

/-- Compile a ruleset: the document or the fault, and the log entries. -/
def ruleSet (configured : Phases) (catalog : Option Catalog) (s : RuleSet) :
    Except CompileFault Json × List LogEntry :=
  let started : LogEntry := .info ("Compiling " ++ toString s.size ++ " rule(s)")
  let accepted :=
    match s.imported catalog with
    | .ok rules => rules.grouped
    | .error problems => .error problems
  match accepted with
  | .error problems => (.error (.rejected problems), started :: rejectionEntries problems)
  | .ok rules =>
    let validated : LogEntry := .success "Rules validated"
    let phases := rules.effectivePhases configured
    match rules.prepared phases with
    | .error problems =>
      (.error (.rejected problems), started :: validated :: rejectionEntries problems)
    | .ok rules =>
      let entries := [started, validated, phasesEntry phases]
      match rules.document phases with
      | .error fault => (.error (.translation fault), entries)
      | .ok value =>
        (.ok value,
          entries ++ [.success ("Translated " ++ toString (rules.size + 2) ++ " phase block(s)")])

def payload (fresh : String) (configured : Phases) (catalog : Option Catalog)
    (read : Except Payload.Fault Payload) : Except CompileFault Json × List LogEntry :=
  match read with
  | .ok payload => ruleSet configured catalog (payload.toRuleSet fresh)
  | .error fault => (.error (.payload fault), [])

end Compile

end EventRules
