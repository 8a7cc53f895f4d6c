import EventRules.Action.Json
import EventRules.Rule.Basic

/-!
Rules and rulesets in JSON.
-/
namespace EventRules

open Json (always optional record unlessEmpty)

namespace Rule

def fieldNames : List String :=
  ["uid", "description", "actions", "condition", "groupId", "phase", "entryPhase", "publishPhase",
    "notifyId", "version", "eventType"]

def ofJson? (value : Json) : Option Rule := do
  let fields ← value.fields? fieldNames
  let uid ← Json.textField "uid" fields
  let description ← Json.textField "description" fields
  let actions ← Json.listField Action.ofJson? "actions" fields
  let condition ← Json.optionalField Condition.ofJson? "condition" fields
  let groupId ← Json.optionalText "groupId" fields
  let phaseName ← Json.optionalText "phase" fields
  let entryPhase ← Json.optionalText "entryPhase" fields
  let publishPhase ← Json.optionalText "publishPhase" fields
  let notifyId ← Json.optionalText "notifyId" fields
  let version ← Json.optionalText "version" fields
  let eventType ← Json.optionalText "eventType" fields
  return {
    uid, description, actions, condition, groupId, phaseName, entryPhase, publishPhase, notifyId,
    version, eventType }

/-- Write a rule; an empty identifier is left out. -/
def toJson (r : Rule) : Json :=
  record
    [unlessEmpty "uid" r.uid, always "description" (.text r.description),
      always "actions" (.array (r.actions.map Action.toJson)),
      optional "condition" (r.condition.map Condition.toJson),
      optional "groupId" (r.groupId.map .text), optional "phase" (r.phaseName.map .text),
      optional "entryPhase" (r.entryPhase.map .text),
      optional "publishPhase" (r.publishPhase.map .text),
      optional "notifyId" (r.notifyId.map .text), optional "version" (r.version.map .text),
      optional "eventType" (r.eventType.map .text)]

end Rule

namespace RuleSet

def fieldNames : List String :=
  ["version", "eventType", "notifyId", "entryPhase", "publishPhase", "rules"]

/-- Read the rules of a ruleset, each under its key. -/
def readEntries? : List (String × Json) → Option (List (String × Rule))
  | [] => some []
  | (key, value) :: rest => do
    let rule ← Rule.ofJson? value
    let others ← readEntries? rest
    return (key, rule) :: others

def entries? (value : Json) : Option (List (String × Rule)) :=
  (value.members?.bind readEntries?).map Ordered.ofPairs

def ofJson? (value : Json) : Option RuleSet := do
  let fields ← value.fields? fieldNames
  let version ← Json.optionalText "version" fields
  let eventType ← Json.optionalText "eventType" fields
  let notifyId ← Json.optionalText "notifyId" fields
  let entryPhase ← Json.optionalText "entryPhase" fields
  let publishPhase ← Json.optionalText "publishPhase" fields
  let entries ← Json.fieldOr [] entries? "rules" fields
  return { version, eventType, notifyId, entryPhase, publishPhase, entries }

def toJson (s : RuleSet) : Json :=
  record
    [optional "version" (s.version.map .text), optional "eventType" (s.eventType.map .text),
      optional "notifyId" (s.notifyId.map .text), optional "entryPhase" (s.entryPhase.map .text),
      optional "publishPhase" (s.publishPhase.map .text),
      always "rules" (.object (s.entries.map fun entry => (entry.1, entry.2.toJson)))]

end RuleSet

end EventRules
