import EventRules.Diagnostic
import EventRules.Encoding.Decode
import EventRules.Host.Fault
import EventRules.Json.Parser
import EventRules.Rule.Json

/-!
Payloads: a rule or a ruleset, read from octets, a text or a JSON value. The kinds of the actions
are looked at before anything else of a document, so that an unknown kind is reported as such.
-/
namespace EventRules

def JsonFault.message : JsonFault → String
  | .malformed => "malformed JSON text"
  | .truncated => "JSON text ends too early"
  | .mismatched => "unexpected shape of a JSON value"

inductive Payload where
  | rule (value : Rule)
  | ruleSet (value : RuleSet)

namespace Payload

/-- Why a document is neither a rule nor a ruleset. -/
inductive Shapeless where
  | notAnObject
  | rulesNotKeyed
  | noRulesNorActions
  deriving DecidableEq

/-- The words for why a document is neither a rule nor a ruleset. -/
def Shapeless.message : Shapeless → String
  | .notAnObject => "expected a JSON object"
  | .rulesNotKeyed => "`rules` must be an object keyed by rule id"
  | .noRulesNorActions => "document has neither `rules` nor `actions`"

inductive Fault where
  | io (fault : IoFault)
  | encoding (fault : Encoding.Utf8.Fault)
  | json (fault : JsonFault)
  | unsupportedElement (typeName : String)
  | missingRuleSet (reason : Shapeless)
  deriving DecidableEq

namespace Fault

def message : Fault → String
  | .io fault => "Failed to read file: " ++ fault.message
  | .encoding fault => "Failed to decode payload: " ++ fault.message
  | .json fault => "Invalid payload: " ++ fault.message
  | .unsupportedElement typeName => "Unsupported element type: " ++ typeName
  | .missingRuleSet reason => "Missing ruleset: " ++ reason.message

def diagnostic (fault : Fault) : Diagnostic := .invalidFormat fault.message

end Fault

/-- The payload as a ruleset: a rule alone becomes a ruleset that takes over its schema. -/
def toRuleSet (fresh : String) : Payload → RuleSet
  | .ruleSet value => value
  | .rule value =>
    (RuleSet.add fresh value { version := value.version, eventType := value.eventType }).2

/-- The first unknown kind among the actions of a rule document. -/
def unknownKindInRule? (value : Json) : Option String :=
  (((value.member? "actions").bind Json.items?).getD []).findSome? fun action =>
    let typeName := Action.typeNameOf action
    if (ActionKind.ofName? typeName).isNone then some typeName else none

def unknownKind? (value : Json) : Option String :=
  match value.member? "rules" with
  | some (.object members) => members.findSome? fun member => unknownKindInRule? member.2
  | _ => unknownKindInRule? value

/-- Read a value after its kinds of action were looked at. -/
def readChecked {α : Type} (value : Json) (read : Json → Option α) : Except Fault α :=
  match unknownKind? value with
  | some typeName => .error (.unsupportedElement typeName)
  | none =>
    match read value with
    | some result => .ok result
    | none => .error (.json .mismatched)

/-- Read a JSON value. The rules of a ruleset take the identifiers under which they stand; a rule
alone that has none takes the fresh one. -/
def ofJson (fresh : String) (value : Json) : Except Fault Payload :=
  match value with
  | .object members =>
    match members.lookup "rules" with
    | some (.object _) => (readChecked value RuleSet.ofJson?).map fun s => .ruleSet s.syncIds
    | some _ => .error (.missingRuleSet .rulesNotKeyed)
    | none =>
      if Ordered.contains "actions" members || Ordered.contains "description" members then
        (readChecked value Rule.ofJson?).map fun r => .rule (r.identified fresh)
      else .error (.missingRuleSet .noRulesNorActions)
  | _ => .error (.missingRuleSet .notAnObject)

def ofText (fresh : String) (source : String) : Except Fault Payload :=
  match Json.parse source with
  | .ok value => ofJson fresh value
  | .error fault => .error (.json fault)

def ofBytes (fresh : String) (octets : List UInt8) : Except Fault Payload :=
  match Encoding.decodeAuto octets with
  | .ok source => ofText fresh source
  | .error fault => .error (.encoding fault)

end Payload

end EventRules
