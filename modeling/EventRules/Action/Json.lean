import EventRules.Action.Basic
import EventRules.Condition.Json
import EventRules.Json.Token

/-!
Actions in JSON. An action is an object: its identity, the name of its kind and its target stand
beside the members of its effect, and the kind decides which members these are.
-/
namespace EventRules

open Json (always optional record unlessEmpty)

/-- Read `{value}`. -/
def valueEntry? (value : Json) : Option String := do
  let fields ← value.fields? ["value"]
  Json.textField "value" fields

/-- Write a list of `{value}`. -/
def valueEntries (values : List String) : Json :=
  .array (values.map fun v => .object [("value", .text v)])

namespace Source

def ofJson? (value : Json) : Option Source := do
  let fields ← value.fields? ["value", "regex", "state", "values"]
  let value ← Json.textField "value" fields
  let regex ← Json.optionalText "regex" fields
  let state ← Json.optionalText "state" fields
  let values ← Json.listField valueEntry? "values" fields
  return { value, regex, state, values }

/-- Write a source; an empty expression and an empty list are left out. -/
def toJson (s : Source) : Json :=
  record
    [unlessEmpty "value" s.value, optional "regex" (s.regex.map .text),
      optional "state" (s.state.map .text),
      if s.values.isEmpty then none else some ("values", valueEntries s.values)]

end Source

namespace KeyValue

def ofJson? (value : Json) : Option KeyValue := do
  let fields ← value.fields? ["key", "value"]
  let key ← Json.textField "key" fields
  let value ← Json.textField "value" fields
  return { key, value }

def toJson (e : KeyValue) : Json := .object [("key", .text e.key), ("value", .text e.value)]

end KeyValue

namespace ValueTable

def ofJson? (value : Json) : Option ValueTable := do
  let fields ← value.fields? ["values", "haveDefault", "default"]
  let entries ← Json.listField KeyValue.ofJson? "values" fields
  let hasDefault ← Json.flagField "haveDefault" fields
  let default ← Json.textField "default" fields
  return { entries, hasDefault, default }

/-- Write a table; an empty default is left out. -/
def toJson (t : ValueTable) : Json :=
  record
    [always "values" (.array (t.entries.map KeyValue.toJson)),
      always "haveDefault" (.bool t.hasDefault), unlessEmpty "default" t.default]

end ValueTable

namespace DateFormat

def ofJson? (value : Json) : Option DateFormat := do
  let fields ← value.fields? ["fromFormat", "fromTimezone", "toFormat", "toTimezone"]
  let fromFormat ← Json.textField "fromFormat" fields
  let fromTimezone ← Json.textField "fromTimezone" fields
  let toFormat ← Json.textField "toFormat" fields
  let toTimezone ← Json.textField "toTimezone" fields
  return { fromFormat, fromTimezone, toFormat, toTimezone }

def toJson (d : DateFormat) : Json :=
  .object
    [("fromFormat", .text d.fromFormat), ("fromTimezone", .text d.fromTimezone),
      ("toFormat", .text d.toFormat), ("toTimezone", .text d.toTimezone)]

end DateFormat

namespace Replacement

def ofJson? (value : Json) : Option Replacement := do
  let fields ← value.fields? ["find", "replace"]
  let find ← Json.textField "find" fields
  let replace ← Json.textField "replace" fields
  return { find, replace }

def toJson (r : Replacement) : Json :=
  .object [("find", .text r.find), ("replace", .text r.replace)]

end Replacement

namespace LogLine

def ofJson? (value : Json) : Option LogLine := do
  let fields ← value.fields? ["name", "level", "text"]
  let name ← Json.textField "name" fields
  let level ← Json.textField "level" fields
  let text ← Json.textField "text" fields
  return { name, level, text }

def toJson (l : LogLine) : Json :=
  .object [("name", .text l.name), ("level", .text l.level), ("text", .text l.text)]

end LogLine

namespace CaseChange

def ofJson? (value : Json) : Option CaseChange := do
  let fields ← value.fields? ["targetCase", "isTrimString", "startValue"]
  let targetCase ← Json.textField "targetCase" fields
  let trims ← Json.flagField "isTrimString" fields
  let start ← Json.textField "startValue" fields
  return { targetCase, trims, start }

def toJson (c : CaseChange) : Json :=
  .object
    [("targetCase", .text c.targetCase), ("isTrimString", .bool c.trims),
      ("startValue", .text c.start)]

end CaseChange

namespace Enrichment

def ofJson? (value : Json) : Option Enrichment := do
  let fields ← value.fields? ["fields", "prefix"]
  let names ← Json.listField valueEntry? "fields" fields
  let fieldPrefix ← Json.textField "prefix" fields
  return { fields := names, fieldPrefix }

def toJson (e : Enrichment) : Json :=
  .object [("fields", valueEntries e.fields), ("prefix", .text e.fieldPrefix)]

end Enrichment

namespace TopologySearch

def ofJson? (value : Json) : Option TopologySearch := do
  let fields ← value.fields?
    ["searchField", "searchValue", "radio", "searchFilter", "enrich", "updates"]
  let field ← Json.textField "searchField" fields
  let value ← Json.textField "searchValue" fields
  let mode ← Json.textField "radio" fields
  let filter ← Json.optionalField Comparison.ofJson? "searchFilter" fields
  let enrichment ← Json.optionalField Enrichment.ofJson? "enrich" fields
  let updates ← Json.listField KeyValue.ofJson? "updates" fields
  return { field, value, mode, filter, enrichment, updates }

/-- Write a search; empty updates are left out. -/
def toJson (s : TopologySearch) : Json :=
  record
    [always "searchField" (.text s.field), always "searchValue" (.text s.value),
      always "radio" (.text s.mode), optional "searchFilter" (s.filter.map Comparison.toJson),
      optional "enrich" (s.enrichment.map Enrichment.toJson),
      if s.updates.isEmpty then none
      else some ("updates", .array (s.updates.map KeyValue.toJson))]

end TopologySearch

def soleText? (name : String) (value : Json) : Option String := do
  let fields ← value.fields? [name]
  Json.textField name fields

namespace Effect

/-- Read the effect of an action of a kind among the members of the action. -/
def ofFields? (kind : ActionKind) (fields : List (String × Json)) : Option Effect := do
  let source := Json.fieldOr {} Source.ofJson? "from" fields
  match kind with
  | .copy => return .copy (← source)
  | .concat => return .concat (← source)
  | .map => return .map (← source) (← Json.fieldOr {} ValueTable.ofJson? "map" fields)
  | .dateFormatter =>
    return .formatDate (← source) (← Json.fieldOr {} DateFormat.ofJson? "dateFormatter" fields)
  | .clear => return .clear (← source)
  | .clearNonStandard => return .clearNonStandard (← source)
  | .replaceText =>
    return .replaceText (← source) (← Json.fieldOr {} Replacement.ofJson? "replaceText" fields)
  | .logEvent => return .logEvent (← Json.fieldOr "" (soleText? "title") "logEvent" fields)
  | .logText => return .logText (← Json.fieldOr {} LogLine.ofJson? "logText" fields)
  | .hpMetric =>
    return .hpMetric (← Json.fieldOr "" (soleText? "selectedHpMetric") "hpMetric" fields)
  | .stringTransform =>
    return .changeCase (← Json.fieldOr {} CaseChange.ofJson? "stringTransform" fields)
  | .topologySearch =>
    return .searchTopology (← Json.fieldOr {} TopologySearch.ofJson? "search" fields)

def members : Effect → List (String × Json)
  | .copy source => [("from", source.toJson)]
  | .concat source => [("from", source.toJson)]
  | .map source table => [("from", source.toJson), ("map", table.toJson)]
  | .formatDate source format => [("from", source.toJson), ("dateFormatter", format.toJson)]
  | .clear source => [("from", source.toJson)]
  | .clearNonStandard source => [("from", source.toJson)]
  | .replaceText source replacement =>
    [("from", source.toJson), ("replaceText", replacement.toJson)]
  | .logEvent title => [("logEvent", .object [("title", .text title)])]
  | .logText line => [("logText", line.toJson)]
  | .hpMetric selected => [("hpMetric", .object [("selectedHpMetric", .text selected)])]
  | .changeCase change => [("stringTransform", change.toJson)]
  | .searchTopology search => [("search", search.toJson)]

end Effect

namespace Action

inductive Rejection where
  /-- The name of its kind is not known. -/
  | unsupported (typeName : String)
  /-- A member has the wrong shape. -/
  | mismatched
  deriving DecidableEq

/-- The name of its kind in a value that should be an action; empty when there is none. -/
def typeNameOf (value : Json) : String :=
  ((value.member? "actionType").bind Json.text?).getD ""

def ofFields? (kind : ActionKind) (fields : List (String × Json)) : Option Action := do
  let id ← Json.optionalText "id" fields
  let typeName ← Json.textField "actionType" fields
  let target ← Json.textField "target" fields
  let effect ← Effect.ofFields? kind fields
  return { id, typeName, target, effect }

/-- Read an action; its kind is looked at first. -/
def ofJson (value : Json) : Except Rejection Action :=
  match ActionKind.ofName? (typeNameOf value) with
  | none => .error (.unsupported (typeNameOf value))
  | some kind =>
    match value.members?.bind (ofFields? kind) with
    | some action => .ok action
    | none => .error .mismatched

/-- Read an action where a reason for refusing it is not asked for. -/
def ofJson? (value : Json) : Option Action := (ofJson value).toOption

def toJson (a : Action) : Json :=
  record
    ([optional "id" (a.id.map .text), always "actionType" (.text a.typeName),
      always "target" (.text a.target)] ++ a.effect.members.map some)

end Action

end EventRules
