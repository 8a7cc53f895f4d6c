import EventRules.Action.Basic
import EventRules.Filter

/-!
Processors: the form of actions in a pipeline document. Plain assignments that follow each other
become one processor, with the updates in the order in which their targets first occur and the
last expression for each target; every other action becomes a processor of its own.
-/
namespace EventRules

/-- What a topology search assigns: an expression, or a truth value. -/
inductive UpdateValue where
  | text (expression : String)
  | flag (value : Bool)
  deriving DecidableEq

def UpdateValue.toJson : UpdateValue → Json
  | .text expression => .text expression
  | .flag value => .bool value

inductive SearchOutcome where
  | update (updates : List (String × UpdateValue))
  | enrich (fields : List String) (fieldPrefix : String)

inductive Processor where
  | set (updates : List (String × String))
  | extractText (regex field value : String)
  | mapValues (table : List (String × String)) (field toField : String)
      (default : Option String)
  | formatDate (format : DateFormat) (toField value : String)
  | clear (fields : List String)
  | clearNonStandard (reserved : List String)
  | replaceText (field : String) (replacement : Replacement)
  | logEvent (title : String)
  | logText (line : LogLine)
  | changeCase (change : CaseChange) (toField : String)
  | searchTopology (field value : String) (filter : Option Filter) (outcome : SearchOutcome)
  | runPhase (phase : String)
  | convertSnmp

namespace Processor

instance : Inhabited Processor := ⟨.convertSnmp⟩

def className : Processor → String
  | .set _ => "Set"
  | .extractText .. => "ExtractText"
  | .mapValues .. => "MapAlarmValues"
  | .formatDate .. => "DateFormatter"
  | .clear _ => "Clear"
  | .clearNonStandard _ => "ClearNoneStandardFields"
  | .replaceText .. => "ReplaceText"
  | .logEvent _ => "LogEvent"
  | .logText _ => "LogText"
  | .changeCase .. => "StringTransform"
  | .searchTopology .. => "TopoSearch"
  | .runPhase _ => "RunPhase"
  | .convertSnmp => "SnmpConvertor"

def tableToJson (table : List (String × String)) : Json :=
  .object (table.map fun entry => (entry.1, .text entry.2))

def members : Processor → List (Option (String × Json))
  | .set updates => [some ("updates", tableToJson updates)]
  | .extractText regex field value =>
    [some ("regex", .text regex), some ("field", .text field), some ("value", .text value)]
  | .mapValues table field toField default =>
    [some ("map", tableToJson table), some ("field", .text field),
      some ("toField", .text toField), default.map fun d => ("default", .text d)]
  | .formatDate format toField value =>
    [some ("fromFormat", .text format.fromFormat), some ("fromTz", .text format.fromTimezone),
      some ("toField", .text toField), some ("toFormat", .text format.toFormat),
      some ("toTz", .text format.toTimezone), some ("value", .text value)]
  | .clear fields => [some ("fields", .ofTexts fields)]
  | .clearNonStandard reserved => [some ("reservedFields", .ofTexts reserved)]
  | .replaceText field replacement =>
    [some ("field", .text field), some ("find", .text replacement.find),
      some ("replace", .text replacement.replace)]
  | .logEvent title => [some ("title", .text title)]
  | .logText line =>
    [some ("logLevel", .text line.level), some ("logName", .text line.name),
      some ("logText", .text line.text)]
  | .changeCase change toField =>
    [some ("targetCase", .text change.targetCase),
      some ("trim", .text (if change.trims then "true" else "false")),
      some ("toField", .text toField), some ("value", .text change.start)]
  | .searchTopology field value filter outcome =>
    [some ("searchField", .text field), some ("searchValue", .text value),
      filter.map fun f => ("searchFilter", f.toJson)] ++
      match outcome with
      | .update updates =>
        [some ("updates", .object (updates.map fun entry => (entry.1, entry.2.toJson)))]
      | .enrich fields fieldPrefix =>
        [some ("enrichFields", .ofTexts fields), some ("enrichPrefix", .text fieldPrefix)]
  | .runPhase phase => [some ("phase", .text phase)]
  | .convertSnmp =>
    [some ("array", .text "varbinds"), some ("datacolumn", .text "varbind_value"),
      some ("keycolumn", .text "varbind_oid")]

/-- A processor as JSON; the class is the last member. -/
def toJson (p : Processor) : Json :=
  .record (p.members ++ [some ("class", .text p.className)])

end Processor

namespace TopologySearch

/-- The updates of a search, in the order of their keys, with the mark of an enriched event. -/
def markedUpdates (s : TopologySearch) : List (String × UpdateValue) :=
  Ordered.insert "isEnriched" (.flag true)
    (Ordered.ofPairs (s.updates.map fun e => (e.key, .text e.value)))

def outcome (s : TopologySearch) : SearchOutcome :=
  if s.enriches then
    let enrichment := s.enrichment.getD {}
    .enrich enrichment.fields enrichment.fieldPrefix
  else .update s.markedUpdates

def processor (s : TopologySearch) : Except FilterFault Processor :=
  match s.activeFilter? with
  | none => .ok (.searchTopology s.field s.value none s.outcome)
  | some comparison =>
    comparison.filter.map fun f => .searchTopology s.field s.value (some f) s.outcome

end TopologySearch

namespace ValueTable

def texts (t : ValueTable) : List (String × String) :=
  Ordered.ofPairs (t.entries.map fun e => (e.key, e.value))

end ValueTable

namespace Action

def processor (a : Action) : Except FilterFault Processor :=
  match a.effect with
  | .copy source =>
    match source.pattern? with
    | none => .ok (.set [(a.target, source.value)])
    | some regex => .ok (.extractText regex a.target source.value)
  | .concat source => .ok (.set [(a.target, source.joined)])
  | .map source table =>
    .ok (.mapValues table.texts source.value a.target
      (if table.hasDefault then some table.default else none))
  | .formatDate source format => .ok (.formatDate format a.target source.value)
  | .clear source => .ok (.clear source.values)
  | .clearNonStandard source => .ok (.clearNonStandard source.values)
  | .replaceText source replacement => .ok (.replaceText source.value replacement)
  | .logEvent title => .ok (.logEvent title)
  | .logText line => .ok (.logText line)
  | .hpMetric selected => .ok (.set [("parserType", selected)])
  | .changeCase change => .ok (.changeCase change a.target)
  | .searchTopology search => search.processor

def closeRun : Option (List (String × String)) → List Processor
  | none => []
  | some updates => [.set updates]

/-- The processors of actions that follow a run of assignments, which may still be open. -/
def processorsAfter (run : Option (List (String × String))) :
    List Action → Except FilterFault (List Processor)
  | [] => .ok (closeRun run)
  | a :: rest =>
    match a.assignment? with
    | some (target, expression) =>
      processorsAfter (some (Ordered.insert target expression (run.getD []))) rest
    | none =>
      match a.processor with
      | .error fault => .error fault
      | .ok own => (processorsAfter none rest).map fun others => closeRun run ++ own :: others

def processors (actions : List Action) : Except FilterFault (List Processor) :=
  processorsAfter none actions

end Action

end EventRules
