import EventRules.Condition.Basic
import EventRules.Text.Reference

/-!
Actions: the steps of a rule. All actions have a target and the name of their kind as it is
written; what an action does depends on its kind.
-/
namespace EventRules

/-- Where an action reads from: an expression, or a list of them. -/
structure Source where
  value : String := ""
  regex : Option String := none
  state : Option String := none
  values : List String := []

namespace Source

def pattern? (s : Source) : Option String := s.regex.filter fun r => !Text.isBlank r

def joined (s : Source) : String := String.join s.values

end Source

structure KeyValue where
  key : String := ""
  value : String := ""
  deriving DecidableEq

structure ValueTable where
  entries : List KeyValue := []
  hasDefault : Bool := false
  default : String := ""

structure DateFormat where
  fromFormat : String := ""
  fromTimezone : String := ""
  toFormat : String := ""
  toTimezone : String := ""

structure Replacement where
  find : String := ""
  replace : String := ""

structure LogLine where
  name : String := ""
  level : String := ""
  text : String := ""

structure CaseChange where
  targetCase : String := ""
  trims : Bool := false
  start : String := ""

structure Enrichment where
  fields : List String := []
  fieldPrefix : String := ""

structure TopologySearch where
  field : String := ""
  value : String := ""
  mode : String := ""
  filter : Option Comparison := none
  enrichment : Option Enrichment := none
  updates : List KeyValue := []

namespace TopologySearch

/-- The search enriches: its mode says so, or the mode is blank and there is only an
enrichment. -/
def enriches (s : TopologySearch) : Bool :=
  let mode := Text.trim s.mode
  String.ofList (mode.toList.map Char.toLower) == "enrich" ||
    (mode == "" && s.updates.isEmpty && s.enrichment.isSome)

def activeFilter? (s : TopologySearch) : Option Comparison := s.filter.filter fun f => !f.isBlank

end TopologySearch

inductive Effect where
  | copy (source : Source)
  | concat (source : Source)
  | map (source : Source) (table : ValueTable)
  | formatDate (source : Source) (format : DateFormat)
  | clear (source : Source)
  | clearNonStandard (source : Source)
  | replaceText (source : Source) (replacement : Replacement)
  | logEvent (title : String)
  | logText (line : LogLine)
  | hpMetric (selected : String)
  | changeCase (change : CaseChange)
  | searchTopology (search : TopologySearch)

def Effect.kind : Effect → ActionKind
  | .copy .. => .copy
  | .concat .. => .concat
  | .map .. => .map
  | .formatDate .. => .dateFormatter
  | .clear .. => .clear
  | .clearNonStandard .. => .clearNonStandard
  | .replaceText .. => .replaceText
  | .logEvent .. => .logEvent
  | .logText .. => .logText
  | .hpMetric .. => .hpMetric
  | .changeCase .. => .stringTransform
  | .searchTopology .. => .topologySearch

def Effect.sources : Effect → List String
  | .copy source => [source.value]
  | .concat source => source.values
  | .map source _ => [source.value]
  | .formatDate source _ => [source.value]
  | .clear source => source.values
  | .clearNonStandard source => source.values
  | .replaceText source _ => [source.value]
  | .logEvent title => [title]
  | .logText line => [line.text]
  | .hpMetric _ => []
  | .changeCase change => [change.start]
  | .searchTopology search =>
    search.value :: (search.filter.map Comparison.sources).getD []

structure Action where
  id : Option String := none
  typeName : String := ""
  target : String := ""
  effect : Effect

namespace Action

instance : Inhabited Action := ⟨{ effect := .logEvent "" }⟩

def ofEffect (target : String) (effect : Effect) : Action :=
  { typeName := effect.kind.name, target, effect }

def copy (target value : String) : Action := ofEffect target (.copy { value })

def extract (target value regex : String) : Action :=
  ofEffect target (.copy { value, regex := some regex })

def concat (target : String) (values : List String) : Action :=
  ofEffect target (.concat { values })

def kind (a : Action) : ActionKind := a.effect.kind

def field (a : Action) : String := Text.stripField a.target

/-- The name of the kind as it is written, or its proper name where that is blank. -/
def shownName (a : Action) : String :=
  if Text.isBlank a.typeName then a.kind.name else a.typeName

def sources (a : Action) : List String := a.effect.sources

/-- The target and the expression of an action that is a plain assignment: a copy without a
pattern, or a concatenation. -/
def assignment? (a : Action) : Option (String × String) :=
  match a.effect with
  | .copy source => if source.pattern?.isNone then some (a.target, source.value) else none
  | .concat source => some (a.target, source.joined)
  | _ => none

/-- The action reads, in one of its expressions, the field that the other one writes. -/
def dependsOn (a other : Action) : Bool := Text.references a.sources other.field

end Action

end EventRules
