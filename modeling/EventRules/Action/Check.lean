import EventRules.Action.Basic
import EventRules.Condition.Check
import EventRules.Json.Sentinel

/-!
Checks of actions: what has to be filled in for each kind. Every fault of an action is reported,
with the name of the action and the field that it writes.
-/
namespace EventRules

def isFilled (s : String) : Bool := !Text.isBlank s

namespace Action

def blank (a : Action) (field : String) : Problem := .blankField field a.shownName a.field

def requireField (a : Action) (value field : String) : Check :=
  Check.require (isFilled value) (a.blank field)

/-- The target is filled, and not with the sentinel for the empty text. -/
def targetFilled (a : Action) : Bool :=
  isFilled a.target && Text.trim a.target ≠ emptySentinel

/-- Check the target, where the kind of the action needs one. -/
def checkTarget (a : Action) : Check :=
  Check.require (a.kind.allowsNoTarget || a.targetFilled) (a.blank "target")

/-- Check the entries of a table: no part is blank, no key repeated. -/
def checkEntries (a : Action) (entries : List KeyValue) : Check :=
  Check.both
    (Check.require (entries.all fun e => isFilled e.key && isFilled e.value) (.blankEntry a.field))
    (Check.require (decide (entries.map KeyValue.key).Nodup) (.repeatedKey a.field))

/-- Check a table of values: entries unless there is a default, and no blank default. -/
def checkTable (a : Action) (table : ValueTable) : Check :=
  Check.both
    (if table.entries.isEmpty then Check.require table.hasDefault (.blankEntry a.field)
      else a.checkEntries table.entries)
    (Check.require (!table.hasDefault || isFilled table.default) (.blankDefault a.field))

/-- Check what a search takes over: some field, or entries. -/
def checkOutcome (a : Action) (search : TopologySearch) : Check :=
  if search.enriches then
    Check.require ((search.enrichment.map Enrichment.fields).getD [] |>.any isFilled)
      (a.blank "enrich fields")
  else if search.updates.isEmpty then Check.report (.blankEntry a.field)
  else a.checkEntries search.updates

/-- Check a search: field, value, filter and what it takes over. -/
def checkSearch (a : Action) (search : TopologySearch) : Check :=
  Check.all
    [a.requireField search.field "search field", a.requireField search.value "search value",
      (search.activeFilter?.map Comparison.check).getD Check.pass, a.checkOutcome search]

/-- Check what an action of its kind has to have besides a target. -/
def checkEffect (a : Action) : Check :=
  match a.effect with
  | .copy source => a.requireField source.value "from"
  | .concat source =>
    Check.require (2 ≤ (source.values.filter isFilled).length) (.tooFewValues a.field)
  | .map source table => Check.both (a.requireField source.value "from") (a.checkTable table)
  | .formatDate source format =>
    Check.all
      [a.requireField source.value "from", a.requireField format.fromFormat "from format",
        a.requireField format.fromTimezone "from timezone",
        a.requireField format.toFormat "to format",
        a.requireField format.toTimezone "to timezone"]
  | .clear source => Check.require (source.values.any isFilled) (a.blank "from")
  | .clearNonStandard source => Check.require (source.values.any isFilled) (a.blank "from")
  | .replaceText source replacement =>
    Check.all
      [a.requireField source.value "from", a.requireField replacement.find "find",
        a.requireField replacement.replace "replace"]
  | .logEvent title => a.requireField title "title"
  | .logText line => a.requireField line.text "text"
  | .hpMetric selected => a.requireField selected "HP Metric"
  | .changeCase change =>
    Check.both (a.requireField change.targetCase "target case")
      (a.requireField change.start "value")
  | .searchTopology search => a.checkSearch search

/-- Check an action: its target, then what its kind has to have. -/
def check (a : Action) : Check := Check.both a.checkTarget a.checkEffect

end Action

end EventRules
