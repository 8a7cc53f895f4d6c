import EventRules.Text.Blank

/-!
The closed sets of names in a payload: kinds of action, operators of a comparison, kinds of a
condition group. Names are compared with blanks dropped and letters lowered.
-/
namespace EventRules

inductive ActionKind where
  | copy
  | concat
  | map
  | dateFormatter
  | clear
  | clearNonStandard
  | replaceText
  | logEvent
  | logText
  | hpMetric
  | stringTransform
  | topologySearch
  deriving DecidableEq

namespace ActionKind

def all : List ActionKind :=
  [.copy, .concat, .map, .dateFormatter, .clear, .clearNonStandard, .replaceText, .logEvent,
    .logText, .hpMetric, .stringTransform, .topologySearch]

def name : ActionKind → String
  | .copy => "copy"
  | .concat => "concat"
  | .map => "map"
  | .dateFormatter => "date formatter"
  | .clear => "clear"
  | .clearNonStandard => "clear NSF"
  | .replaceText => "replace text"
  | .logEvent => "log event"
  | .logText => "log text"
  | .hpMetric => "hp metric"
  | .stringTransform => "string transform"
  | .topologySearch => "topology search"

def ofName? (written : String) : Option ActionKind :=
  all.find? fun kind => Text.normalizeName kind.name == Text.normalizeName written

/-- Actions of the kind may be plain assignments, which join a run of assignments. -/
def mayAssign : ActionKind → Bool
  | .copy | .concat => true
  | _ => false

def allowsNoTarget : ActionKind → Bool
  | .clear | .clearNonStandard | .replaceText | .logEvent | .logText | .hpMetric
  | .topologySearch => true
  | _ => false

end ActionKind

inductive Operator where
  | equals
  | notEqual
  | contains
  | endsWith
  | startsWith
  | oneOf
  | notOneOf
  | assigned
  | unassigned
  deriving DecidableEq

namespace Operator

def all : List Operator :=
  [.equals, .notEqual, .contains, .endsWith, .startsWith, .oneOf, .notOneOf, .assigned,
    .unassigned]

def className : Operator → String
  | .equals => "Equals"
  | .notEqual => "NotEqual"
  | .contains => "Contains"
  | .endsWith => "EndsWith"
  | .startsWith => "StartsWith"
  | .oneOf => "OneOf"
  | .notOneOf => "NotOneOf"
  | .assigned => "Assigned"
  | .unassigned => "Unassigned"

def ofName? (written : String) : Option Operator :=
  all.find? fun op => Text.normalizeName op.className == Text.normalizeName written

/-- The operator looks for a part of a text. -/
def searchesText : Operator → Bool
  | .contains | .endsWith | .startsWith => true
  | _ => false

def needsValues : Operator → Bool
  | .assigned | .unassigned => false
  | _ => true

/-- The operator that stands for this one when the values are several. -/
def manyForm : Operator → Operator
  | .equals => .oneOf
  | .notEqual => .notOneOf
  | op => op

/-- The operator takes a list of values even when there is one. -/
def alwaysMany : Operator → Bool
  | .oneOf | .notOneOf => true
  | _ => false

end Operator

inductive GroupKind where
  /-- Every member has to hold. -/
  | all
  /-- Some member has to hold. -/
  | any
  deriving DecidableEq

namespace GroupKind

def className : GroupKind → String
  | .all => "And"
  | .any => "Or"

def ofName? (written : String) : Option GroupKind :=
  let name := Text.normalizeName written
  if name = "all" then some .all else if name = "any" then some .any else none

end GroupKind

inductive ElementKind where
  | action (kind : ActionKind)
  | conditionGroup
  | textCondition
  | fieldCondition
  deriving DecidableEq

def ElementKind.name : ElementKind → String
  | .action kind => kind.name
  | .conditionGroup => "condition group"
  | .textCondition => "condition"
  | .fieldCondition => "field condition"

def Operator.elementKind (op : Operator) : ElementKind :=
  if op.searchesText then .textCondition else .fieldCondition

end EventRules
