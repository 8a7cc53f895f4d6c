import EventRules.Schema.Violation

/-!
The schema of pipeline documents. A document has at least two blocks; a block has a filled phase
and processors, and perhaps a filter; processors and filters have a known class, and the members
of a filter are filters.
-/
namespace EventRules.Schema

def processorClasses : List String :=
  ["Set", "ExtractText", "MapAlarmValues", "DateFormatter", "Clear", "ClearNoneStandardFields",
    "ReplaceText", "LogEvent", "LogText", "StringTransform", "TopoSearch", "RunPhase",
    "SnmpConvertor"]

def filterClasses : List String :=
  ["And", "Or", "Contains", "StartsWith", "EndsWith", "Equals", "NotEqual", "OneOf", "NotOneOf",
    "Assigned", "Unassigned"]

def processor : Schema
  | .object members =>
    (members.flatMap fun entry =>
      if entry.1 = "class" then listed processorClasses entry.2 else []) ++
      requires ["class"] (.object members)
  | value => [.wrongType value "object"]

mutual

def filter : Json → List Violation
  | .object members => filterMembers members ++ requires ["class"] (.object members)
  | value => [.wrongType value "object"]

def filterMembers : List (String × Json) → List Violation
  | [] => []
  | (key, value) :: rest =>
    (if key = "class" then listed filterClasses value
      else if key = "filters" then filterArray value
      else []) ++ filterMembers rest

def filterArray : Json → List Violation
  | .array items => filterItems items
  | value => [.wrongType value "array"]

def filterItems : List Json → List Violation
  | [] => []
  | item :: rest => filter item ++ filterItems rest

end

def processors : Schema
  | .array items => items.flatMap processor
  | value => [.wrongType value "array"]

def blockMember (key : String) : Schema := fun value =>
  if key = "phase" then filledText value
  else if key = "filter" then filter value
  else if key = "processors" then processors value
  else []

def block : Schema
  | .object members =>
    (members.flatMap fun entry => blockMember entry.1 entry.2) ++
      onlyMembers ["phase", "filter", "processors"] (.object members) ++
      requires ["phase", "processors"] (.object members)
  | value => [.wrongType value "object"]

def blocks : Schema
  | .array items =>
    (if items.length < 2 then [.fewItems (.array items) 2] else []) ++ items.flatMap block
  | value => [.wrongType value "array"]

def pipeline : Schema
  | .object members =>
    (members.flatMap fun entry => if entry.1 = "processing" then blocks entry.2 else []) ++
      onlyMembers ["processing"] (.object members) ++
      requires ["processing"] (.object members)
  | value => [.wrongType value "object"]

end EventRules.Schema
