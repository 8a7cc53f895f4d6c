import EventRules.Element
import EventRules.Json.Printer

/-!
The reference texts of the command line: the names that rules may use, and a sample ruleset.
-/
namespace EventRules.CommandLine

def padded (width : Nat) (s : String) : String :=
  s ++ String.ofList (List.replicate (width - s.length) ' ')

def lowerFirst (s : String) : String :=
  match s.toList with
  | [] => ""
  | c :: rest => String.ofList (c.toLower :: rest)

def mapping (name value : String) : String := "  " ++ padded 12 name ++ " -> " ++ value

def elementLines : List String :=
  ["Action types:"] ++ ActionKind.all.map (fun kind => "  " ++ kind.name) ++
    ["", "Condition operators:"] ++
    Operator.all.map (fun op => mapping (lowerFirst op.className) op.elementKind.name) ++
    ["", "Condition groups:", mapping "All" GroupKind.all.className,
      mapping "Any" GroupKind.any.className]

def reading (field : String) : String := "$\x7b" ++ field ++ "\x7d"

/-- A list of values as an action holds it. -/
def valueList (values : List String) : Json :=
  .array (values.map fun v => .object [("value", .text v)])

def sampleComparison (left operatorName : String) (right : List String) : Json :=
  .object [("left", .text left), ("operator", .text operatorName), ("right", .ofTexts right)]

def sampleRuleSet : Json :=
  .object
    [("version", .text "4.1"), ("eventType", .text "syslogFields"),
      ("rules", .object [("set-version", .object
        [("description", .text "Normalize version and build the event id"),
          ("actions", .array
            [.object
              [("actionType", .text "copy"), ("target", .text "event.commonEventHeader.version"),
                ("from", .object [("value", .text "4.1")])],
              .object
              [("actionType", .text "concat"),
                ("target", .text "event.commonEventHeader.eventId"),
                ("from", .object [("values", valueList
                  [reading "event.commonEventHeader.sourceName", "_",
                    reading "event.commonEventHeader.sequence"])])],
              .object
              [("actionType", .text "copy"),
                ("target", .text "event.commonEventHeader.sourceName"),
                ("from", .object
                  [("value", .text (reading "event.syslogFields.syslogMsg")),
                    ("regex", .text "^([^:]*):.*")])]]),
          ("condition", .object
            [("type", .text "All"),
              ("children", .array
                [sampleComparison (reading "event.commonEventHeader.domain") "notEqual"
                    ["fault", "heartbeat"],
                  sampleComparison (reading "event.syslogFields.syslogMsg") "contains"
                    [":"]])])])])]

end EventRules.CommandLine
