import EventRules.Catalog.Basic
import EventRules.Host.Fault
import EventRules.Json.Record
import EventRules.Payload
import EventRules.Schema.EventTypes

/-!
Catalogs in JSON: a whole catalog in one document, or the event types of one version.
-/
namespace EventRules

namespace Catalog

inductive Fault where
  | io (fault : IoFault)
  | json (fault : JsonFault)
  /-- A document, known by its source, violates its schema. -/
  | invalid (source : String) (violations : List Violation)

def Fault.message : Fault → String
  | .io fault => "Catalog IO error: " ++ fault.message
  | .json fault => "Catalog JSON error: " ++ fault.message
  | .invalid source violations =>
    "Invalid catalog document " ++ source ++ ": " ++ Violation.messages violations

def sortedTexts (texts : List String) : List String :=
  Ordered.keys (sortedTable (texts.map fun t => (t, ())))

def readMembers {α : Type} (read : Json → Option α) :
    List (String × Json) → Option (List (String × α))
  | [] => some []
  | (key, value) :: rest => do
    let first ← read value
    let others ← readMembers read rest
    return (key, first) :: others

def eventTypes? (value : Json) : Option EventTypes :=
  (value.members?.bind (readMembers fun fields =>
    (Json.list? Json.text? fields).map sortedTexts)).map sortedTable

def readConforming {α : Type} (schema : Schema) (read : Json → Option α) (source : String)
    (value : Json) : Except Fault α :=
  match schema value with
  | [] =>
    match read value with
    | some result => .ok result
    | none => .error (.json .mismatched)
  | violations => .error (.invalid source violations)

def eventTypesOfJson (source : String) (value : Json) : Except Fault EventTypes :=
  readConforming Schema.eventTypes eventTypes? source value

def ofJson (source : String) (value : Json) : Except Fault Catalog :=
  readConforming Schema.catalog
    (fun v => (v.members?.bind (readMembers eventTypes?)).map fun versions =>
      ⟨sortedTable versions⟩)
    source value

def parseFile (octets : List UInt8) : Except Fault Json :=
  match Encoding.Utf8.decode octets with
  | .error _ => .error (.io .notText)
  | .ok text =>
    match Json.parse text with
    | .ok value => .ok value
    | .error fault => .error (.json fault)

end Catalog

end EventRules
