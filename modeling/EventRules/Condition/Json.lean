import EventRules.Condition.Basic
import EventRules.Json.Record

/-!
Conditions in JSON. An object with a member `children` or `type` is a group; everything else is
read as a comparison, which may also be written as an array.
-/
namespace EventRules

open Json (always optional record)

namespace NodeLabel

def ofFields? (fields : List (String × Json)) : Option NodeLabel := do
  let id ← Json.optionalText "id" fields
  let level ← Json.optionalField some "level" fields
  let name ← Json.optionalText "name" fields
  return { id, level, name }

def members (label : NodeLabel) : List (Option (String × Json)) :=
  [optional "id" (label.id.map .text), optional "level" label.level,
    optional "name" (label.name.map .text)]

end NodeLabel

namespace Comparison

def fieldNames : List String := ["id", "level", "name", "left", "operator", "right"]

def ofJson? (value : Json) : Option Comparison := do
  let fields ← value.fields? fieldNames
  let label ← NodeLabel.ofFields? fields
  let left ← Json.textField "left" fields
  let operatorName ← Json.textField "operator" fields
  let right ← Json.listField Json.text? "right" fields
  return { label, left, operatorName, right }

def toJson (c : Comparison) : Json :=
  record (c.label.members ++
    [always "left" (.text c.left), always "operator" (.text c.operatorName),
      always "right" (.ofTexts c.right)])

end Comparison

namespace Condition

def isGroup (members : List (String × Json)) : Bool :=
  Ordered.contains "children" members || Ordered.contains "type" members

mutual

def ofJson? : Json → Option Condition
  | .object members =>
    if isGroup members then do
      let label ← NodeLabel.ofFields? members
      let typeName ← Json.textField "type" members
      let children ← childrenAmong? members
      return .group label typeName children
    else (Comparison.ofJson? (.object members)).map .comparison
  | .array items => (Comparison.ofJson? (.array items)).map .comparison
  | _ => none

/-- Read the member `children`; absent it is empty. -/
def childrenAmong? : List (String × Json) → Option (List Condition)
  | [] => some []
  | (key, value) :: rest => if key = "children" then childrenOf? value else childrenAmong? rest

def childrenOf? : Json → Option (List Condition)
  | .array items => allOf? items
  | _ => none

def allOf? : List Json → Option (List Condition)
  | [] => some []
  | value :: rest => do
    let first ← ofJson? value
    let others ← allOf? rest
    return first :: others

end

mutual

def toJson : Condition → Json
  | .group label typeName members =>
    record (label.members ++
      [always "type" (.text typeName), always "children" (.array (listToJson members))])
  | .comparison c => c.toJson

def listToJson : List Condition → List Json
  | [] => []
  | c :: rest => toJson c :: listToJson rest

end

end Condition

end EventRules
