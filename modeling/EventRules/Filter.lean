import EventRules.Condition.Basic

/-!
Filters: the form of conditions in a pipeline document. A search for a text compares with one
value, and with several values it is a group of such searches; members of a group that are groups
of the same kind are dissolved, and what they held goes to the end.
-/
namespace EventRules

inductive Filter where
  | group (kind : GroupKind) (members : List Filter)
  /-- A part of the subject is, in the way of the operator, the value. -/
  | text (op : Operator) (subject value : String)
  /-- The field compared with one value. -/
  | single (op : Operator) (field value : String)
  /-- The field compared with a list of values. -/
  | many (op : Operator) (field : String) (values : List String)
  /-- The field is there, or is not. -/
  | presence (op : Operator) (field : String)

namespace Filter

instance : Inhabited Filter := ⟨.group .all []⟩

def className : Filter → String
  | .group kind _ => kind.className
  | .text op .. => op.className
  | .single op .. => op.className
  | .many op .. => op.className
  | .presence op _ => op.className

mutual

def toJson : Filter → Json
  | .group kind members =>
    .object [("filters", .array (listToJson members)), ("class", .text kind.className)]
  | .text op subject value =>
    .object [("string", .text subject), ("value", .text value), ("class", .text op.className)]
  | .single op field value =>
    .object [("field", .text field), ("value", .text value), ("class", .text op.className)]
  | .many op field values =>
    .object [("field", .text field), ("values", .ofTexts values), ("class", .text op.className)]
  | .presence op field =>
    .object
      [("field", .text field), ("emptyIsAssigned", .bool false), ("class", .text op.className)]

def listToJson : List Filter → List Json
  | [] => []
  | f :: rest => toJson f :: listToJson rest

end

/-- The members of a group of the kind; a filter that is no such group has none. -/
def membersOf? (kind : GroupKind) : Filter → Option (List Filter)
  | .group k members => if k = kind then some members else none
  | _ => none

/-- A group of some filters, with nested groups of its kind dissolved at the end. -/
def collect (kind : GroupKind) (filters : List Filter) : Filter :=
  .group kind
    (filters.filter (fun f => (f.membersOf? kind).isNone) ++
      (filters.filterMap (membersOf? kind)).flatten)

def forNotification (notifyId : String) : Filter :=
  .text .startsWith "$\x7bnotify OID\x7d" notifyId

end Filter

inductive FilterFault where
  | unknownGroup (typeName : String)
  | unknownOperator (name : String)
  deriving DecidableEq

def FilterFault.message : FilterFault → String
  | .unknownGroup typeName =>
    "No translator registered for condition group type '" ++ typeName ++ "'"
  | .unknownOperator name => "No translator registered for condition operator '" ++ name ++ "'"

namespace Comparison

def filterWith (c : Comparison) (op : Operator) : Filter :=
  if op.searchesText then
    match c.right with
    | [value] => .text op c.left value
    | values => .group .any (values.map (.text op c.left))
  else if !op.needsValues then .presence op c.left
  else
    match op.alwaysMany, c.right with
    | false, [value] => .single op c.left value
    | _, values => .many op.manyForm c.left values

def filter (c : Comparison) : Except FilterFault Filter :=
  match c.operator? with
  | some op => .ok (c.filterWith op)
  | none => .error (.unknownOperator c.operatorName)

end Comparison

namespace Condition

mutual

def filter : Condition → Except FilterFault Filter
  | .group _ typeName members =>
    match GroupKind.ofName? typeName with
    | some kind =>
      match filters members with
      | .ok parts => .ok (Filter.collect kind parts)
      | .error fault => .error fault
    | none => .error (.unknownGroup typeName)
  | .comparison c => c.filter

def filters : List Condition → Except FilterFault (List Filter)
  | [] => .ok []
  | c :: rest =>
    match filter c with
    | .ok first =>
      match filters rest with
      | .ok others => .ok (first :: others)
      | .error fault => .error fault
    | .error fault => .error fault

end

end Condition

end EventRules
