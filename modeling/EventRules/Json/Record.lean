import EventRules.Json.Basic

/-!
Records in JSON. A record is written as an object, or as an array of its fields in their declared
order whose missing tail is absent. Fields that are not declared are ignored, absent ones take a
default, and a null stands for an absent field only where the field is optional.
-/
namespace EventRules.Json

/-- The fields of a record under their names, given the declared ones; none when the value is
neither an object nor an array of at most that many items. -/
def fields? (names : List String) : Json → Option (List (String × Json))
  | .object members => some members
  | .array items => if items.length ≤ names.length then some (names.zip items) else none
  | _ => none

/-- A field read by a reader, or a default when it is absent. -/
def fieldOr {α : Type} (default : α) (read : Json → Option α) (key : String)
    (fields : List (String × Json)) : Option α :=
  match fields.lookup key with
  | none => some default
  | some value => read value

/-- A text field; absent it is empty. -/
def textField (key : String) (fields : List (String × Json)) : Option String :=
  fieldOr "" text? key fields

def bool? : Json → Option Bool
  | .bool value => some value
  | _ => none

/-- A field that holds a truth value; absent it is false. -/
def flagField (key : String) (fields : List (String × Json)) : Option Bool :=
  fieldOr false bool? key fields

def optionalField {α : Type} (read : Json → Option α) (key : String)
    (fields : List (String × Json)) : Option (Option α) :=
  match fields.lookup key with
  | none => some none
  | some .null => some none
  | some value => (read value).map some

def optionalText (key : String) (fields : List (String × Json)) : Option (Option String) :=
  optionalField text? key fields

def readAll {α : Type} (read : Json → Option α) : List Json → Option (List α)
  | [] => some []
  | value :: rest => do
    let first ← read value
    let others ← readAll read rest
    return first :: others

def list? {α : Type} (read : Json → Option α) (value : Json) : Option (List α) :=
  value.items?.bind (readAll read)

/-- A list field; absent it is empty. -/
def listField {α : Type} (read : Json → Option α) (key : String)
    (fields : List (String × Json)) : Option (List α) :=
  fieldOr [] (list? read) key fields

end EventRules.Json
