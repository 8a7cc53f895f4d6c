import EventRules.Json.Printer

/-!
Schemas of JSON documents. A schema is a function from a value to the violations that it finds,
all of them, in the order of the document; a value conforms when there are none. Rules about
members or items say nothing about a value that is no object or array.
-/
namespace EventRules

inductive Violation where
  | wrongType (value : Json) (expected : String)
  | noMembers (value : Json)
  | emptyText (value : Json)
  | repeatedItems (value : Json)
  | fewItems (value : Json) (least : Nat)
  | missingMember (key : String)
  | unexpectedMembers (keys : List String)
  | notListed (value : Json) (first second : String) (others : Nat)

namespace Violation

def message : Violation → String
  | .wrongType value expected => value.compact ++ " is not of type \"" ++ expected ++ "\""
  | .noMembers value => value.compact ++ " has less than 1 property"
  | .emptyText value => value.compact ++ " is shorter than 1 character"
  | .repeatedItems value => value.compact ++ " has non-unique elements"
  | .fewItems value least => value.compact ++ " has less than " ++ toString least ++ " items"
  | .missingMember key => Json.quote key ++ " is a required property"
  | .unexpectedMembers keys =>
    "Additional properties are not allowed (" ++
      ", ".intercalate (keys.map fun key => "'" ++ key ++ "'") ++
      (if keys.length = 1 then " was" else " were") ++ " unexpected)"
  | .notListed value first second others =>
    value.compact ++ " is not one of \"" ++ first ++ "\", \"" ++ second ++ "\" or " ++
      toString others ++ " other candidates"

def messages (violations : List Violation) : String :=
  "; ".intercalate (violations.map message)

end Violation

abbrev Schema := Json → List Violation

namespace Schema

def filledText : Schema
  | .text s => if s = "" then [.emptyText (.text s)] else []
  | value => [.wrongType value "string"]

def listed (names : List String) : Schema := fun value =>
  match value with
  | .text s => if names.contains s then [] else [failure value]
  | _ => [failure value]
where
  /-- The violation names the first two candidates and counts the others. -/
  failure (value : Json) : Violation :=
    .notListed value (names.getD 0 "") (names.getD 1 "") (names.length - 2)

/-- The number of items up to which arrays are searched pair by pair. -/
def pairwiseLimit : Nat := 15

def pairwiseDistinct {α : Type} (same : α → α → Bool) : List α → Bool
  | [] => true
  | item :: rest => !rest.any (same item) && pairwiseDistinct same rest

/-- No two items are equal. Few items are compared by value; many by their texts, which differ for
an integer and the same number with a point. -/
def allDistinct (items : List Json) : Bool :=
  if items.length ≤ pairwiseLimit then pairwiseDistinct Json.sameValue items
  else pairwiseDistinct (· == ·) (items.map Json.compact)

def distinctItems (item : Schema) : Schema
  | .array items =>
    items.flatMap item ++ (if allDistinct items then [] else [.repeatedItems (.array items)])
  | value => [.wrongType value "array"]

def everyMember (member : Schema) : Schema
  | .object members => members.flatMap fun entry => member entry.2
  | value => [.wrongType value "object"]

def someMember : Schema
  | .object [] => [.noMembers (.object [])]
  | _ => []

def requires (keys : List String) : Schema
  | .object members =>
    (keys.filter fun key => !Ordered.contains key members).map .missingMember
  | _ => []

def onlyMembers (keys : List String) : Schema
  | .object members =>
    match (Ordered.keys members).filter fun key => !keys.contains key with
    | [] => []
    | unexpected => [.unexpectedMembers unexpected]
  | _ => []

def conforms (schema : Schema) (value : Json) : Bool := (schema value).isEmpty

end Schema

end EventRules
