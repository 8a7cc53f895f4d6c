import EventRules.Json.Basic

/-!
The sentinel for the empty text: two quotes, written where a filled field is required. In a
finished document every text and every key that is the sentinel becomes empty.
-/
namespace EventRules

/-- The text that stands for the empty text: two quotes. -/
def emptySentinel : String := "\"\""

/-- A text with the sentinel read as the empty text. -/
def unquoteEmpty (s : String) : String := if s = emptySentinel then "" else s

namespace Json

mutual

/-- A value with the sentinel read as the empty text everywhere. Keys that become equal keep the
first place and the last value. -/
def unquote : Json → Json
  | .null => .null
  | .bool value => .bool value
  | .number value => .number value
  | .text value => .text (unquoteEmpty value)
  | .array items => .array (unquoteItems items)
  | .object members => .object (unquoteMembers [] members)

def unquoteItems : List Json → List Json
  | [] => []
  | item :: rest => unquote item :: unquoteItems rest

/-- The members of an object, put into what is done of it. -/
def unquoteMembers (done : List (String × Json)) : List (String × Json) → List (String × Json)
  | [] => done
  | (key, value) :: rest =>
    unquoteMembers (Ordered.insert (unquoteEmpty key) (unquote value) done) rest

end

end Json

end EventRules
