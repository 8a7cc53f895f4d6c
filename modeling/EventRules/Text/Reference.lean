import EventRules.Text.Blank

/-!
References to record fields. An expression names a field by writing its path between `${` and the
next `}`; a target may be written plainly or in the same decoration. The scan for references runs
from left to right without overlap: an opening pair inside a reference is part of its path, and a
reference that is never closed is none.
-/
namespace EventRules.Text

inductive ReferenceScan where
  /-- Between references. -/
  | outside
  /-- Just after a dollar sign. -/
  | dollar
  /-- Inside a reference, with the characters of its path so far in reverse. -/
  | inside (path : List Char)

namespace ReferenceScan

/-- One character of the scan: the next state, and the path of a reference that it closes. -/
def step : ReferenceScan → Char → ReferenceScan × Option (List Char)
  | .outside, c => (if c = '$' then .dollar else .outside, none)
  | .dollar, c =>
    (if c = '{' then .inside [] else if c = '$' then .dollar else .outside, none)
  | .inside path, c =>
    if c = '}' then (.outside, some path.reverse) else (.inside (c :: path), none)

/-- The raw paths of the references closed by the rest of the text. -/
def paths : ReferenceScan → List Char → List (List Char)
  | _, [] => []
  | state, c :: rest =>
    match state.step c with
    | (next, some path) => path :: next.paths rest
    | (next, none) => next.paths rest

end ReferenceScan

/-- The field paths that an expression references, in order of appearance: each trimmed, the
empty ones left out. -/
def referencedFields (expression : String) : List String :=
  ((ReferenceScan.outside.paths expression.toList).map fun path => String.ofList (trimChars path))
    |>.filter fun path => path ≠ ""

/-- Some of the expressions references the field; the empty field is never referenced. -/
def references (expressions : List String) (field : String) : Bool :=
  field ≠ "" && expressions.any fun e => (referencedFields e).contains field

def stripChars (cs : List Char) : List Char :=
  match trimChars cs with
  | '$' :: '{' :: rest =>
    if rest.getLast? = some '}' then trimChars rest.dropLast else '$' :: '{' :: rest
  | plain => plain

/-- A field path trimmed, and without the decoration when it has both its ends. -/
def stripField (field : String) : String := String.ofList (stripChars field.toList)

end EventRules.Text
