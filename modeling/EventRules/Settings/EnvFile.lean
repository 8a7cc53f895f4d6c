import EventRules.Encoding.Decode
import EventRules.Text.Alphanumeric
import EventRules.Text.Blank

/-!
Files with environment variables. A file holds assignments, one a line; a line may be a comment,
may start with `export`, and may run on where quotes or an escape are open at its end. A value may
be quoted, and outside single quotes it may refer to variables that are set before it. Reading
stops at the first line that is none of this, or that is not UTF-8. A variable that is set already
keeps its value.

Blanks around the parts of a line are those of Unicode; inside a value only a space or a tab ends
it.
-/
namespace EventRules.EnvFile

/-- Where a line stands with regard to quotes and comments. -/
inductive LineState where
  | complete
  | blank
  | escape
  | single
  | singleEscape
  | double
  | doubleEscape
  deriving DecidableEq

/-- One character of a line; none where a comment starts. -/
def LineState.step : LineState → Char → Option LineState
  | .escape, _ => some .complete
  | .singleEscape, _ => some .single
  | .doubleEscape, _ => some .double
  | .single, c =>
    some (if c = '\\' then .singleEscape else if c = '\'' then .complete else .single)
  | .double, c =>
    some (if c = '\\' then .doubleEscape else if c = '"' then .complete else .double)
  | .blank, c =>
    if c = '#' then none
    else some (if c = '\\' then .escape else if c = '"' then .double
      else if c = '\'' then .single else .complete)
  | .complete, c =>
    some (if Text.isBlankChar c ∧ c ≠ '\n' ∧ c ≠ '\r' then .blank else if c = '\\' then .escape
      else if c = '"' then .double else if c = '\'' then .single else .complete)

/-- Follow a line to its end, or to the comment at its end, which is left out. -/
def LineState.scan : LineState → List Char → List Char → Option LineState × List Char
  | state, seen, [] => (some state, seen.reverse)
  | state, seen, c :: rest =>
    match state.step c with
    | some next => next.scan (c :: seen) rest
    | none => (none, seen.reverse)

def splitLines : List UInt8 → List (List UInt8)
  | [] => []
  | octet :: rest =>
    if octet = 0x0A then [octet] :: splitLines rest
    else
      match splitLines rest with
      | [] => [[octet]]
      | line :: others => (octet :: line) :: others

def decodeLine (octets : List UInt8) : Option (List Char) :=
  (Encoding.Utf8.decode octets).toOption.map String.toList

def dropEnd (line : List Char) : List Char :=
  match line.reverse with
  | '\n' :: '\r' :: rest => rest.reverse
  | '\n' :: rest => rest.reverse
  | _ => line

/-- Join the lines that run on. The first part is what is open of the line being read, with its
state; none in the result stands for a line that is not text or never ends, after which nothing is
read. -/
def joinLines :
    List Char → LineState → List (Option (List Char)) → List (Option (List Char))
  | _, state, [] => if state = .complete then [] else [none]
  | _, _, none :: _ => [none]
  | pending, state, some line :: rest =>
    if (Text.trimFront (pending ++ line)).head? = some '#' then joinLines [] .complete rest
    else
      match state.scan [] line with
      | (some .complete, seen) => some (dropEnd (pending ++ seen)) :: joinLines [] .complete rest
      | (some next, seen) => joinLines (pending ++ seen) next rest
      | (none, seen) => some (pending ++ seen) :: joinLines [] .complete rest

inductive Part where
  | char (c : Char)
  | reference (name : String)

inductive ValueState where
  | plain (quoted : Bool)
  | single
  | escape (quoted : Bool)
  /-- A reference without braces, with its name in reverse. -/
  | name (quoted : Bool) (seen : List Char)
  /-- A reference in braces, with its name in reverse. -/
  | braced (quoted : Bool) (seen : List Char)
  /-- After the value, where only blanks and a comment may stand. -/
  | ended

def refer (seen : List Char) : Part := .reference (String.ofList seen.reverse)

/-- Read a value to its end; none where it breaks the rules. -/
def readValue : ValueState → List Char → Option (List Part)
  | .plain quoted, [] => if quoted then none else some []
  | .single, [] => none
  | .escape quoted, [] => if quoted then none else some []
  | .name quoted seen, [] => if quoted then none else some [refer seen]
  | .braced .., [] => none
  | .ended, [] => some []
  | .ended, c :: rest =>
    if c = ' ' ∨ c = '\t' then readValue .ended rest else if c = '#' then some [] else none
  | .escape quoted, c :: rest =>
    if ['\\', '\'', '"', '$', ' '].contains c then
      (readValue (.plain quoted) rest).map (.char c :: ·)
    else if c = 'n' then (readValue (.plain quoted) rest).map (.char '\n' :: ·)
    else none
  | .single, c :: rest =>
    if c = '\'' then readValue (.plain false) rest
    else (readValue .single rest).map (.char c :: ·)
  | .name quoted seen, c :: rest =>
    if Text.isAlphanumeric c then readValue (.name quoted (c :: seen)) rest
    else if c = '{' ∧ seen = [] then readValue (.braced quoted []) rest
    else if c = '$' then (readValue (.name quoted []) rest).map (refer seen :: ·)
    else (readValue (.plain quoted) rest).map (refer seen :: .char c :: ·)
  | .braced quoted seen, c :: rest =>
    if c = '}' then (readValue (.plain quoted) rest).map (refer seen :: ·)
    else readValue (.braced quoted (c :: seen)) rest
  | .plain quoted, c :: rest =>
    if c = '$' then readValue (.name quoted []) rest
    else if c = '\\' then readValue (.escape quoted) rest
    else if quoted then
      if c = '"' then readValue (.plain false) rest
      else (readValue (.plain true) rest).map (.char c :: ·)
    else if c = '\'' then readValue .single rest
    else if c = '"' then readValue (.plain true) rest
    else if c = ' ' ∨ c = '\t' then readValue .ended rest
    else (readValue (.plain false) rest).map (.char c :: ·)

def startsKey (c : Char) : Bool := c.isAlpha || c = '_'

def continuesKey (c : Char) : Bool := c.isAlphanum || c = '_' || c = '.'

def readKey (cs : List Char) : Option (String × List Char) :=
  if cs.head?.any startsKey then
    some (String.ofList (cs.takeWhile continuesKey),
      Text.trimFront (cs.dropWhile continuesKey))
  else none

/-- Read the value after the sign of an assignment. -/
def readAssigned (cs : List Char) : Option (List Part) :=
  match cs with
  | '=' :: rest =>
    let value := Text.trimFront rest
    if value.isEmpty || value.head? = some '#' then some [] else readValue (.plain false) value
  | _ => none

/-- An assignment: a key and the parts of its value. -/
abbrev Assignment := String × List Part

/-- Read a line: an assignment, or nothing in a blank line or a comment; none where it is neither.
The word `export` before a key is skipped, unless it is the key. -/
def readLine (line : List Char) : Option (Option Assignment) :=
  let cs := Text.trimChars line
  if cs.isEmpty || cs.head? = some '#' then some none
  else do
    let (key, rest) ← readKey cs
    let (key, rest) ←
      if key = "export" ∧ rest.head? ≠ some '=' then readKey rest else some (key, rest)
    let value ← readAssigned rest
    return some (key, value)

/-- The assignments of lines up to the first one that cannot be read. -/
def readLines : List (Option (List Char)) → List Assignment
  | [] => []
  | none :: _ => []
  | some line :: rest =>
    match readLine line with
    | none => []
    | some none => readLines rest
    | some (some assignment) => assignment :: readLines rest

/-- The assignments in a file. A byte order mark at its front is skipped. -/
def read (octets : List UInt8) : List Assignment :=
  readLines (joinLines [] .complete ((splitLines (Encoding.unmarked octets)).map decodeLine))

def names (assignments : List Assignment) : List String :=
  assignments.flatMap fun assignment =>
    assignment.1 :: assignment.2.filterMap fun part =>
      match part with
      | .char _ => none
      | .reference name => some name

/-- The text of a value in an environment; what is not set counts as empty. -/
def expand (environment : List (String × String)) (parts : List Part) : String :=
  String.join (parts.map fun part =>
    match part with
    | .char c => String.singleton c
    | .reference name => (environment.lookup name).getD "")

/-- Carry out assignments in an environment, where what is set stays. -/
def apply (environment : List (String × String)) : List Assignment → List (String × String)
  | [] => environment
  | (key, parts) :: rest =>
    if (environment.lookup key).isSome then apply environment rest
    else apply ((key, expand environment parts) :: environment) rest

end EventRules.EnvFile
