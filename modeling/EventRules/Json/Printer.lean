import EventRules.Json.Basic

/-!
The two texts of a JSON value: compact, and laid out with an indent of two spaces. Inside quotes a
quote, a backslash and the control characters are escaped; everything else stands as it is.
-/
namespace EventRules.Json

def hexDigit (n : Nat) : Char :=
  if n < 10 then Char.ofNat ('0'.toNat + n) else Char.ofNat ('a'.toNat + (n - 10))

def escapeChar (c : Char) : List Char :=
  if c = '"' then ['\\', '"']
  else if c = '\\' then ['\\', '\\']
  else if c = '\n' then ['\\', 'n']
  else if c = '\r' then ['\\', 'r']
  else if c = '\t' then ['\\', 't']
  else if c.toNat = 0x8 then ['\\', 'b']
  else if c.toNat = 0xC then ['\\', 'f']
  else if c.toNat < 0x20 then
    ['\\', 'u', '0', '0', hexDigit (c.toNat / 16), hexDigit (c.toNat % 16)]
  else [c]

def quote (s : String) : String := "\"" ++ String.ofList (s.toList.flatMap escapeChar) ++ "\""

mutual

def compact : Json → String
  | .null => "null"
  | .bool value => if value then "true" else "false"
  | .number value => value.render
  | .text value => quote value
  | .array [] => "[]"
  | .array (item :: rest) => "[" ++ compact item ++ compactItems rest
  | .object [] => "\x7b\x7d"
  | .object ((key, value) :: rest) =>
    "\x7b" ++ quote key ++ ":" ++ compact value ++ compactMembers rest

def compactItems : List Json → String
  | [] => "]"
  | item :: rest => "," ++ compact item ++ compactItems rest

def compactMembers : List (String × Json) → String
  | [] => "\x7d"
  | (key, value) :: rest => "," ++ quote key ++ ":" ++ compact value ++ compactMembers rest

end

/-- A new line with an indent of two spaces per level. -/
def newLine (level : Nat) : String := "\n" ++ String.ofList (List.replicate (2 * level) ' ')

mutual

/-- The text of a value at a level of nesting, one item or member a line. -/
def prettyAt (level : Nat) : Json → String
  | .null => "null"
  | .bool value => if value then "true" else "false"
  | .number value => value.render
  | .text value => quote value
  | .array [] => "[]"
  | .array (item :: rest) =>
    "[" ++ newLine (level + 1) ++ prettyAt (level + 1) item ++ prettyItems level rest
  | .object [] => "\x7b\x7d"
  | .object ((key, value) :: rest) =>
    "\x7b" ++ newLine (level + 1) ++ quote key ++ ": " ++ prettyAt (level + 1) value ++
      prettyMembers level rest

def prettyItems (level : Nat) : List Json → String
  | [] => newLine level ++ "]"
  | item :: rest =>
    "," ++ newLine (level + 1) ++ prettyAt (level + 1) item ++ prettyItems level rest

def prettyMembers (level : Nat) : List (String × Json) → String
  | [] => newLine level ++ "\x7d"
  | (key, value) :: rest =>
    "," ++ newLine (level + 1) ++ quote key ++ ": " ++ prettyAt (level + 1) value ++
      prettyMembers level rest

end

def pretty (value : Json) : String := prettyAt 0 value

end EventRules.Json
