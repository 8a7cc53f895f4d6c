import EventRules.Json.Parser

/-!
Nesting of JSON texts: where a text opens more containers than may be open at a time. Brackets
inside quotes are none.
-/
namespace EventRules.Json

inductive BracketScan where
  | plain
  | quoted
  /-- After a backslash inside quotes. -/
  | escaped

/-- One character of the scan that is no bracket. -/
def BracketScan.step : BracketScan → Char → BracketScan
  | .plain, c => if c = '"' then .quoted else .plain
  | .quoted, c => if c = '\\' then .escaped else if c = '"' then .plain else .quoted
  | .escaped, _ => .quoted

/-- The place, in octets, of the first bracket that opens a container while `limit` of them are
open. The rest of a text starts at `place`, with `depth` containers open. -/
def BracketScan.overflow? (limit : Nat) :
    BracketScan → Nat → Nat → List Char → Option Nat
  | _, _, _, [] => none
  | .plain, depth, place, c :: rest =>
    if c = '[' ∨ c = '{' then
      if limit ≤ depth then some place
      else BracketScan.plain.overflow? limit (depth + 1) (place + 1) rest
    else if c = ']' ∨ c = '}' then
      BracketScan.plain.overflow? limit (depth - 1) (place + 1) rest
    else (BracketScan.plain.step c).overflow? limit depth (place + c.utf8Size) rest
  | state, depth, place, c :: rest =>
    (state.step c).overflow? limit depth (place + c.utf8Size) rest

/-- The place of the first bracket of a text that opens a container too many. -/
def overflow? (source : String) : Option Nat :=
  BracketScan.plain.overflow? maxOpen 0 0 source.toList

end EventRules.Json
