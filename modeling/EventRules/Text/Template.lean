import EventRules.Text.DecimalDigit

/-!
Message templates. A placeholder is a percent sign with the longest run of decimal digits after
it. Rendering replaces, in a single pass, the placeholder of the n-th argument by that argument;
what was put in is not looked at again, and a placeholder that names no argument stays as it is.
-/
namespace EventRules.Text

/-- The number that a run of ASCII digits denotes, when it fits a word of 64 bits. A run with a
digit of another script denotes none. -/
def placeholderNumber (digits : List Char) : Option Nat :=
  if digits.all Char.isDigit then
    let n := digits.foldl (fun total d => 10 * total + (d.toNat - '0'.toNat)) 0
    if n < UInt64.size then some n else none
  else none

/-- What stands in the output for a percent sign and the digits after it. -/
def fillPlaceholder (arguments : List String) (digits : List Char) : List Char :=
  let kept := '%' :: digits
  match placeholderNumber digits with
  | some (n + 1) =>
    match arguments[n]? with
    | some value => value.toList
    | none => kept
  | _ => kept

/-- Render the rest of a template. The state is the digits, in reverse, of the placeholder that is
being read, if there is one. -/
def renderChars (arguments : List String) : Option (List Char) → List Char → List Char
  | none, [] => []
  | some digits, [] => fillPlaceholder arguments digits.reverse
  | none, c :: rest =>
    if c = '%' then renderChars arguments (some []) rest
    else c :: renderChars arguments none rest
  | some digits, c :: rest =>
    if isDecimalDigit c then renderChars arguments (some (c :: digits)) rest
    else
      fillPlaceholder arguments digits.reverse ++
        (if c = '%' then renderChars arguments (some []) rest
          else c :: renderChars arguments none rest)

/-- Replace the placeholders of a template by the arguments that they number. -/
def renderTemplate (template : String) (arguments : List String) : String :=
  String.ofList (renderChars arguments none template.toList)

end EventRules.Text
