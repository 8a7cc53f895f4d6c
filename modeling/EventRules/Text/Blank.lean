/-!
Blank space in names, operands and field paths. A character is blank when it has the Unicode
property White_Space; a text is blank when all its characters are. Trimming removes blank
characters at both ends.
-/
namespace EventRules.Text

def isBlankChar (c : Char) : Bool :=
  let n := c.toNat
  (0x9 ≤ n && n ≤ 0xD) || n == 0x20 || n == 0x85 || n == 0xA0 || n == 0x1680 ||
    (0x2000 ≤ n && n ≤ 0x200A) || n == 0x2028 || n == 0x2029 || n == 0x202F ||
    n == 0x205F || n == 0x3000

def trimFront (cs : List Char) : List Char := cs.dropWhile isBlankChar

def trimBack (cs : List Char) : List Char := (trimFront cs.reverse).reverse

def trimChars (cs : List Char) : List Char := trimBack (trimFront cs)

def trim (s : String) : String := String.ofList (trimChars s.toList)

/-- Every character of the text is blank; the empty text is. -/
def isBlank (s : String) : Bool := s.toList.all isBlankChar

/-- An optional text with blank ends removed; a blank text counts as absent. -/
def nonBlank (value : Option String) : Option String :=
  match value with
  | none => none
  | some s => if isBlank s then none else some (trim s)

/-- Blank characters dropped and ASCII letters lowered: the form in which names of elements are
compared. No known name holds a letter that is the lower case of a character outside ASCII, so
the case of other letters never decides a comparison. -/
def normalizeName (name : String) : String :=
  String.ofList ((name.toList.filter fun c => !isBlankChar c).map Char.toLower)

end EventRules.Text
