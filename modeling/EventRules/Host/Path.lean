import EventRules.Encoding.Utf8

/-!
Paths of files. A path is a row of octets, which need not be UTF-8; it is shown as a text, in which
U+FFFD stands for what is not. The pieces of a path stand between slashes, and those that are
neither empty nor a single dot are its components. A path that starts with a slash starts at the
root.
-/
namespace EventRules

structure Path where
  octets : List UInt8
  deriving DecidableEq

namespace Path

/-- The octets of a piece of a path. -/
abbrev Name := List UInt8

def slash : UInt8 := 0x2F

def dot : UInt8 := 0x2E

def ofText (s : String) : Path := ⟨Encoding.Utf8.encode s⟩

/-- The text that a path is shown as. Different paths may be shown as one text. -/
def display (path : Path) : String := Encoding.Utf8.decodeLossy path.octets

def splitSlash : List UInt8 → List Name
  | [] => [[]]
  | octet :: rest =>
    if octet = slash then [] :: splitSlash rest
    else
      match splitSlash rest with
      | [] => [[octet]]
      | piece :: others => (octet :: piece) :: others

def pieces (path : Path) : List Name := splitSlash path.octets

def components (path : Path) : List Name :=
  path.pieces.filter fun piece => piece ≠ [] && piece ≠ [dot]

def isAbsolute (path : Path) : Bool := path.octets.head? = some slash

/-- What paths are compared by: the components, with an empty name before them where the path starts
at the root, and a dot where it starts with that. -/
def parts (path : Path) : List Name :=
  (if path.isAbsolute then [[]] else if path.pieces.head? = some [dot] then [[dot]] else []) ++
    path.components

/-- Pieces without the empty ones at their end, which slashes at the end of a path leave. -/
def dropSlashes (pieces : List Name) : List Name :=
  (pieces.reverse.dropWhile fun piece => piece = []).reverse

def fileName? (path : Path) : Option Name :=
  path.components.getLast?.filter fun name => name ≠ [dot, dot]

/-- The parts of a file name before and after its last dot. A name without a dot, or with none
but at its start, has no second part. -/
def splitName (name : Name) : Name × Option Name :=
  let reversed := name.reverse
  let after := reversed.takeWhile fun octet => octet ≠ dot
  let before := (reversed.dropWhile fun octet => octet ≠ dot).drop 1
  if before.isEmpty then (name, none) else (before.reverse, some after.reverse)

def stem? (path : Path) : Option Name := path.fileName?.map fun name => (splitName name).1

def extension? (path : Path) : Option Name := path.fileName?.bind fun name => (splitName name).2

/-- A name inside a directory; a name that starts at the root stands for itself. -/
def join (directory : Path) (name : Name) : Path :=
  if isAbsolute ⟨name⟩ ∨ directory.octets = [] then ⟨name⟩
  else if directory.octets.getLast? = some slash then ⟨directory.octets ++ name⟩
  else ⟨directory.octets ++ slash :: name⟩

end Path

end EventRules
