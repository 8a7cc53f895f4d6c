import EventRules.Encoding.Utf8

/-!
UTF-16 in either byte order. Octets are taken in pairs as code units. A surrogate without its
partner becomes U+FFFD and its neighbour is read on its own; whatever the end of the input cuts
off, an odd octet or a leading surrogate or both, becomes a single U+FFFD.
-/
namespace EventRules.Encoding.Utf16

def unit (bigEndian : Bool) (a b : UInt8) : Nat :=
  if bigEndian then a.toNat * 0x100 + b.toNat else b.toNat * 0x100 + a.toNat

def isLeading (n : Nat) : Bool := 0xD800 ≤ n && n ≤ 0xDBFF

def isTrailing (n : Nat) : Bool := 0xDC00 ≤ n && n ≤ 0xDFFF

/-- U+FFFD, which stands for what is no character. -/
def replacement : Char := Char.ofNat 0xFFFD

/-- The characters of the octets after a leading surrogate that is still alone. -/
def chars (bigEndian : Bool) : Option Nat → List UInt8 → List Char
  | none, [] => []
  | some _, [] => [replacement]
  | _, [_] => [replacement]
  | none, a :: b :: rest =>
    let n := unit bigEndian a b
    if isLeading n then chars bigEndian (some n) rest
    else (if isTrailing n then replacement else Char.ofNat n) :: chars bigEndian none rest
  | some lead, a :: b :: rest =>
    let n := unit bigEndian a b
    if isTrailing n then
      Char.ofNat (0x10000 + (lead - 0xD800) * 0x400 + (n - 0xDC00)) :: chars bigEndian none rest
    else
      replacement ::
        if isLeading n then chars bigEndian (some n) rest
        else Char.ofNat n :: chars bigEndian none rest

def decode (bigEndian : Bool) (octets : List UInt8) : String :=
  String.ofList (chars bigEndian none octets)

end EventRules.Encoding.Utf16
