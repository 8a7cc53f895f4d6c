/-!
UTF-8. A machine reads the octets of a text one by one; between characters it owes nothing, and
inside a character it knows how many octets are owed and which ones may come next. An octet that
cannot continue the character cuts off what was read of it, and is then read as a first octet.
-/
namespace EventRules.Encoding

/-- A piece of decoded input, with the number of octets that it takes. -/
inductive Piece where
  /-- A character. -/
  | char (value : Char) (size : Nat)
  /-- Octets that begin no character, or a character that another octet cuts off. -/
  | illFormed (size : Nat)
  /-- A character that the end of the input cuts off. -/
  | incomplete (size : Nat)

namespace Piece

def size : Piece → Nat
  | .char _ n => n
  | .illFormed n => n
  | .incomplete n => n

/-- The character that stands for a piece: U+FFFD where there is none. -/
def shown : Piece → Char
  | .char c _ => c
  | _ => Char.ofNat 0xFFFD

end Piece

def shownText (pieces : List Piece) : String := String.ofList (pieces.map Piece.shown)

namespace Utf8

/-- A character that has been begun: how many octets are owed, the least and the greatest octet
that may come next, the bits so far, and the number of octets read. -/
structure Begun where
  owed : Nat
  low : Nat
  high : Nat
  bits : Nat
  size : Nat

inductive First where
  /-- A character of its own. -/
  | whole
  /-- The start of a longer character. -/
  | begins (start : Begun)
  /-- No start of a character. -/
  | wrong

def first (octet : Nat) : First :=
  if octet < 0x80 then .whole
  else if octet < 0xC2 then .wrong
  else if octet < 0xE0 then .begins ⟨1, 0x80, 0xBF, octet - 0xC0, 1⟩
  else if octet < 0xF0 then
    .begins ⟨2, if octet = 0xE0 then 0xA0 else 0x80, if octet = 0xED then 0x9F else 0xBF,
      octet - 0xE0, 1⟩
  else if octet < 0xF5 then
    .begins ⟨3, if octet = 0xF0 then 0x90 else 0x80, if octet = 0xF4 then 0x8F else 0xBF,
      octet - 0xF0, 1⟩
  else .wrong

/-- The pieces of the octets, after what was begun before them. -/
def pieces : Option Begun → List UInt8 → List Piece
  | none, [] => []
  | some begun, [] => [.incomplete begun.size]
  | none, octet :: rest =>
    match first octet.toNat with
    | .whole => .char (Char.ofNat octet.toNat) 1 :: pieces none rest
    | .begins start => pieces (some start) rest
    | .wrong => .illFormed 1 :: pieces none rest
  | some begun, octet :: rest =>
    let n := octet.toNat
    if begun.low ≤ n ∧ n ≤ begun.high then
      let bits := begun.bits * 0x40 + (n - 0x80)
      if begun.owed ≤ 1 then .char (Char.ofNat bits) (begun.size + 1) :: pieces none rest
      else pieces (some ⟨begun.owed - 1, 0x80, 0xBF, bits, begun.size + 1⟩) rest
    else
      .illFormed begun.size ::
        match first n with
        | .whole => .char (Char.ofNat n) 1 :: pieces none rest
        | .begins start => pieces (some start) rest
        | .wrong => .illFormed 1 :: pieces none rest

inductive Fault where
  /-- Octets that belong to no character: their place and their number. -/
  | invalid (index size : Nat)
  /-- The input ends inside a character that starts at the place. -/
  | unfinished (index : Nat)
  deriving DecidableEq

def Fault.message : Fault → String
  | .invalid index size =>
    "invalid utf-8 sequence of " ++ toString size ++ " bytes from index " ++ toString index
  | .unfinished index => "incomplete utf-8 byte sequence from index " ++ toString index

/-- The characters of the pieces, or the first fault; `index` is the place of the first piece. -/
def strictChars (index : Nat) : List Piece → Except Fault (List Char)
  | [] => .ok []
  | .char c n :: rest => (strictChars (index + n) rest).map (c :: ·)
  | .illFormed n :: _ => .error (.invalid index n)
  | .incomplete _ :: _ => .error (.unfinished index)

def decode (octets : List UInt8) : Except Fault String :=
  (strictChars 0 (pieces none octets)).map String.ofList

/-- Read octets, with U+FFFD for each part that is not UTF-8. -/
def decodeLossy (octets : List UInt8) : String := shownText (pieces none octets)

/-- The text of octets that are UTF-8. -/
def text? (octets : List UInt8) : Option String := (decode octets).toOption

def encode (s : String) : List UInt8 := s.toUTF8.data.toList

end Utf8

end EventRules.Encoding
