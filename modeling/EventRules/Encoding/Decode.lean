import EventRules.Encoding.SingleByte
import EventRules.Encoding.Utf16
import EventRules.Ordered

/-!
Reading the octets of a payload, under an encoding label or without one.

One UTF-8 byte order mark at the front is removed first. Three labels stand for strict UTF-8.
Every other known label names a decoder that never fails and that gives way to a byte order mark
at the front of what it reads; an unknown label stands for lenient UTF-8. Without a label the
octets are taken as UTF-8 where they are that. Where they are not, a guess is made at their
encoding, and they are read as iso-8859-1 or as windows-1252.
-/
namespace EventRules.Encoding

inductive Decoder where
  | utf8
  | utf16 (bigEndian : Bool)
  | windows1252
  | latin9
  deriving DecidableEq

/-- Read octets with a decoder, without looking for a byte order mark. -/
def Decoder.read : Decoder → List UInt8 → String
  | .utf8, octets => Utf8.decodeLossy octets
  | .utf16 bigEndian, octets => Utf16.decode bigEndian octets
  | .windows1252, octets => SingleByte.decode SingleByte.windows1252 octets
  | .latin9, octets => SingleByte.decode SingleByte.latin9 octets

/-- Read octets unless they begin with a byte order mark, which is then removed and names the
decoder. -/
def readMarked (read : List UInt8 → String) (octets : List UInt8) : String :=
  match octets with
  | 0xEF :: 0xBB :: 0xBF :: rest => Decoder.utf8.read rest
  | 0xFF :: 0xFE :: rest => (Decoder.utf16 false).read rest
  | 0xFE :: 0xFF :: rest => (Decoder.utf16 true).read rest
  | _ => read octets

def Decoder.readMarked (decoder : Decoder) (octets : List UInt8) : String :=
  Encoding.readMarked decoder.read octets

def labels : List (Decoder × List String) :=
  [(.utf8, ["utf-8", "utf8", "unicode-1-1-utf-8", "unicode11utf8", "unicode20utf8",
      "x-unicode20utf8"]),
    (.windows1252, ["ansi_x3.4-1968", "ascii", "cp1252", "cp819", "csisolatin1", "ibm819",
      "iso-8859-1", "iso-ir-100", "iso8859-1", "iso88591", "iso_8859-1", "iso_8859-1:1987", "l1",
      "latin1", "us-ascii", "windows-1252", "x-cp1252"]),
    (.latin9, ["csisolatin9", "iso-8859-15", "iso8859-15", "iso885915", "iso_8859-15", "l9"]),
    (.utf16 false, ["csunicode", "iso-10646-ucs-2", "ucs-2", "unicode", "unicodefeff", "utf-16",
      "utf-16le"]),
    (.utf16 true, ["unicodefffe", "utf-16be"])]

def isLabelSpace (c : Char) : Bool :=
  c = ' ' || c = '\t' || c = '\n' || c = '\r' || c.toNat = 0xC

def trimLabel (label : String) : String :=
  let front := label.toList.dropWhile isLabelSpace
  String.ofList (front.reverse.dropWhile isLabelSpace).reverse

def lowerLabel (label : String) : String := String.ofList (label.toList.map Char.toLower)

def Decoder.ofLabel? (label : String) : Option Decoder :=
  (labels.find? fun entry => entry.2.contains (trimLabel label)).map (·.1)

def unmarked : List UInt8 → List UInt8
  | 0xEF :: 0xBB :: 0xBF :: rest => rest
  | octets => octets

/-- What is known of encodings besides the labels above: how octets are read under other ones, which
are given trimmed and in lower case, and a guess at the encoding of octets, by its name. -/
structure Codecs where
  others : String → Option (List UInt8 → String) := fun _ => none
  guess : List UInt8 → String := fun _ => ""

namespace Codecs

/-- How octets are read under a label, if it is known. -/
def reader? (codecs : Codecs) (label : String) : Option (List UInt8 → String) :=
  match Decoder.ofLabel? label with
  | some decoder => some decoder.read
  | none => codecs.others (trimLabel label)

def decodeAs (codecs : Codecs) (label : String) (octets : List UInt8) :
    Except Utf8.Fault String :=
  let octets := unmarked octets
  let label := lowerLabel label
  if ["utf-8", "utf8", "ascii"].contains label then Utf8.decode octets
  else if ["iso-8859-1", "latin-1", "latin1"].contains label then
    .ok (Decoder.windows1252.readMarked octets)
  else
    match codecs.reader? label with
    | some read => .ok (readMarked read octets)
    | none => .ok (Utf8.decodeLossy octets)

/-- The label of the encoding that octets are taken to have. -/
def detect (codecs : Codecs) (octets : List UInt8) : String :=
  let name := lowerLabel (codecs.guess octets)
  if ["ascii", "utf-8", "utf8"].contains name then "utf-8"
  else if ["iso-8859-1", "iso-8859-15", "latin-1", "latin1"].contains name then "iso-8859-1"
  else if ["windows-1252", "cp1252"].contains name then "windows-1252"
  else name

/-- Read octets without a label. What is not UTF-8 is read under one of two labels. -/
def decode (codecs : Codecs) (octets : List UInt8) : Except Utf8.Fault String :=
  let octets := unmarked octets
  match Utf8.decode octets with
  | .ok text => .ok text
  | .error _ =>
    let label := if codecs.detect octets = "iso-8859-1" then "iso-8859-1" else "windows-1252"
    codecs.decodeAs label octets

end Codecs

/-- Read octets without a label. Nothing more has to be known for that: both labels name one
decoder. -/
def decodeAuto (octets : List UInt8) : Except Utf8.Fault String := ({} : Codecs).decode octets

end EventRules.Encoding
