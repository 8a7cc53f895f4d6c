/-!
Two Western encodings with a character for every octet. Both agree with the code points of the
same number except at the places listed here.
-/
namespace EventRules.Encoding.SingleByte

/-- The characters of windows-1252 at 0x80 to 0x9F; the five places without one of their own keep
the code point of their number. -/
def windows1252Block : List Nat :=
  [0x20AC, 0x81, 0x201A, 0x192, 0x201E, 0x2026, 0x2020, 0x2021, 0x2C6, 0x2030, 0x160, 0x2039,
    0x152, 0x8D, 0x17D, 0x8F, 0x90, 0x2018, 0x2019, 0x201C, 0x201D, 0x2022, 0x2013, 0x2014,
    0x2DC, 0x2122, 0x161, 0x203A, 0x153, 0x9D, 0x17E, 0x178]

def windows1252 (octet : UInt8) : Char :=
  let n := octet.toNat
  if 0x80 ≤ n ∧ n < 0xA0 then Char.ofNat (windows1252Block.getD (n - 0x80) n) else Char.ofNat n

/-- The octets at which ISO-8859-15 has a character of its own. -/
def latin9Places : List (Nat × Nat) :=
  [(0xA4, 0x20AC), (0xA6, 0x160), (0xA8, 0x161), (0xB4, 0x17D), (0xB8, 0x17E), (0xBC, 0x152),
    (0xBD, 0x153), (0xBE, 0x178)]

def latin9 (octet : UInt8) : Char :=
  Char.ofNat ((latin9Places.lookup octet.toNat).getD octet.toNat)

def decode (table : UInt8 → Char) (octets : List UInt8) : String :=
  String.ofList (octets.map table)

end EventRules.Encoding.SingleByte
