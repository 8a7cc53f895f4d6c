import EventRules.Json.Printer

/-!
Identifiers of 128 bits in their usual text: hexadecimal digits in groups of 8, 4, 4, 4 and 12.
-/
namespace EventRules.Identifier

def hexOctet (octet : UInt8) : List Char :=
  [Json.hexDigit (octet.toNat / 16), Json.hexDigit (octet.toNat % 16)]

/-- Octets marked as a random identifier: version 4 and the variant that goes with it. -/
def marked (octets : List UInt8) : List UInt8 :=
  octets.zipIdx.map fun entry =>
    if entry.2 = 6 then (entry.1 &&& 0x0F) ||| 0x40
    else if entry.2 = 8 then (entry.1 &&& 0x3F) ||| 0x80
    else entry.1

/-- The text of the random identifier of sixteen random octets. -/
def ofRandom (octets : List UInt8) : String :=
  let digits := (marked octets).flatMap hexOctet
  let group (start size : Nat) : String := String.ofList ((digits.drop start).take size)
  "-".intercalate [group 0 8, group 8 4, group 12 4, group 16 4, group 20 12]

end EventRules.Identifier
