import EventRules.Binary64
import EventRules.Ordered

/-!
JSON values. An object is an ordered table of members; integers of 64 bits are kept exactly, and
every other number is a binary64 one.
-/
namespace EventRules

inductive JsonNumber where
  /-- An integer between `-2 ^ 63` and `2 ^ 64 - 1`. -/
  | int (value : Int)
  /-- Any other number, rounded. -/
  | real (value : Binary64)
  deriving DecidableEq

inductive Json where
  | null
  | bool (value : Bool)
  | number (value : JsonNumber)
  | text (value : String)
  | array (items : List Json)
  | object (members : List (String × Json))

namespace JsonNumber

/-- The value as a sign, a numerator and a denominator. -/
def magnitude : JsonNumber → Bool × Nat × Nat
  | .int value => (value < 0, value.natAbs, 1)
  | .real value => (value.negative && value.mantissa ≠ 0, value.ratio)

/-- The two numbers have the same value, however they are written. -/
def sameValue (a b : JsonNumber) : Bool :=
  let (aNegative, aNum, aDen) := a.magnitude
  let (bNegative, bNum, bDen) := b.magnitude
  aNegative == bNegative && aNum * bDen == bNum * aDen

def render : JsonNumber → String
  | .int value => toString value
  | .real value => value.render

end JsonNumber

namespace Json

instance : Inhabited Json := ⟨.null⟩

/-- The integer `n` as a JSON value. -/
def ofNat (n : Nat) : Json := .number (.int n)

/-- The member of an object under a key; none for other values. -/
def member? (key : String) : Json → Option Json
  | .object members => members.lookup key
  | _ => none

def text? : Json → Option String
  | .text value => some value
  | _ => none

def items? : Json → Option (List Json)
  | .array items => some items
  | _ => none

def members? : Json → Option (List (String × Json))
  | .object members => some members
  | _ => none

def ofTexts (values : List String) : Json := .array (values.map .text)

def record (members : List (Option (String × Json))) : Json := .object (members.filterMap id)

def always (key : String) (value : Json) : Option (String × Json) := some (key, value)

def optional (key : String) (value : Option Json) : Option (String × Json) :=
  value.map fun v => (key, v)

/-- A text member that is written unless it is the empty text. -/
def unlessEmpty (key : String) (value : String) : Option (String × Json) :=
  if value = "" then none else some (key, .text value)

mutual

/-- Equality of values: numbers by value, objects member by member in their order. -/
def sameValue : Json → Json → Bool
  | .null, .null => true
  | .bool a, .bool b => a == b
  | .number a, .number b => a.sameValue b
  | .text a, .text b => a == b
  | .array as, .array bs => sameItems as bs
  | .object as, .object bs => sameMembers as bs
  | _, _ => false

def sameItems : List Json → List Json → Bool
  | [], [] => true
  | a :: as, b :: bs => sameValue a b && sameItems as bs
  | _, _ => false

def sameMembers : List (String × Json) → List (String × Json) → Bool
  | [], [] => true
  | (j, a) :: as, (k, b) :: bs => j == k && sameValue a b && sameMembers as bs
  | _, _ => false

end

end Json

end EventRules
