/-!
Finite binary64 numbers in exact arithmetic: rounding of quotients to the nearest number, products
and quotients by powers of ten, and the shortest decimal text that reads back.

A number is `± mantissa · 2 ^ exponent` with a mantissa below `2 ^ 53` and an exponent from -1074
to 971; the mantissa is at least `2 ^ 52` unless the exponent is the least one.
-/
namespace EventRules

structure Binary64 where
  negative : Bool
  mantissa : Nat
  exponent : Int
  deriving DecidableEq

namespace Binary64

/-- The least mantissa of a number whose exponent is not the least one: `2 ^ 52`. -/
def leastNormal : Nat := Nat.pow 2 52

def zero : Binary64 := ⟨false, 0, -1074⟩

def negate (x : Binary64) : Binary64 := { x with negative := true }

/-- `2 ^ e` as a factor of a numerator and a factor of a denominator. -/
def powerOfTwo (e : Int) : Nat × Nat := (Nat.pow 2 e.toNat, Nat.pow 2 (-e).toNat)

def ratio (x : Binary64) : Nat × Nat :=
  let (up, down) := powerOfTwo x.exponent
  (x.mantissa * up, down)

/-- The integer nearest to a quotient, an exact half going to the even neighbour. -/
def roundQuotient (num den : Nat) : Nat :=
  let q := num / den
  let r := num % den
  if 2 * r > den || (2 * r == den && q % 2 == 1) then q + 1 else q

/-- The number nearest to `num / den`, for a positive `den`; none when that is out of range. -/
def ofRatio? (num den : Nat) : Option Binary64 :=
  if num = 0 then some zero
  else
    let guess : Int := (num.log2 : Int) - den.log2
    let (up, down) := powerOfTwo guess
    let top := if den * up ≤ num * down then guess else guess - 1
    let quantum := max (top - 52) (-1074)
    let (up, down) := powerOfTwo quantum
    let m := roundQuotient (num * down) (den * up)
    let (m, q) := if m = 2 * leastNormal then (leastNormal, quantum + 1) else (m, quantum)
    if q > 971 then none else some ⟨false, m, q⟩

def ofWord (n : Nat) : Binary64 := (ofRatio? n 1).getD zero

/-- The number nearest to `10 ^ k`, for `k` up to 308. -/
def tenPower (k : Nat) : Binary64 := (ofRatio? (Nat.pow 10 k) 1).getD zero

def times? (x y : Binary64) : Option Binary64 :=
  let (a, b) := x.ratio
  let (c, d) := y.ratio
  ofRatio? (a * c) (b * d)

def dividedBy (x y : Binary64) : Binary64 :=
  let (a, b) := x.ratio
  let (c, d) := y.ratio
  (ofRatio? (a * d) (b * c)).getD zero

/-- Divide by `10 ^ k`, in steps of `10 ^ 308` at most, each rounded. -/
def overTenPower (x : Binary64) (k : Nat) : Binary64 :=
  if k ≤ 308 then x.dividedBy (tenPower k)
  else if x.mantissa = 0 then x
  else overTenPower (x.dividedBy (tenPower 308)) (k - 308)
termination_by k
decreasing_by omega

/-- The reading of `significand · 10 ^ exponent`: the significand is rounded, then scaled by a
rounded power of ten. None when the result is out of range. -/
def ofDecimal? (significand : Nat) (exponent : Int) : Option Binary64 :=
  let x := ofWord significand
  if exponent < 0 then some (x.overTenPower (-exponent).toNat)
  else if exponent ≤ 308 then x.times? (tenPower exponent.toNat)
  else if significand = 0 then some x
  else none

/-- A number as an integer of quarters of its last binary place, with the bounds of the interval
of reals that round to it, in the same unit, and whether the bounds belong to it. -/
structure Interval where
  low : Nat
  centre : Nat
  high : Nat
  closed : Bool
  unit : Int

/-- The reals that round to the number. Below a power of two the gap is half as wide. -/
def interval (x : Binary64) : Interval :=
  let narrow := x.mantissa = leastNormal ∧ x.exponent > -1074
  { low := 4 * x.mantissa - (if narrow then 1 else 2)
    centre := 4 * x.mantissa
    high := 4 * x.mantissa + 2
    closed := x.mantissa % 2 == 0
    unit := x.exponent - 2 }

/-- The least `k` with the quotient below `10 ^ k`. -/
def decimalPlace (num den : Nat) : Int :=
  if den ≤ num then (Nat.toDigits 10 (num / den)).length
  else
    match (List.range 400).find? fun z => den ≤ num * Nat.pow 10 (z + 1) with
    | some z => -(z : Int)
    | none => 0

/-- The multiple of `10 ^ grid` nearest to the number among those that read back as the number. -/
def nearestOnGrid? (x : Binary64) (grid : Int) : Option Nat :=
  let i := x.interval
  let (up, down) := powerOfTwo i.unit
  let step := Nat.pow 10 grid.toNat * down
  let scale := Nat.pow 10 (-grid).toNat * up
  let inside (c : Nat) : Bool :=
    if i.closed then i.low * scale ≤ c * step && c * step ≤ i.high * scale
    else i.low * scale < c * step && c * step < i.high * scale
  let below := i.centre * scale / step
  let rest := i.centre * scale % step
  let preferUpper := 2 * rest > step || (2 * rest == step && below % 2 == 1)
  match inside below, inside (below + 1) with
  | true, true => some (if preferUpper then below + 1 else below)
  | true, false => some below
  | false, true => some (below + 1)
  | false, false => none

/-- Remove the zeros at the end of a decimal integer, counting them into the exponent. -/
def dropZeros : Nat → Nat → Int → Nat × Int
  | 0, digits, exponent => (digits, exponent)
  | fuel + 1, digits, exponent =>
    if digits ≠ 0 ∧ digits % 10 = 0 then dropZeros fuel (digits / 10) (exponent + 1)
    else (digits, exponent)

/-- The shortest decimal `digits · 10 ^ exponent` that reads back as a number other than zero, the
nearest one among those of that length. -/
def shortest (x : Binary64) : Nat × Int :=
  let (num, den) := x.ratio
  let place := decimalPlace num den
  let found := (List.range 17).findSome? fun n =>
    let grid := place - (n + 1 : Nat)
    (x.nearestOnGrid? grid).map fun c => (c, grid)
  match found with
  | some (c, grid) => dropZeros 18 c grid
  | none => (0, 0)

/-- The layout of decimal digits whose point stands after `point` places: positional from 1e-5 to
below 1e16, always with a digit on each side of the point, and with an exponent elsewhere. -/
def layout (digits : List Char) (point : Int) : String :=
  let count := digits.length
  let text := String.ofList digits
  let zeros (n : Int) := String.ofList (List.replicate n.toNat '0')
  if (count : Int) ≤ point ∧ point ≤ 16 then text ++ zeros (point - count) ++ ".0"
  else if 0 < point ∧ point ≤ 16 then
    String.ofList (digits.take point.toNat) ++ "." ++ String.ofList (digits.drop point.toNat)
  else if -5 < point ∧ point ≤ 0 then "0." ++ zeros (-point) ++ text
  else
    let lead := String.ofList (digits.take 1)
    let tail := String.ofList (digits.drop 1)
    lead ++ (if tail = "" then "" else "." ++ tail) ++ "e" ++ toString (point - 1)

def render (x : Binary64) : String :=
  let sign := if x.negative then "-" else ""
  if x.mantissa = 0 then sign ++ "0.0"
  else
    let (digits, exponent) := x.shortest
    let text := Nat.toDigits 10 digits
    sign ++ layout text (text.length + exponent)

end Binary64

end EventRules
