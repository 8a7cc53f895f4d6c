import EventRules.Json.Basic

/-!
Tokens of a JSON text. The text is cut from left to right; where it cannot be cut further, the
tokens end with the fault and with what was being read, so that a reader of tokens can report a
fault of its own when it stands further left.
-/
namespace EventRules

/-- Why a text or a value was not accepted. -/
inductive JsonFault where
  /-- The text breaks the grammar. -/
  | malformed
  /-- The text ends too early. -/
  | truncated
  /-- The value does not have the shape that was asked for. -/
  | mismatched
  deriving DecidableEq

namespace Json

/-- A token. The words `null`, `true` and `false` and numbers are scalars. -/
inductive Token where
  | openArray
  | closeArray
  | openObject
  | closeObject
  | comma
  | colon
  | scalar (value : Json)
  | text (value : String)

inductive Lexed where
  /-- Nothing but blanks is left. -/
  | finished
  /-- The next token is faulty; `quoted` tells that it began with a quote. -/
  | broken (fault : JsonFault) (quoted : Bool)
  /-- A token, and what follows it. -/
  | token (first : Token) (rest : Lexed)

def hexValue? (c : Char) : Option Nat :=
  if c.isDigit then some (c.toNat - '0'.toNat)
  else if 'a' ≤ c ∧ c ≤ 'f' then some (c.toNat - 'a'.toNat + 10)
  else if 'A' ≤ c ∧ c ≤ 'F' then some (c.toNat - 'A'.toNat + 10)
  else none

def byteCount (cs : List Char) : Nat := cs.foldl (fun total c => total + c.utf8Size) 0

/-- Read the four digits of an escaped code unit. They are taken as four bytes: a text with fewer
bytes left ends too early, whatever they hold. -/
def scanUnit : List Char → Except JsonFault (Nat × List Char)
  | a :: b :: c :: d :: rest =>
    match hexValue? a, hexValue? b, hexValue? c, hexValue? d with
    | some a, some b, some c, some d => .ok (((a * 16 + b) * 16 + c) * 16 + d, rest)
    | _, _, _, _ => .error .malformed
  | short => .error (if byteCount short < 4 then .truncated else .malformed)

/-- Read the escaped trailing surrogate that has to follow a leading one. -/
def scanTrailing : List Char → Except JsonFault (Nat × List Char)
  | [] => .error .truncated
  | [c] => .error (if c = '\\' then .truncated else .malformed)
  | c :: d :: rest =>
    if c = '\\' ∧ d = 'u' then
      match scanUnit rest with
      | .ok (low, after) =>
        if 0xDC00 ≤ low ∧ low ≤ 0xDFFF then .ok (low, after) else .error .malformed
      | .error fault => .error fault
    else .error .malformed

/-- Read the character of an escape whose code units start here. A trailing surrogate never comes
first. -/
def scanEscapedChar (cs : List Char) : Except JsonFault (Char × List Char) :=
  match scanUnit cs with
  | .error fault => .error fault
  | .ok (unit, rest) =>
    if 0xDC00 ≤ unit ∧ unit ≤ 0xDFFF then .error .malformed
    else if 0xD800 ≤ unit ∧ unit ≤ 0xDBFF then
      match scanTrailing rest with
      | .error fault => .error fault
      | .ok (low, after) =>
        .ok (Char.ofNat (0x10000 + (unit - 0xD800) * 0x400 + (low - 0xDC00)), after)
    else .ok (Char.ofNat unit, rest)

def simpleEscape? (c : Char) : Option Char :=
  if c = '"' ∨ c = '\\' ∨ c = '/' then some c
  else if c = 'b' then some (Char.ofNat 0x8)
  else if c = 'f' then some (Char.ofNat 0xC)
  else if c = 'n' then some '\n'
  else if c = 'r' then some '\r'
  else if c = 't' then some '\t'
  else none

def scanEscape : List Char → Except JsonFault (Char × List Char)
  | [] => .error .truncated
  | c :: rest =>
    if c = 'u' then scanEscapedChar rest
    else
      match simpleEscape? c with
      | some plain => .ok (plain, rest)
      | none => .error .malformed

theorem scanUnit_length {cs rest : List Char} {n : Nat} (h : scanUnit cs = .ok (n, rest)) :
    rest.length ≤ cs.length := by
  unfold scanUnit at h
  split at h
  · split at h
    · cases h
      simp only [List.length_cons]
      omega
    · cases h
  · cases h

theorem scanTrailing_length {cs rest : List Char} {n : Nat}
    (h : scanTrailing cs = .ok (n, rest)) : rest.length ≤ cs.length := by
  unfold scanTrailing at h
  split at h
  · cases h
  · cases h
  · split at h
    · split at h
      · rename_i hs
        have := scanUnit_length hs
        split at h
        · cases h
          simp only [List.length_cons]
          omega
        · cases h
      · cases h
    · cases h

theorem scanEscapedChar_length {cs rest : List Char} {c : Char}
    (h : scanEscapedChar cs = .ok (c, rest)) : rest.length ≤ cs.length := by
  unfold scanEscapedChar at h
  split at h
  · cases h
  · rename_i hu
    have := scanUnit_length hu
    split at h
    · cases h
    · split at h
      · split at h
        · cases h
        · rename_i ht
          have := scanTrailing_length ht
          simp only [Except.ok.injEq, Prod.mk.injEq] at h
          obtain ⟨-, rfl⟩ := h
          omega
      · simp only [Except.ok.injEq, Prod.mk.injEq] at h
        obtain ⟨-, rfl⟩ := h
        exact this

theorem scanEscape_length {cs rest : List Char} {c : Char} (h : scanEscape cs = .ok (c, rest)) :
    rest.length ≤ cs.length := by
  unfold scanEscape at h
  split at h
  · cases h
  · split at h
    · have := scanEscapedChar_length h
      simp only [List.length_cons]
      omega
    · split at h
      · cases h
        simp
      · cases h

/-- Read a text after its opening quote; `done` holds its characters so far in reverse. -/
def scanText (done : List Char) (cs : List Char) : Except JsonFault (String × List Char) :=
  match cs with
  | [] => .error .truncated
  | c :: rest =>
    if c = '"' then .ok (String.ofList done.reverse, rest)
    else if c = '\\' then
      match _h : scanEscape rest with
      | .ok (plain, after) => scanText (plain :: done) after
      | .error fault => .error fault
    else if c.toNat < 0x20 then .error .malformed
    else scanText (c :: done) rest
termination_by cs.length
decreasing_by
  · have := scanEscape_length _h
    simp only [List.length_cons]
    omega
  · simp

theorem scanText_length {done cs rest : List Char} {s : String}
    (h : scanText done cs = .ok (s, rest)) : rest.length ≤ cs.length := by
  fun_induction scanText done cs
  · cases h
  · cases h
    simp
  · rename_i hs _ ih
    have h1 := ih h
    have h2 := scanEscape_length hs
    simp only [List.length_cons]
    omega
  · cases h
  · cases h
  · rename_i ih
    have := ih h
    simp only [List.length_cons]
    omega

/-- The digits of a number as they are gathered: the leading ones that fit a word of 64 bits, and
the power of ten by which they have to be scaled. -/
structure Significand where
  value : Nat
  exponent : Int
  /-- A digit did not fit. -/
  full : Bool

namespace Significand

def empty : Significand := ⟨0, 0, false⟩

def fits (s : Significand) (d : Char) : Bool :=
  !s.full && 10 * s.value + (d.toNat - '0'.toNat) < UInt64.size

/-- A digit before the point. One that does not fit, and all after it, only count places. -/
def pushWhole (s : Significand) (d : Char) : Significand :=
  if s.fits d then { s with value := 10 * s.value + (d.toNat - '0'.toNat) }
  else { s with exponent := s.exponent + 1, full := true }

/-- A digit after the point. One that does not fit, and all after it, are left out. -/
def pushFraction (s : Significand) (d : Char) : Significand :=
  if s.fits d then
    { s with value := 10 * s.value + (d.toNat - '0'.toNat), exponent := s.exponent - 1 }
  else { s with full := true }

end Significand

structure NumberText where
  whole : List Char
  /-- The digits after the point, if there is a point. -/
  fraction : Option (List Char)
  /-- The exponent, if one is written. -/
  power : Option Int

/-- The number that the parts denote: an integer when it is written as one and fits 64 bits, else
a binary64 number; none when that is out of range. Minus zero is a binary64 number. -/
def NumberText.value? (negative : Bool) (n : NumberText) : Option JsonNumber :=
  let whole := n.whole.foldl Significand.pushWhole .empty
  let real (s : Significand) : Option JsonNumber :=
    (Binary64.ofDecimal? s.value (s.exponent + n.power.getD 0)).map fun x =>
      .real (if negative then x.negate else x)
  match n.fraction, n.power with
  | none, none =>
    if whole.full then real whole
    else if !negative then some (.int whole.value)
    else if 0 < whole.value ∧ whole.value ≤ UInt64.size / 2 then some (.int (-whole.value))
    else real whole
  | none, some _ => real whole
  | some digits, _ =>
    real (digits.foldl Significand.pushFraction { whole with full := false })

def missingDigits (cs : List Char) : JsonFault := if cs.isEmpty then .truncated else .malformed

/-- Read the digits before the point: a single zero, or digits that do not start with one. -/
def scanWhole (cs : List Char) : Except JsonFault (List Char × List Char) :=
  let digits := cs.takeWhile Char.isDigit
  if digits.isEmpty then .error (missingDigits cs)
  else if digits.head? = some '0' ∧ digits.length > 1 then .error .malformed
  else .ok (digits, cs.dropWhile Char.isDigit)

/-- Read a point and the digits after it, if there is a point. -/
def scanFraction (cs : List Char) : Except JsonFault (Option (List Char) × List Char) :=
  match cs with
  | '.' :: rest =>
    let digits := rest.takeWhile Char.isDigit
    if digits.isEmpty then .error (missingDigits rest)
    else .ok (some digits, rest.dropWhile Char.isDigit)
  | _ => .ok (none, cs)

def scanPower (cs : List Char) : Except JsonFault (Option Int × List Char) :=
  match cs with
  | [] => .ok (none, [])
  | c :: rest =>
    if c = 'e' ∨ c = 'E' then
      let (negative, rest) :=
        match rest with
        | '+' :: more => (false, more)
        | '-' :: more => (true, more)
        | _ => (false, rest)
      let digits := rest.takeWhile Char.isDigit
      if digits.isEmpty then .error (missingDigits rest)
      else
        let size : Nat := digits.foldl (fun n d => 10 * n + (d.toNat - '0'.toNat)) 0
        .ok (some (if negative then -(size : Int) else size), rest.dropWhile Char.isDigit)
    else .ok (none, cs)

def scanNumber (negative : Bool) (cs : List Char) : Except JsonFault (Json × List Char) := do
  let (whole, rest) ← scanWhole cs
  let (fraction, rest) ← scanFraction rest
  let (power, rest) ← scanPower rest
  match (NumberText.mk whole fraction power).value? negative with
  | some value => return (.number value, rest)
  | none => .error .malformed

def scanWord (value : Json) : List Char → List Char → Except JsonFault (Json × List Char)
  | [], cs => .ok (value, cs)
  | _ :: _, [] => .error .truncated
  | e :: expected, c :: cs => if c = e then scanWord value expected cs else .error .malformed

def isSpace (c : Char) : Bool := c = ' ' || c = '\n' || c = '\r' || c = '\t'

def punctuation? (c : Char) : Option Token :=
  if c = '[' then some .openArray
  else if c = ']' then some .closeArray
  else if c = '{' then some .openObject
  else if c = '}' then some .closeObject
  else if c = ',' then some .comma
  else if c = ':' then some .colon
  else none

def scanScalar (c : Char) (rest : List Char) : Except JsonFault (Json × List Char) :=
  if c = '-' then scanNumber true rest
  else if c.isDigit then scanNumber false (c :: rest)
  else if c = 'n' then scanWord .null ['u', 'l', 'l'] rest
  else if c = 't' then scanWord (.bool true) ['r', 'u', 'e'] rest
  else if c = 'f' then scanWord (.bool false) ['a', 'l', 's', 'e'] rest
  else .error .malformed

def scanToken (c : Char) (rest : List Char) : Except JsonFault (Token × List Char) :=
  match punctuation? c with
  | some token => .ok (token, rest)
  | none =>
    if c = '"' then (scanText [] rest).map fun (s, after) => (.text s, after)
    else (scanScalar c rest).map fun (value, after) => (.scalar value, after)

theorem length_dropWhile_le (p : Char → Bool) (cs : List Char) :
    (cs.dropWhile p).length ≤ cs.length :=
  (List.dropWhile_suffix p).length_le

theorem scanWhole_length {cs digits rest : List Char} (h : scanWhole cs = .ok (digits, rest)) :
    rest.length < cs.length := by
  unfold scanWhole at h
  simp only at h
  split at h
  · cases h
  · rename_i hd
    split at h
    · cases h
    · cases h
      cases cs with
      | nil => simp at hd
      | cons c rest =>
        by_cases hc : c.isDigit
        · have := length_dropWhile_le Char.isDigit rest
          simp only [List.dropWhile_cons, hc, ↓reduceIte, List.length_cons]
          omega
        · simp [hc] at hd

theorem scanFraction_length {cs rest : List Char} {digits : Option (List Char)}
    (h : scanFraction cs = .ok (digits, rest)) : rest.length ≤ cs.length := by
  unfold scanFraction at h
  split at h
  · rename_i after
    simp only at h
    split at h
    · cases h
    · cases h
      have := length_dropWhile_le Char.isDigit after
      simp only [List.length_cons]
      omega
  · cases h
    exact Nat.le_refl _

theorem scanPower_length {cs rest : List Char} {power : Option Int}
    (h : scanPower cs = .ok (power, rest)) : rest.length ≤ cs.length := by
  unfold scanPower at h
  split at h
  · cases h
    simp
  · rename_i c after
    split at h
    · split at h
      rename_i negative tail ht
      have hle : tail.length ≤ after.length := by
        split at ht <;> cases ht <;> simp
      simp only at h
      split at h
      · cases h
      · cases h
        have := length_dropWhile_le Char.isDigit tail
        simp only [List.length_cons]
        omega
    · cases h
      exact Nat.le_refl _

theorem scanNumber_length {negative : Bool} {cs rest : List Char} {value : Json}
    (h : scanNumber negative cs = .ok (value, rest)) : rest.length < cs.length := by
  unfold scanNumber at h
  cases h1 : scanWhole cs with
  | error f => simp [h1, bind, Except.bind] at h
  | ok p1 =>
    obtain ⟨whole, r1⟩ := p1
    simp only [h1, bind, Except.bind] at h
    cases h2 : scanFraction r1 with
    | error f => simp [h2] at h
    | ok p2 =>
      obtain ⟨fraction, r2⟩ := p2
      simp only [h2] at h
      cases h3 : scanPower r2 with
      | error f => simp [h3] at h
      | ok p3 =>
        obtain ⟨power, r3⟩ := p3
        simp only [h3] at h
        have l1 := scanWhole_length h1
        have l2 := scanFraction_length h2
        have l3 := scanPower_length h3
        split at h
        · cases h
          omega
        · cases h

theorem scanWord_length {value result : Json} {expected cs rest : List Char}
    (h : scanWord value expected cs = .ok (result, rest)) : rest.length ≤ cs.length := by
  induction expected generalizing cs with
  | nil =>
    cases h
    exact Nat.le_refl _
  | cons e expected ih =>
    cases cs with
    | nil => cases h
    | cons c cs =>
      unfold scanWord at h
      split at h
      · have := ih h
        simp only [List.length_cons]
        omega
      · cases h

theorem scanScalar_length {c : Char} {rest after : List Char} {value : Json}
    (h : scanScalar c rest = .ok (value, after)) : after.length ≤ rest.length := by
  unfold scanScalar at h
  split at h
  · exact Nat.le_of_lt (scanNumber_length h)
  · split at h
    · have := scanNumber_length h
      simp only [List.length_cons] at this
      omega
    · repeat (split at h; exact scanWord_length h)
      cases h

theorem scanToken_length {c : Char} {rest after : List Char} {token : Token}
    (h : scanToken c rest = .ok (token, after)) : after.length ≤ rest.length := by
  unfold scanToken at h
  split at h
  · cases h
    exact Nat.le_refl _
  · split at h
    · cases hs : scanText [] rest with
      | error f => simp [hs, Except.map] at h
      | ok p =>
        simp only [hs, Except.map, Except.ok.injEq, Prod.mk.injEq] at h
        obtain ⟨-, rfl⟩ := h
        exact scanText_length hs
    · cases hs : scanScalar c rest with
      | error f => simp [hs, Except.map] at h
      | ok p =>
        simp only [hs, Except.map, Except.ok.injEq, Prod.mk.injEq] at h
        obtain ⟨-, rfl⟩ := h
        exact scanScalar_length hs

def lex (cs : List Char) : Lexed :=
  match cs with
  | [] => .finished
  | c :: rest =>
    if isSpace c then lex rest
    else
      match _h : scanToken c rest with
      | .ok (token, after) => .token token (lex after)
      | .error fault => .broken fault (c = '"')
termination_by cs.length
decreasing_by
  · simp
  · have := scanToken_length _h
    simp only [List.length_cons]
    omega

end Json

end EventRules
