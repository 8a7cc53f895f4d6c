import EventRules.Encoding.Decode
import EventRules.Proofs.Encoding.Utf8

/-! Octets that are read without a label. Reading never fails, and UTF-8 is read as it was written.
What is not UTF-8 is read as windows-1252 unless it begins with a byte order mark: then the mark is
taken off, and fewer characters are read than there are octets. What is known of other labels, and
which encoding is guessed, makes no difference to this. -/
namespace EventRules.Encoding

variable {octets : List UInt8} {decoder : Decoder}

/-- There are at most as many pieces as octets; what was begun before them counts as one more. -/
theorem Utf8.length_pieces_le (begun : Option Begun) (octets : List UInt8) :
    (pieces begun octets).length ≤ octets.length + begun.toList.length := by
  fun_induction pieces begun octets with
  | case8 begun octet rest n hrange ihnone ihsome =>
    -- the octet that cuts the character off is read once more, as a first one
    rw [List.length_cons]
    split
    next => simpa using ihnone
    next start hfirst => simpa using ihsome start
    next => simpa using ihnone
  | _ =>
    simp only [List.length_cons, List.length_nil, Option.toList_none, Option.toList_some] at *
    omega

theorem Utf16.length_chars_le (bigEndian : Bool) (lead : Option Nat) (octets : List UInt8) :
    (chars bigEndian lead octets).length ≤ octets.length + lead.toList.length := by
  fun_induction chars bigEndian lead octets with
  | case7 lead a b rest n htrailing ihlead ihnone =>
    rw [List.length_cons]
    split
    next => simpa using Nat.le_succ_of_le ihlead
    next => simpa using Nat.le_succ_of_le ihnone
  | _ =>
    simp only [List.length_cons, List.length_nil, Option.toList_none, Option.toList_some] at *
    omega

theorem Decoder.length_read_le (decoder : Decoder) (octets : List UInt8) :
    (decoder.read octets).length ≤ octets.length := by
  cases decoder with
  | utf8 =>
    rw [read, Utf8.decodeLossy, shownText, String.length_ofList, List.length_map]
    exact Utf8.length_pieces_le none octets
  | utf16 bigEndian =>
    rw [read, Utf16.decode, String.length_ofList]
    exact Utf16.length_chars_le bigEndian none octets
  | windows1252 => simp [read, SingleByte.decode]
  | latin9 => simp [read, SingleByte.decode]

def marks : List (List UInt8) := [[0xEF, 0xBB, 0xBF], [0xFF, 0xFE], [0xFE, 0xFF]]

/-- The octets begin with a byte order mark. -/
def Marked (octets : List UInt8) : Prop := ∃ mark ∈ marks, mark <+: octets

theorem marked_iff : Marked octets ↔
    (∃ rest, octets = 0xEF :: 0xBB :: 0xBF :: rest) ∨ (∃ rest, octets = 0xFF :: 0xFE :: rest) ∨
      ∃ rest, octets = 0xFE :: 0xFF :: rest := by
  simp [Marked, marks, List.IsPrefix, eq_comm]

theorem Decoder.readMarked_eq_read (h : ¬ Marked octets) :
    decoder.readMarked octets = decoder.read octets := by
  rw [marked_iff] at h
  unfold readMarked Encoding.readMarked
  split
  next rest => exact absurd (.inl ⟨rest, rfl⟩) h
  next rest => exact absurd (.inr (.inl ⟨rest, rfl⟩)) h
  next rest => exact absurd (.inr (.inr ⟨rest, rfl⟩)) h
  next => rfl

/-- A mark is no part of the text. -/
theorem Decoder.length_readMarked_lt (h : Marked octets) :
    (decoder.readMarked octets).length < octets.length := by
  obtain ⟨rest, rfl⟩ | ⟨rest, rfl⟩ | ⟨rest, rfl⟩ := marked_iff.mp h
  · have hread := length_read_le .utf8 rest
    simp only [readMarked, Encoding.readMarked, List.length_cons]
    omega
  · have hread := length_read_le (.utf16 false) rest
    simp only [readMarked, Encoding.readMarked, List.length_cons]
    omega
  · have hread := length_read_le (.utf16 true) rest
    simp only [readMarked, Encoding.readMarked, List.length_cons]
    omega

theorem Decoder.length_readMarked_le (decoder : Decoder) (octets : List UInt8) :
    (decoder.readMarked octets).length ≤ octets.length := by
  by_cases h : Marked octets
  · exact Nat.le_of_lt (length_readMarked_lt h)
  · rw [readMarked_eq_read h]
    exact length_read_le decoder octets

theorem unmarked_eq_self (h : ¬ Marked octets) : unmarked octets = octets := by
  unfold unmarked
  split
  next rest => exact absurd (marked_iff.mpr (.inl ⟨rest, rfl⟩)) h
  next => rfl

theorem length_readMarked_unmarked_lt (h : Marked octets) :
    (decoder.readMarked (unmarked octets)).length < octets.length := by
  have hread := decoder.length_readMarked_lt h
  unfold unmarked
  split
  next rest =>
    have hrest := decoder.length_readMarked_le rest
    simp only [List.length_cons]
    omega
  next => exact hread

namespace Codecs

variable (codecs : Codecs) (octets : List UInt8)

theorem decodeAs_windows1252 : codecs.decodeAs "windows-1252" octets =
    .ok (Decoder.windows1252.readMarked (unmarked octets)) := by
  have hlabel : Decoder.ofLabel? (lowerLabel "windows-1252") = some .windows1252 := by
    decide +kernel
  unfold decodeAs reader?
  dsimp only
  rw [if_neg (by decide +kernel), if_neg (by decide +kernel), hlabel]
  rfl

theorem decodeAs_latin1 : codecs.decodeAs "iso-8859-1" octets =
    .ok (Decoder.windows1252.readMarked (unmarked octets)) := by
  unfold decodeAs
  dsimp only
  rw [if_neg (by decide +kernel), if_pos (by decide +kernel)]

/-- Whatever encoding is guessed, what is not UTF-8 is read with one decoder. -/
theorem decode_eq : codecs.decode octets = .ok (match Utf8.decode (unmarked octets) with
    | .ok text => text
    | .error _ => Decoder.windows1252.readMarked (unmarked (unmarked octets))) := by
  unfold decode
  dsimp only
  cases Utf8.decode (unmarked octets) with
  | ok text => rfl
  | error fault =>
    by_cases hguess : codecs.detect (unmarked octets) = "iso-8859-1"
    · dsimp only
      rw [if_pos hguess]
      exact codecs.decodeAs_latin1 _
    · dsimp only
      rw [if_neg hguess]
      exact codecs.decodeAs_windows1252 _

theorem decode_eq_decodeAuto : codecs.decode octets = decodeAuto octets := by
  rw [decodeAuto, decode_eq, decode_eq]

end Codecs

/-- Octets are read without a label in every case, after one mark of UTF-8. A text in UTF-8 is read
as it was written. Other octets are read as characters of windows-1252, all of them and one by one,
exactly when they do not begin with a mark; with a mark, also with a second one of UTF-8, the
encoding is the one that the mark names. All this is so whichever encoding is guessed. -/
theorem decoding_exact (octets : List UInt8) :
    (∀ codecs : Codecs, codecs.decode octets = decodeAuto octets) ∧
    ∃ text, decodeAuto octets = .ok text ∧
      (∀ s, Utf8.encode s = unmarked octets → text = s) ∧
      ((∀ s, Utf8.encode s ≠ unmarked octets) →
        text = Decoder.windows1252.readMarked (unmarked (unmarked octets)) ∧
        (text.toList = (unmarked octets).map SingleByte.windows1252 ↔
          ¬ Marked (unmarked octets))) := by
  refine ⟨fun codecs => codecs.decode_eq_decodeAuto octets, _, Codecs.decode_eq {} octets,
    fun s hs => ?_, fun hnone => ?_⟩
  · rw [Utf8.decode_eq_ok_iff.mpr hs]
  · cases hread : Utf8.decode (unmarked octets) with
    | ok text => exact absurd (Utf8.decode_eq_ok_iff.mp hread) (hnone text)
    | error fault =>
      refine ⟨rfl, fun heq hmarked => ?_, fun h => ?_⟩
      · have hlength := congrArg List.length heq
        rw [List.length_map, String.length_toList] at hlength
        exact Nat.ne_of_lt (length_readMarked_unmarked_lt hmarked) hlength
      · dsimp only
        rw [unmarked_eq_self h, Decoder.readMarked_eq_read h]
        exact String.toList_ofList

/-- Octets with a fault are no text in UTF-8. -/
theorem Utf8.encode_ne {octets : List UInt8} {fault : Fault} (h : decode octets = .error fault)
    (s : String) : encode s ≠ octets := by
  intro hs
  rw [decode_eq_ok_iff.mpr hs] at h
  cases h

/-- Octets that are not UTF-8 and begin with the mark of UTF-16, or with a second mark of UTF-8: the
mark is no part of the text, and the octets after the first one are read in pairs. -/
theorem decoding_gives_way :
    ((∀ s, Utf8.encode s ≠ unmarked [0xFF, 0xFE, 0x41, 0x00]) ∧
      decodeAuto [0xFF, 0xFE, 0x41, 0x00] = .ok "A" ∧
      [0xFF, 0xFE, 0x41, 0x00].map SingleByte.windows1252 = ['\xff', '\xfe', 'A', '\x00']) ∧
    (∀ s, Utf8.encode s ≠ unmarked [0xEF, 0xBB, 0xBF, 0xEF, 0xBB, 0xBF, 0xFF]) ∧
      decodeAuto [0xEF, 0xBB, 0xBF, 0xEF, 0xBB, 0xBF, 0xFF] = .ok "\xff" := by
  have hpairs : Utf8.decode [0xFF, 0xFE, 0x41, 0x00] = .error (.invalid 0 1) := by
    decide +kernel
  have htwice : Utf8.decode [0xEF, 0xBB, 0xBF, 0xFF] = .error (.invalid 3 1) := by
    decide +kernel
  exact ⟨⟨Utf8.encode_ne hpairs, by decide +kernel, by decide +kernel⟩, Utf8.encode_ne htwice,
    by decide +kernel⟩

end EventRules.Encoding
