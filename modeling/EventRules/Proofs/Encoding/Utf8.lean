import EventRules.Encoding.Utf8
import Mathlib.Data.List.Basic

/-! What is UTF-8. The machine takes the octets of a character, and no others, to that character; so
it reads a text without a fault from exactly the octets to which the text is written. -/
namespace EventRules.Encoding.Utf8

open String (utf8EncodeChar)

variable {start : Begun} {octet : UInt8} {octets rest tail : List UInt8} {c : Char} {cs : List Char}
  {index n : Nat}

/-- The octets finish a character that has been begun. -/
inductive Finishes : Begun → List UInt8 → Char → Prop
  | last {start : Begun} {octet : UInt8} (howed : start.owed ≤ 1)
    (hrange : start.low ≤ octet.toNat ∧ octet.toNat ≤ start.high) :
    Finishes start [octet] (Char.ofNat (start.bits * 0x40 + (octet.toNat - 0x80)))
  | more {start : Begun} {octet : UInt8} {tail : List UInt8} {c : Char} (howed : 1 < start.owed)
    (hrange : start.low ≤ octet.toNat ∧ octet.toNat ≤ start.high)
    (htail : Finishes ⟨start.owed - 1, 0x80, 0xBF, start.bits * 0x40 + (octet.toNat - 0x80),
      start.size + 1⟩ tail c) : Finishes start (octet :: tail) c

/-- The octets are those that the machine takes to a character. -/
def Spells (c : Char) : List UInt8 → Prop
  | [] => False
  | octet :: tail =>
    match first octet.toNat with
    | .whole => tail = [] ∧ c = Char.ofNat octet.toNat
    | .begins start => Finishes start tail c
    | .wrong => False

theorem Finishes.pieces (h : Finishes start tail c) (rest : List UInt8) :
    pieces (some start) (tail ++ rest) =
      .char c (start.size + tail.length) :: Utf8.pieces none rest := by
  induction h with
  | last howed hrange =>
    rw [List.singleton_append, Utf8.pieces]
    simp only [if_pos hrange, if_pos howed]
    rfl
  | more howed hrange _ ih =>
    rw [List.cons_append, Utf8.pieces]
    simp only [if_pos hrange, if_neg (Nat.not_le.mpr howed), ih, List.length_cons]
    rw [Nat.add_assoc, Nat.add_comm 1]

theorem exists_finishes (h : strictChars index (pieces (some start) octets) = .ok cs) :
    ∃ tail c rest, octets = tail ++ rest ∧ Finishes start tail c := by
  induction octets generalizing start with
  | nil => simp [pieces, strictChars] at h
  | cons octet others ih =>
    rw [pieces] at h
    dsimp only at h
    split at h
    next hrange =>
      split at h
      next howed => exact ⟨[octet], _, others, rfl, .last howed hrange⟩
      next howed =>
        obtain ⟨tail, c, rest, rfl, htail⟩ := ih h
        exact ⟨octet :: tail, c, rest, rfl, .more (by omega) hrange htail⟩
    next => simp [strictChars] at h

theorem Spells.pieces (h : Spells c octets) (rest : List UInt8) :
    ∃ n, pieces none (octets ++ rest) = .char c n :: Utf8.pieces none rest := by
  cases octets with
  | nil => exact h.elim
  | cons octet tail =>
    rw [List.cons_append, Utf8.pieces]
    rw [Spells] at h
    cases hfirst : first octet.toNat with
    | whole =>
      rw [hfirst] at h
      obtain ⟨rfl, rfl⟩ := h
      exact ⟨1, rfl⟩
    | begins start =>
      rw [hfirst] at h
      exact ⟨_, h.pieces rest⟩
    | wrong =>
      rw [hfirst] at h
      exact h.elim

/-- Octets that are read without a fault begin with those of a character. -/
theorem exists_spells (h : strictChars index (pieces none (octet :: tail)) = .ok cs) :
    ∃ front c rest, octet :: tail = front ++ rest ∧ Spells c front := by
  rw [pieces] at h
  cases hfirst : first octet.toNat with
  | whole => exact ⟨[octet], _, tail, rfl, by rw [Spells, hfirst]; exact ⟨rfl, rfl⟩⟩
  | begins start =>
    rw [hfirst] at h
    obtain ⟨front, c, rest, rfl, hfront⟩ := exists_finishes h
    exact ⟨octet :: front, c, rest, rfl, by rwa [Spells, hfirst]⟩
  | wrong => simp [hfirst, strictChars] at h

theorem finishes_last_iff {low high bits size : Nat} :
    Finishes ⟨1, low, high, bits, size⟩ tail c ↔
      ∃ x, tail = [x] ∧ low ≤ x.toNat ∧ x.toNat ≤ high ∧
        c = Char.ofNat (bits * 0x40 + (x.toNat - 0x80)) := by
  constructor
  · intro h
    cases h with
    | last howed hrange => exact ⟨_, rfl, hrange.1, hrange.2, rfl⟩
    | more howed hrange htail => simp at howed
  · -- `subst` would evaluate the bound of the scalar values in unary
    rintro ⟨x, rfl, hlow, hhigh, hc⟩
    rw [hc]
    exact .last (Nat.le_refl 1) ⟨hlow, hhigh⟩

theorem finishes_more_iff {owed low high bits size : Nat} :
    Finishes ⟨owed + 2, low, high, bits, size⟩ tail c ↔
      ∃ x others, tail = x :: others ∧ low ≤ x.toNat ∧ x.toNat ≤ high ∧
        Finishes ⟨owed + 1, 0x80, 0xBF, bits * 0x40 + (x.toNat - 0x80), size + 1⟩ others c := by
  constructor
  · intro h
    cases h with
    | last howed hrange => simp at howed
    | more howed hrange htail => exact ⟨_, _, rfl, hrange.1, hrange.2, htail⟩
  · rintro ⟨x, others, rfl, hlow, hhigh, h⟩
    exact .more (Nat.le_add_left 2 owed) ⟨hlow, hhigh⟩ h

theorem first_one (h : n < 0x80) : first n = .whole := by
  unfold first
  rw [if_pos h]

theorem first_two (hlow : 0xC2 ≤ n) (hhigh : n < 0xE0) :
    first n = .begins ⟨1, 0x80, 0xBF, n - 0xC0, 1⟩ := by
  unfold first
  rw [if_neg (by omega), if_neg (by omega), if_pos hhigh]

theorem first_three (hlow : 0xE0 ≤ n) (hhigh : n < 0xF0) :
    first n = .begins ⟨2, if n = 0xE0 then 0xA0 else 0x80, if n = 0xED then 0x9F else 0xBF,
      n - 0xE0, 1⟩ := by
  unfold first
  rw [if_neg (by omega), if_neg (by omega), if_neg (by omega), if_pos hhigh]

theorem first_four (hlow : 0xF0 ≤ n) (hhigh : n < 0xF5) :
    first n = .begins ⟨3, if n = 0xF0 then 0x90 else 0x80, if n = 0xF4 then 0x8F else 0xBF,
      n - 0xF0, 1⟩ := by
  unfold first
  rw [if_neg (by omega), if_neg (by omega), if_neg (by omega), if_neg (by omega), if_pos hhigh]

/-- An octet begins a character of one to four octets, by its range, or none. -/
theorem first_cases (n : Nat) :
    n < 0x80 ∨ (0xC2 ≤ n ∧ n < 0xE0) ∨ (0xE0 ≤ n ∧ n < 0xF0) ∨ (0xF0 ≤ n ∧ n < 0xF5) ∨
      first n = .wrong := by
  by_cases h : n < 0x80 ∨ (0xC2 ≤ n ∧ n < 0xE0) ∨ (0xE0 ≤ n ∧ n < 0xF0) ∨ (0xF0 ≤ n ∧ n < 0xF5)
  · tauto
  · unfold first
    repeat' split
    all_goals first | omega | simp

theorem toNat_of_eq (hc : c = Char.ofNat n) (h : n.isValidChar) : c.toNat = n := by
  rw [hc, Char.ofNat, dif_pos h]
  rfl

theorem eq_charOfNat (h : n = c.toNat) : c = Char.ofNat n := by
  rw [h, Char.ofNat_toNat]

theorem eq_octetOfNat (x : UInt8) (h : x.toNat = n) : x = UInt8.ofNat n := by
  rw [← h, UInt8.ofNat_toNat]

theorem toNat_octetOfNat (h : n < 0x100) : (UInt8.ofNat n).toNat = n := by
  rw [UInt8.toNat_ofNat', Nat.mod_eq_of_lt h]

/-! The octets of a character, by their number. -/

theorem encode_one (h : c.toNat < 0x80) : utf8EncodeChar c = [UInt8.ofNat c.toNat] := by
  change c.val.toNat < _ at h
  unfold utf8EncodeChar
  dsimp only
  rw [if_pos (by omega)]
  rfl

theorem encode_two (hlow : 0x80 ≤ c.toNat) (hhigh : c.toNat < 0x800) :
    utf8EncodeChar c =
      [UInt8.ofNat (c.toNat / 64 % 32 + 192), UInt8.ofNat (c.toNat % 64 + 128)] := by
  change _ ≤ c.val.toNat at hlow
  change c.val.toNat < _ at hhigh
  unfold utf8EncodeChar
  dsimp only
  rw [if_neg (by omega), if_pos (by omega)]
  rfl

theorem encode_three (hlow : 0x800 ≤ c.toNat) (hhigh : c.toNat < 0x10000) :
    utf8EncodeChar c =
      [UInt8.ofNat (c.toNat / 4096 % 16 + 224), UInt8.ofNat (c.toNat / 64 % 64 + 128),
        UInt8.ofNat (c.toNat % 64 + 128)] := by
  change _ ≤ c.val.toNat at hlow
  change c.val.toNat < _ at hhigh
  unfold utf8EncodeChar
  dsimp only
  rw [if_neg (by omega), if_neg (by omega), if_pos (by omega)]
  rfl

theorem encode_four (hlow : 0x10000 ≤ c.toNat) :
    utf8EncodeChar c =
      [UInt8.ofNat (c.toNat / 262144 % 8 + 240), UInt8.ofNat (c.toNat / 4096 % 64 + 128),
        UInt8.ofNat (c.toNat / 64 % 64 + 128), UInt8.ofNat (c.toNat % 64 + 128)] := by
  change _ ≤ c.val.toNat at hlow
  unfold utf8EncodeChar
  dsimp only
  rw [if_neg (by omega), if_neg (by omega), if_neg (by omega)]
  rfl

theorem Finishes.eq_encode_two (hlow : 0xC2 ≤ octet.toNat) (hhigh : octet.toNat < 0xE0)
    (h : Finishes ⟨1, 0x80, 0xBF, octet.toNat - 0xC0, 1⟩ tail c) :
    octet :: tail = utf8EncodeChar c := by
  obtain ⟨x, rfl, hx, hx', hc⟩ := finishes_last_iff.mp h
  have htoNat := toNat_of_eq hc (.inl (by omega))
  rw [encode_two (by omega) (by omega), ← eq_octetOfNat octet (by omega),
    ← eq_octetOfNat x (by omega)]

theorem Finishes.eq_encode_three (hlow : 0xE0 ≤ octet.toNat) (hhigh : octet.toNat < 0xF0)
    (h : Finishes ⟨2, if octet.toNat = 0xE0 then 0xA0 else 0x80,
      if octet.toNat = 0xED then 0x9F else 0xBF, octet.toNat - 0xE0, 1⟩ tail c) :
    octet :: tail = utf8EncodeChar c := by
  obtain ⟨x, _, rfl, hx, hx', h⟩ := finishes_more_iff.mp h
  obtain ⟨y, rfl, hy, hy', hc⟩ := finishes_last_iff.mp h
  have hx128 : 0x80 ≤ x.toNat ∧ x.toNat ≤ 0xBF := by split at hx <;> split at hx' <;> omega
  have hleast : 0x20 ≤ (octet.toNat - 0xE0) * 0x40 + (x.toNat - 0x80) := by
    split at hx <;> omega
  -- the narrower range after `0xED` leaves out the surrogates
  have hscalar : (octet.toNat - 0xE0) * 0x40 + (x.toNat - 0x80) < 0x360 ∨
      0x380 ≤ (octet.toNat - 0xE0) * 0x40 + (x.toNat - 0x80) := by
    split at hx' <;> omega
  have htoNat := toNat_of_eq hc (by unfold Nat.isValidChar; omega)
  rw [encode_three (by omega) (by omega), ← eq_octetOfNat octet (by omega),
    ← eq_octetOfNat x (by omega), ← eq_octetOfNat y (by omega)]

theorem Finishes.eq_encode_four (hlow : 0xF0 ≤ octet.toNat) (hhigh : octet.toNat < 0xF5)
    (h : Finishes ⟨3, if octet.toNat = 0xF0 then 0x90 else 0x80,
      if octet.toNat = 0xF4 then 0x8F else 0xBF, octet.toNat - 0xF0, 1⟩ tail c) :
    octet :: tail = utf8EncodeChar c := by
  obtain ⟨x, _, rfl, hx, hx', h⟩ := finishes_more_iff.mp h
  obtain ⟨y, _, rfl, hy, hy', h⟩ := finishes_more_iff.mp h
  obtain ⟨z, rfl, hz, hz', hc⟩ := finishes_last_iff.mp h
  have hx128 : 0x80 ≤ x.toNat ∧ x.toNat ≤ 0xBF := by split at hx <;> split at hx' <;> omega
  have hleast : 0x10 ≤ (octet.toNat - 0xF0) * 0x40 + (x.toNat - 0x80) := by
    split at hx <;> omega
  have hmost : (octet.toNat - 0xF0) * 0x40 + (x.toNat - 0x80) < 0x110 := by
    split at hx' <;> omega
  have htoNat := toNat_of_eq hc (.inr (by omega))
  rw [encode_four (by omega), ← eq_octetOfNat octet (by omega),
    ← eq_octetOfNat x (by omega), ← eq_octetOfNat y (by omega),
    ← eq_octetOfNat z (by omega)]

theorem Spells.eq_encode (h : Spells c octets) : octets = utf8EncodeChar c := by
  cases octets with
  | nil => exact h.elim
  | cons octet tail =>
    rw [Spells] at h
    rcases first_cases octet.toNat with hlt | ⟨hlow, hhigh⟩ | ⟨hlow, hhigh⟩ | ⟨hlow, hhigh⟩ | hwrong
    · rw [first_one hlt] at h
      obtain ⟨rfl, hc⟩ := h
      have htoNat := toNat_of_eq hc (.inl (by omega))
      rw [encode_one (by omega), htoNat, UInt8.ofNat_toNat]
    · rw [first_two hlow hhigh] at h
      exact Finishes.eq_encode_two hlow hhigh h
    · rw [first_three hlow hhigh] at h
      exact Finishes.eq_encode_three hlow hhigh h
    · rw [first_four hlow hhigh] at h
      exact Finishes.eq_encode_four hlow hhigh h
    · rw [hwrong] at h
      exact h.elim

/-- The octets to which a character is written spell it. -/
theorem spells_encode (c : Char) : Spells c (utf8EncodeChar c) := by
  have hvalid : c.toNat < 0xD800 ∨ 0xDFFF < c.toNat ∧ c.toNat < 0x110000 := c.valid
  have hlast := toNat_octetOfNat (n := c.toNat % 64 + 128) (by omega)
  have hthird := toNat_octetOfNat (n := c.toNat / 64 % 64 + 128) (by omega)
  have hsecond := toNat_octetOfNat (n := c.toNat / 4096 % 64 + 128) (by omega)
  by_cases hone : c.toNat < 0x80
  · rw [encode_one hone, Spells, toNat_octetOfNat (by omega), first_one hone]
    exact ⟨rfl, eq_charOfNat rfl⟩
  by_cases htwo : c.toNat < 0x800
  · rw [encode_two (by omega) htwo, Spells, toNat_octetOfNat (by omega),
      first_two (by omega) (by omega)]
    exact finishes_last_iff.mpr ⟨_, rfl, by omega, by omega, eq_charOfNat (by omega)⟩
  by_cases hthree : c.toNat < 0x10000
  · rw [encode_three (by omega) hthree, Spells, toNat_octetOfNat (by omega),
      first_three (by omega) (by omega)]
    refine finishes_more_iff.mpr ⟨_, _, rfl, ?_, ?_, finishes_last_iff.mpr
      ⟨_, rfl, by omega, by omega, eq_charOfNat (by omega)⟩⟩
    · split <;> omega
    · split <;> omega
  · rw [encode_four (by omega), Spells, toNat_octetOfNat (by omega),
      first_four (by omega) (by omega)]
    refine finishes_more_iff.mpr ⟨_, _, rfl, ?_, ?_, finishes_more_iff.mpr
      ⟨_, _, rfl, by omega, by omega, finishes_last_iff.mpr
        ⟨_, rfl, by omega, by omega, eq_charOfNat (by omega)⟩⟩⟩
    · split <;> omega
    · split <;> omega

theorem strictChars_char_iff {size : Nat} {others : List Piece} :
    strictChars index (.char c size :: others) = .ok cs ↔
      ∃ cs', strictChars (index + size) others = .ok cs' ∧ cs = c :: cs' := by
  rw [strictChars]
  cases strictChars (index + size) others with
  | ok cs' => simp [Except.map, eq_comm]
  | error fault => simp [Except.map]

/-- Characters are read without a fault from the octets to which they are written, and from no
others. -/
theorem strictChars_pieces_iff :
    strictChars index (pieces none octets) = .ok cs ↔ cs.flatMap utf8EncodeChar = octets := by
  constructor
  · intro h
    induction cs generalizing octets index with
    | nil =>
      cases octets with
      | nil => rfl
      | cons octet tail =>
        obtain ⟨front, c, rest, heq, hfront⟩ := exists_spells h
        obtain ⟨n, hpieces⟩ := hfront.pieces rest
        rw [heq, hpieces, strictChars_char_iff] at h
        simp at h
    | cons d ds ih =>
      cases octets with
      | nil => simp [pieces, strictChars] at h
      | cons octet tail =>
        obtain ⟨front, c, rest, heq, hfront⟩ := exists_spells h
        obtain ⟨n, hpieces⟩ := hfront.pieces rest
        rw [heq, hpieces, strictChars_char_iff] at h
        obtain ⟨cs', hrest, hcs⟩ := h
        obtain ⟨rfl, rfl⟩ := List.cons.inj hcs
        rw [heq, List.flatMap_cons, ih hrest, hfront.eq_encode]
  · rintro rfl
    induction cs generalizing index with
    | nil => rfl
    | cons c cs ih =>
      obtain ⟨n, hpieces⟩ := (spells_encode c).pieces (cs.flatMap utf8EncodeChar)
      rw [List.flatMap_cons, hpieces, strictChars_char_iff]
      exact ⟨cs, ih, rfl⟩

theorem encode_ofList (cs : List Char) : encode (String.ofList cs) = cs.flatMap utf8EncodeChar := by
  rw [encode, String.toUTF8_eq_toByteArray]
  exact List.toList_data_toByteArray

/-- A text is read without a fault from the octets to which it is written, and from no others. -/
theorem decode_eq_ok_iff {text : String} : decode octets = .ok text ↔ encode text = octets := by
  obtain ⟨cs, rfl⟩ : ∃ cs, text = String.ofList cs := ⟨text.toList, String.ofList_toList.symm⟩
  have hread : strictChars 0 (pieces none octets) = .ok cs ↔ _ := strictChars_pieces_iff
  rw [encode_ofList, ← hread, decode]
  cases strictChars 0 (pieces none octets) with
  | ok cs' => simp [Except.map, String.ofList_inj]
  | error fault => simp [Except.map]

theorem text?_eq_some_iff {text : String} : text? octets = some text ↔ encode text = octets := by
  rw [← decode_eq_ok_iff, text?]
  cases decode octets <;> simp [Except.toOption]

theorem text?_encode (text : String) : text? (encode text) = some text :=
  text?_eq_some_iff.mpr rfl

/-- Different texts have different octets. -/
theorem encode_injective : Function.Injective encode := by
  intro s t h
  have hs := text?_encode s
  rw [h, text?_encode] at hs
  exact (Option.some.inj hs).symm

theorem encode_eq_flatMap (text : String) : encode text = text.toList.flatMap utf8EncodeChar := by
  rw [← encode_ofList, String.ofList_toList]

theorem encode_append (s t : String) : encode (s ++ t) = encode s ++ encode t := by
  rw [encode_eq_flatMap, String.toList_append, List.flatMap_append, ← encode_eq_flatMap,
    ← encode_eq_flatMap]

/-- An octet of seven bits is a character of its own, and no part of another one. -/
theorem mem_utf8EncodeChar_iff (h : octet.toNat < 0x80) :
    octet ∈ utf8EncodeChar c ↔ c.toNat = octet.toNat := by
  have hne {n : Nat} (hlow : 0x80 ≤ n) (hhigh : n < 0x100) : octet ≠ UInt8.ofNat n := by
    rintro rfl
    rw [toNat_octetOfNat hhigh] at h
    omega
  by_cases hone : c.toNat < 0x80
  · rw [encode_one hone, List.mem_singleton, ← UInt8.toNat_inj, toNat_octetOfNat (by omega)]
    exact eq_comm
  · refine iff_of_false ?_ (by omega)
    have hlast := hne (n := c.toNat % 64 + 128) (by omega) (by omega)
    have hthird := hne (n := c.toNat / 64 % 64 + 128) (by omega) (by omega)
    have hsecond := hne (n := c.toNat / 4096 % 64 + 128) (by omega) (by omega)
    have htwo := hne (n := c.toNat / 64 % 32 + 192) (by omega) (by omega)
    have hthree := hne (n := c.toNat / 4096 % 16 + 224) (by omega) (by omega)
    have hfour := hne (n := c.toNat / 262144 % 8 + 240) (by omega) (by omega)
    by_cases hlow : c.toNat < 0x800
    · rw [encode_two (by omega) hlow]
      simp only [List.mem_cons, List.not_mem_nil, htwo, hlast, or_self, not_false_eq_true]
    by_cases hmiddle : c.toNat < 0x10000
    · rw [encode_three (by omega) hmiddle]
      simp only [List.mem_cons, List.not_mem_nil, hthree, hthird, hlast, or_self,
        not_false_eq_true]
    · rw [encode_four (by omega)]
      simp only [List.mem_cons, List.not_mem_nil, hfour, hsecond, hthird, hlast, or_self,
        not_false_eq_true]

theorem mem_encode_iff {text : String} (h : octet.toNat < 0x80) :
    octet ∈ encode text ↔ Char.ofNat octet.toNat ∈ text.toList := by
  have hchar : (Char.ofNat octet.toNat).toNat = octet.toNat := toNat_of_eq rfl (.inl (by omega))
  simp only [encode_eq_flatMap, List.mem_flatMap, mem_utf8EncodeChar_iff h]
  constructor
  · rintro ⟨c, hc, heq⟩
    rwa [← heq, ← eq_charOfNat rfl]
  · exact fun hc => ⟨_, hc, hchar⟩

theorem map_shown_of_strictChars {ps : List Piece} (h : strictChars index ps = .ok cs) :
    ps.map Piece.shown = cs := by
  induction ps generalizing index cs with
  | nil => exact Except.ok.inj h
  | cons piece others ih =>
    cases piece with
    | char c size =>
      obtain ⟨rest, hrest, rfl⟩ := strictChars_char_iff.mp h
      rw [List.map_cons, ih hrest]
      rfl
    | illFormed size => cases h
    | incomplete size => cases h

/-- What is UTF-8 is shown as it is. -/
theorem decodeLossy_encode (text : String) : decodeLossy (encode text) = text := by
  have hread : decode (encode text) = .ok text := decode_eq_ok_iff.mpr rfl
  unfold decode at hread
  cases hchars : strictChars 0 (pieces none (encode text)) with
  | ok chars =>
    rw [hchars] at hread
    rw [decodeLossy, shownText, map_shown_of_strictChars hchars]
    exact Except.ok.inj hread
  | error fault =>
    rw [hchars] at hread
    cases hread

end EventRules.Encoding.Utf8
