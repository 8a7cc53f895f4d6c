import EventRules.Json.Printer
import EventRules.Json.Token
import Mathlib.Data.List.Basic

/-! Quoted texts are read back: every escape gives its character, and the closing quote ends the
text. So a text has one quoted form, and no other text has it. -/
namespace EventRules.Json

theorem hexValue?_hexDigit : ∀ n < 16, hexValue? (hexDigit n) = some n := by decide

theorem scanUnit_hexDigit {n : Nat} (h : n < 0x20) (rest : List Char) :
    scanUnit ('0' :: '0' :: hexDigit (n / 16) :: hexDigit (n % 16) :: rest) = .ok (n, rest) := by
  have hzero : hexValue? '0' = some 0 := rfl
  have hhigh := hexValue?_hexDigit (n / 16) (by omega)
  have hlow := hexValue?_hexDigit (n % 16) (by omega)
  have hn : ((0 * 16 + 0) * 16 + n / 16) * 16 + n % 16 = n := by omega
  simp only [scanUnit, hzero, hhigh, hlow, hn]

theorem scanEscape_control {c : Char} (h : c.toNat < 0x20) (rest : List Char) :
    scanEscape ('u' :: '0' :: '0' :: hexDigit (c.toNat / 16) :: hexDigit (c.toNat % 16) :: rest) =
      .ok (c, rest) := by
  unfold scanEscape scanEscapedChar
  dsimp only
  rw [if_pos rfl, scanUnit_hexDigit h]
  dsimp only
  rw [if_neg (by omega), if_neg (by omega), Char.ofNat_toNat]

theorem scanEscape_simple {letter c : Char} (h : simpleEscape? letter = some c) (hu : letter ≠ 'u')
    (rest : List Char) : scanEscape ([letter] ++ rest) = .ok (c, rest) := by
  rw [List.singleton_append, scanEscape, if_neg hu, h]

/-- A character is escaped so that it is read again, or it stands for itself. -/
theorem escapeChar_cases (c : Char) :
    (∃ code, escapeChar c = '\\' :: code ∧ ∀ rest, scanEscape (code ++ rest) = .ok (c, rest)) ∨
      escapeChar c = [c] ∧ c ≠ '"' ∧ c ≠ '\\' ∧ ¬ c.toNat < 0x20 := by
  unfold escapeChar
  by_cases hquote : c = '"'
  · rw [if_pos hquote]
    exact .inl ⟨['"'], rfl, scanEscape_simple (by rw [hquote]; rfl) (by decide)⟩
  rw [if_neg hquote]
  by_cases hslash : c = '\\'
  · rw [if_pos hslash]
    exact .inl ⟨['\\'], rfl, scanEscape_simple (by rw [hslash]; rfl) (by decide)⟩
  rw [if_neg hslash]
  by_cases hline : c = '\n'
  · rw [if_pos hline]
    exact .inl ⟨['n'], rfl, scanEscape_simple (by rw [hline]; rfl) (by decide)⟩
  rw [if_neg hline]
  by_cases hreturn : c = '\r'
  · rw [if_pos hreturn]
    exact .inl ⟨['r'], rfl, scanEscape_simple (by rw [hreturn]; rfl) (by decide)⟩
  rw [if_neg hreturn]
  by_cases htab : c = '\t'
  · rw [if_pos htab]
    exact .inl ⟨['t'], rfl, scanEscape_simple (by rw [htab]; rfl) (by decide)⟩
  rw [if_neg htab]
  by_cases hback : c.toNat = 0x08
  · have hc : simpleEscape? 'b' = some c := by rw [← Char.ofNat_toNat c, hback]; rfl
    rw [if_pos hback]
    exact .inl ⟨['b'], rfl, scanEscape_simple hc (by decide)⟩
  rw [if_neg hback]
  by_cases hfeed : c.toNat = 0x0C
  · have hc : simpleEscape? 'f' = some c := by rw [← Char.ofNat_toNat c, hfeed]; rfl
    rw [if_pos hfeed]
    exact .inl ⟨['f'], rfl, scanEscape_simple hc (by decide)⟩
  rw [if_neg hfeed]
  by_cases hcontrol : c.toNat < 0x20
  · rw [if_pos hcontrol]
    exact .inl ⟨_, rfl, fun rest => scanEscape_control hcontrol rest⟩
  · rw [if_neg hcontrol]
    exact .inr ⟨rfl, hquote, hslash, hcontrol⟩

theorem scanText_escaped (done cs rest : List Char) :
    scanText done (cs.flatMap escapeChar ++ '"' :: rest) =
      .ok (String.ofList (done.reverse ++ cs), rest) := by
  induction cs generalizing done with
  | nil =>
    unfold scanText
    simp
  | cons c cs ih =>
    rw [List.flatMap_cons]
    rcases escapeChar_cases c with ⟨code, hcode, hscan⟩ | ⟨hself, hquote, hslash, hcontrol⟩
    · rw [hcode, List.append_assoc, List.cons_append, scanText, if_neg (by decide), if_pos rfl]
      split
      next plain after heq =>
        obtain ⟨rfl, rfl⟩ := Prod.mk.inj (Except.ok.inj ((hscan _).symm.trans heq))
        rw [ih]
        simp
      next fault heq => cases (hscan _).symm.trans heq
    · rw [hself, List.append_assoc, List.singleton_append, scanText, if_neg hquote, if_neg hslash,
        if_neg hcontrol, ih]
      simp

/-- Different texts are quoted in different ways. -/
theorem quote_injective : Function.Injective quote := by
  intro s t h
  have hlist (u : String) : (quote u).toList = '"' :: (u.toList.flatMap escapeChar ++ ['"']) := by
    simp [quote]
  have hescaped := congrArg String.toList h
  rw [hlist, hlist] at hescaped
  have hread := congrArg (scanText []) (List.cons.inj hescaped).2
  rw [scanText_escaped, scanText_escaped] at hread
  simpa using hread

end EventRules.Json
