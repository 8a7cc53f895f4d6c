import EventRules.Text.Template
import Mathlib.Data.List.Forall2
import Mathlib.Data.List.TakeWhile
import Mathlib.Data.Nat.Digits.Defs

/-! Templates in fragments. There is just one way to cut a template into placeholders, each with all
the digits that follow its percent sign, and single characters, and it does not depend on the
arguments. Rendering writes what replaces the fragments, one after the other. -/
namespace EventRules.Text

/-- A part of a template. -/
inductive Fragment where
  | plain (c : Char)
  /-- A percent sign with the digits after it. -/
  | placeholder (digits : List Char)

/-- No digit comes next. -/
def NoDigit (rest : List Char) : Prop := ∀ d ∈ rest.head?, ¬ isDecimalDigit d

/-- A text is cut into placeholders, each as long as it can be, and the characters around them. -/
inductive Splits : List Char → List Fragment → Prop
  | nil : Splits [] []
  | plain {c : Char} {rest : List Char} {fragments : List Fragment} (hc : c = '%' → NoDigit rest)
    (h : Splits rest fragments) : Splits (c :: rest) (.plain c :: fragments)
  | placeholder {digits rest : List Char} {fragments : List Fragment} (hne : digits ≠ [])
    (hdigits : ∀ d ∈ digits, isDecimalDigit d) (hrest : NoDigit rest) (h : Splits rest fragments) :
    Splits ('%' :: (digits ++ rest)) (.placeholder digits :: fragments)

/-- The digits are those of ASCII, and the number is their decimal value. -/
def Denotes (digits : List Char) (n : Nat) : Prop :=
  (∀ d ∈ digits, d.isDigit) ∧
    Nat.ofDigits 10 (digits.reverse.map fun d => d.toNat - '0'.toNat) = n

/-- A placeholder that denotes the number of an argument, counted from one, is replaced by the
argument; any other placeholder, and any other character, by itself. -/
inductive Fragment.Replaced (arguments : List String) : Fragment → List Char → Prop
  | plain (c : Char) : Replaced arguments (.plain c) [c]
  | filled {digits : List Char} {n : Nat} {value : String} (hn : Denotes digits (n + 1))
    (hvalue : arguments[n]? = some value) :
    Replaced arguments (.placeholder digits) value.toList
  | kept {digits : List Char} (h : ∀ n, Denotes digits n → ¬ (1 ≤ n ∧ n ≤ arguments.length)) :
    Replaced arguments (.placeholder digits) ('%' :: digits)

variable {arguments : List String} {cs digits rest run out : List Char}
  {fragments others : List Fragment} {n : Nat}

theorem takeWhile_digits (hdigits : ∀ d ∈ digits, isDecimalDigit d) (hrest : NoDigit rest) :
    (digits ++ rest).takeWhile isDecimalDigit = digits := by
  have hnone : rest.takeWhile isDecimalDigit = [] := by
    cases rest with
    | nil => rfl
    | cons d rest => exact List.takeWhile_cons_of_neg (hrest d rfl)
  rw [List.takeWhile_append_of_pos hdigits, hnone, List.append_nil]

theorem noDigit_dropWhile (cs : List Char) : NoDigit (cs.dropWhile isDecimalDigit) := by
  intro d hd
  have hall := List.head?_dropWhile_not isDecimalDigit cs
  rw [hd] at hall
  simpa using hall

theorem not_noDigit_append (hne : digits ≠ []) (hdigits : ∀ d ∈ digits, isDecimalDigit d) :
    ¬ NoDigit (digits ++ rest) := by
  obtain ⟨d, digits, rfl⟩ := List.exists_cons_of_ne_nil hne
  exact fun h => h d rfl (hdigits d List.mem_cons_self)

theorem exists_splits (cs : List Char) : ∃ fragments, Splits cs fragments := by
  induction hlength : cs.length using Nat.strong_induction_on generalizing cs with
  | _ length ih =>
    subst hlength
    cases cs with
    | nil => exact ⟨[], .nil⟩
    | cons c rest =>
      by_cases hplain : c = '%' → NoDigit rest
      · obtain ⟨fragments, hfragments⟩ := ih rest.length (by simp) rest rfl
        exact ⟨_, .plain hplain hfragments⟩
      · obtain ⟨rfl, hdigit⟩ := Classical.not_imp.mp hplain
        have hsplit := List.takeWhile_append_dropWhile (p := isDecimalDigit) (l := rest)
        have hshorter : (rest.dropWhile isDecimalDigit).length < ('%' :: rest).length :=
          Nat.lt_succ_of_le (List.dropWhile_suffix _).length_le
        obtain ⟨fragments, hfragments⟩ := ih _ hshorter _ rfl
        have hne : rest.takeWhile isDecimalDigit ≠ [] := by
          intro hnil
          rw [hnil, List.nil_append] at hsplit
          exact hdigit (hsplit ▸ noDigit_dropWhile rest)
        have hfragment := Splits.placeholder hne (fun _ hd => List.mem_takeWhile_imp hd)
          (noDigit_dropWhile rest) hfragments
        rw [hsplit] at hfragment
        exact ⟨_, hfragment⟩

theorem Splits.unique (h : Splits cs fragments) (hother : Splits cs others) :
    others = fragments := by
  induction h generalizing others with
  | nil =>
    cases hother
    rfl
  | plain hc h ih =>
    cases hother with
    | plain _ hrest => rw [ih hrest]
    | placeholder hne hdigits => exact absurd (hc rfl) (not_noDigit_append hne hdigits)
  | @placeholder digits rest _ hne hdigits hend h ih =>
    generalize htext : '%' :: (digits ++ rest) = text at hother
    cases hother with
    | nil => cases htext
    | plain hc =>
      obtain ⟨rfl, rfl⟩ := List.cons.inj htext
      exact absurd (hc rfl) (not_noDigit_append hne hdigits)
    | @placeholder digits' rest' _ _ hdigits' hend' hrest =>
      have htail := (List.cons.inj htext).2
      have hsame := congrArg (List.takeWhile isDecimalDigit) htail
      rw [takeWhile_digits hdigits hend, takeWhile_digits hdigits' hend'] at hsame
      subst hsame
      obtain rfl := List.append_cancel_left htail
      rw [ih hrest]

theorem placeholderNumber_eq_some :
    placeholderNumber digits = some n ↔ Denotes digits n ∧ n < UInt64.size := by
  have hvalue : digits.foldl (fun total d => 10 * total + (d.toNat - '0'.toNat)) 0 =
      Nat.ofDigits 10 (digits.reverse.map fun d => d.toNat - '0'.toNat) := by
    rw [Nat.ofDigits_eq_foldr, List.foldr_map, List.foldr_reverse]
    simp only [Nat.cast_id, Nat.add_comm]
  unfold placeholderNumber Denotes
  rw [hvalue]
  grind

/-- What stands for a fragment in the output. -/
def Fragment.output (arguments : List String) : Fragment → List Char
  | .plain c => [c]
  | .placeholder digits => fillPlaceholder arguments digits

theorem fillPlaceholder_of_denotes {value : String} (hsize : arguments.length < UInt64.size)
    (hn : Denotes digits (n + 1)) (hvalue : arguments[n]? = some value) :
    fillPlaceholder arguments digits = value.toList := by
  have hlt : n < arguments.length := (List.getElem?_eq_some_iff.mp hvalue).1
  have hnumber : placeholderNumber digits = some (n + 1) :=
    placeholderNumber_eq_some.mpr ⟨hn, by omega⟩
  simp [fillPlaceholder, hnumber, hvalue]

theorem fillPlaceholder_of_not
    (h : ∀ n, Denotes digits n → ¬ (1 ≤ n ∧ n ≤ arguments.length)) :
    fillPlaceholder arguments digits = '%' :: digits := by
  unfold fillPlaceholder
  dsimp only
  split
  next n hnumber =>
    have hn := h _ (placeholderNumber_eq_some.mp hnumber).1
    rw [List.getElem?_eq_none (by omega)]
  next => rfl

/-- Each fragment has one replacement, and it is what is written for it. -/
theorem replaced_iff (hsize : arguments.length < UInt64.size) {fragment : Fragment} :
    fragment.Replaced arguments out ↔ out = fragment.output arguments := by
  constructor
  · rintro (c | ⟨hn, hvalue⟩ | h)
    · rfl
    · exact (fillPlaceholder_of_denotes hsize hn hvalue).symm
    · exact (fillPlaceholder_of_not h).symm
  · rintro rfl
    cases fragment with
    | plain c => exact .plain c
    | placeholder digits =>
      rw [Fragment.output]
      by_cases h : ∃ n, Denotes digits (n + 1) ∧ n < arguments.length
      · obtain ⟨n, hn, hlt⟩ := h
        have hvalue := List.getElem?_eq_getElem hlt
        rw [fillPlaceholder_of_denotes hsize hn hvalue]
        exact .filled hn hvalue
      · have hkept : ∀ n, Denotes digits n → ¬ (1 ≤ n ∧ n ≤ arguments.length) := by
          rintro n hn ⟨hpos, hle⟩
          obtain ⟨m, rfl⟩ := Nat.exists_eq_add_of_le' hpos
          exact h ⟨m, hn, hle⟩
        rw [fillPlaceholder_of_not hkept]
        exact .kept hkept

theorem renderChars_append_digits (hdigits : ∀ d ∈ digits, isDecimalDigit d) :
    renderChars arguments (some run) (digits ++ rest) =
      renderChars arguments (some (digits.reverse ++ run)) rest := by
  induction digits generalizing run with
  | nil => rfl
  | cons d digits ih =>
    obtain ⟨hd, hdigits⟩ := List.forall_mem_cons.mp hdigits
    rw [List.cons_append, renderChars, if_pos hd, ih hdigits]
    simp

/-- Where no digit follows, the placeholder that is being read ends. -/
theorem renderChars_of_noDigit (hrest : NoDigit rest) :
    renderChars arguments (some run) rest =
      fillPlaceholder arguments run.reverse ++ renderChars arguments none rest := by
  cases rest with
  | nil => simp [renderChars]
  | cons c rest => rw [renderChars, renderChars, if_neg (hrest c rfl)]

theorem Splits.renderChars_eq (h : Splits cs fragments) :
    renderChars arguments none cs = fragments.flatMap (Fragment.output arguments) := by
  induction h with
  | nil => rfl
  | @plain rest _ c hc h ih =>
    rw [List.flatMap_cons, ← ih, Fragment.output, renderChars]
    split
    next hpercent =>
      rw [renderChars_of_noDigit (hc hpercent), hpercent]
      rfl
    next => rfl
  | placeholder _ hdigits hrest h ih =>
    rw [List.flatMap_cons, ← ih, Fragment.output, renderChars, if_pos rfl,
      renderChars_append_digits hdigits, renderChars_of_noDigit hrest, List.append_nil,
      List.reverse_reverse]

theorem forall₂_replaced_iff (hsize : arguments.length < UInt64.size) {outs : List (List Char)} :
    List.Forall₂ (Fragment.Replaced arguments) fragments outs ↔
      outs = fragments.map (Fragment.output arguments) := by
  have hrel : Fragment.Replaced arguments =
      fun fragment out => fragment.output arguments = out := by
    funext fragment out
    exact propext ((replaced_iff hsize).trans eq_comm)
  rw [hrel, List.forall₂_map_left_iff.symm, List.forall₂_eq_eq_eq, eq_comm]

/-- A template is cut into fragments in one way, whatever the arguments are, and rendering replaces
the fragments one by one. There are no more arguments than a word of 64 bits can number. -/
theorem rendering_exact (template : String) :
    ∃ fragments, (∀ others, Splits template.toList others ↔ others = fragments) ∧
      ∀ arguments : List String, arguments.length < UInt64.size →
        ∀ rendered, renderTemplate template arguments = rendered ↔
          ∃ outs, List.Forall₂ (Fragment.Replaced arguments) fragments outs ∧
            rendered.toList = outs.flatten := by
  obtain ⟨fragments, hfragments⟩ := exists_splits template.toList
  refine ⟨fragments, fun others => ⟨hfragments.unique, fun h => h ▸ hfragments⟩, ?_⟩
  intro arguments hsize rendered
  simp only [forall₂_replaced_iff hsize, exists_eq_left, renderTemplate, hfragments.renderChars_eq]
  rw [← List.flatMap_def, ← String.toList_inj, String.toList_ofList, eq_comm]

/-- An argument that looks like a placeholder, a number with leading zeros, numbers that no argument
has, one of them beyond 64 bits, and a digit of another script. -/
theorem rendering_exact_rescanned :
    let template := "%1, %002, %0, %10, %18446744073709551617 and %1\u0661"
    let arguments := ["%2", "b"]
    let rendered := "%2, b, %0, %10, %18446744073709551617 and %1\u0661"
    arguments.length < UInt64.size ∧ renderTemplate template arguments = rendered ∧
      ∃ fragments outs, Splits template.toList fragments ∧
        List.Forall₂ (Fragment.Replaced arguments) fragments outs ∧
        rendered.toList = outs.flatten := by
  intro template arguments rendered
  have hsize : arguments.length < UInt64.size := by decide
  have hrendered : renderTemplate template arguments = rendered := by decide +kernel
  obtain ⟨fragments, hfragments, hrender⟩ := rendering_exact template
  obtain ⟨outs, houts, hflat⟩ := (hrender arguments hsize rendered).mp hrendered
  exact ⟨hsize, hrendered, fragments, outs, (hfragments fragments).mpr rfl, houts, hflat⟩

end EventRules.Text
