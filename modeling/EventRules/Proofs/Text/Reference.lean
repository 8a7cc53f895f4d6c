import EventRules.Text.Reference
import EventRules.Proofs.Text.Blank

/-! What can be referenced. A path that is scanned has no closing brace, is trimmed and not empty;
and every such path is referenced by its decoration, which is stripped from it again. -/
namespace EventRules.Text

variable {cs : List Char} {f expression : String}

/-- No blank character is at an end. -/
structure Trimmed (cs : List Char) : Prop where
  front : ∀ c ∈ cs.head?, ¬ isBlankChar c
  back : ∀ c ∈ cs.getLast?, ¬ isBlankChar c

theorem trimFront_eq_self (h : ∀ c ∈ cs.head?, ¬ isBlankChar c) : trimFront cs = cs := by
  cases cs with
  | nil => rfl
  | cons c rest => simp [trimFront, List.dropWhile_cons_of_neg (h c rfl)]

theorem not_blank_of_mem_head?_trimFront {c : Char} (h : c ∈ (trimFront cs).head?) :
    ¬ isBlankChar c := by
  have hall := List.head?_dropWhile_not isBlankChar cs
  rw [← trimFront, h] at hall
  simpa using hall

theorem trimChars_eq_self (h : Trimmed cs) : trimChars cs = cs := by
  rw [trimChars, trimFront_eq_self h.front, trimBack, trimFront_eq_self, List.reverse_reverse]
  simpa using h.back

theorem exists_trimBack_append (cs : List Char) : ∃ rest, trimBack cs ++ rest = cs := by
  change trimBack cs <+: cs
  rw [← List.reverse_suffix, trimBack, List.reverse_reverse]
  exact List.dropWhile_suffix _

theorem trimmed_trimChars (cs : List Char) : Trimmed (trimChars cs) where
  front c hc := by
    obtain ⟨rest, hrest⟩ := exists_trimBack_append (trimFront cs)
    have hfront : c ∈ (trimFront cs).head? := by
      rw [← hrest, List.head?_append, ← trimChars, hc]
      rfl
    exact not_blank_of_mem_head?_trimFront hfront
  back c hc := by
    rw [trimChars, trimBack, List.getLast?_reverse] at hc
    exact not_blank_of_mem_head?_trimFront hc

theorem mem_of_mem_trimChars {c : Char} (h : c ∈ trimChars cs) : c ∈ cs := by
  obtain ⟨rest, hrest⟩ := exists_trimBack_append (trimFront cs)
  have hfront : c ∈ trimFront cs := by
    rw [← hrest]
    exact List.mem_append_left rest h
  exact (List.dropWhile_suffix _).subset hfront

namespace ReferenceScan

/-- The path that is being read has no closing brace so far. -/
def Clean : ReferenceScan → Prop
  | .inside path => '}' ∉ path
  | _ => True

theorem Clean.step {state : ReferenceScan} (h : state.Clean) (c : Char) :
    (state.step c).1.Clean ∧ ∀ path ∈ (state.step c).2, '}' ∉ path := by
  cases state with
  | outside => by_cases hc : c = '$' <;> simp [ReferenceScan.step, hc, Clean]
  | dollar =>
    by_cases hopen : c = '{'
    · simp [ReferenceScan.step, hopen, Clean]
    · by_cases hc : c = '$' <;> simp [ReferenceScan.step, hopen, hc, Clean]
  | inside path =>
    by_cases hc : c = '}'
    · simpa [ReferenceScan.step, hc, Clean] using h
    · simpa [ReferenceScan.step, hc, Clean, Ne.symm hc] using h

theorem Clean.paths {state : ReferenceScan} (h : state.Clean) {path : List Char}
    (hpath : path ∈ state.paths cs) : '}' ∉ path := by
  induction cs generalizing state with
  | nil => simp [ReferenceScan.paths] at hpath
  | cons c rest ih =>
    obtain ⟨hnext, hclosed⟩ := h.step c
    rw [ReferenceScan.paths] at hpath
    split at hpath
    next next closed heq =>
      rw [heq] at hnext hclosed
      rcases List.mem_cons.mp hpath with rfl | hpath
      · exact hclosed path rfl
      · exact ih hnext hpath
    next next heq =>
      rw [heq] at hnext
      exact ih hnext hpath

theorem paths_inside (path rest : List Char) (h : '}' ∉ cs) :
    (inside path).paths (cs ++ '}' :: rest) = (path.reverse ++ cs) :: outside.paths rest := by
  induction cs generalizing path with
  | nil => simp [paths, step]
  | cons c cs ih =>
    simp only [List.mem_cons, not_or] at h
    simp [paths, step, Ne.symm h.1, ih (c :: path) h.2]

end ReferenceScan

/-- A path that an expression can reference. -/
structure Referable (f : String) : Prop where
  ne_empty : f ≠ ""
  trimmed : Trimmed f.toList
  no_brace : '}' ∉ f.toList

theorem referable_of_mem (h : f ∈ referencedFields expression) : Referable f := by
  simp only [referencedFields, List.mem_filter, List.mem_map, decide_eq_true_eq] at h
  obtain ⟨⟨path, hpath, rfl⟩, hne⟩ := h
  have houtside : ReferenceScan.outside.Clean := trivial
  exact ⟨hne, by simpa using trimmed_trimChars path,
    by simpa using fun h => houtside.paths hpath (mem_of_mem_trimChars h)⟩

/-- Expressions reference a field when it is among the fields that one of them references. -/
theorem references_iff {expressions : List String} :
    references expressions f ↔ f ∈ expressions.flatMap referencedFields := by
  simp only [references, Bool.and_eq_true, decide_eq_true_eq, List.any_eq_true,
    List.contains_iff_mem, List.mem_flatMap]
  refine and_iff_right_of_imp ?_
  rintro ⟨e, -, h⟩
  exact (referable_of_mem h).ne_empty

/-- The path written as a reference. -/
def decorate (f : String) : String := String.ofList ('$' :: '{' :: (f.toList ++ ['}']))

theorem referencedFields_decorate (h : Referable f) : referencedFields (decorate f) = [f] := by
  have hpaths : ReferenceScan.outside.paths (decorate f).toList = [f.toList] := by
    simp [decorate, ReferenceScan.paths, ReferenceScan.step,
      ReferenceScan.paths_inside [] [] h.no_brace]
  simp [referencedFields, hpaths, trimChars_eq_self h.trimmed, h.ne_empty]

theorem trimmed_decorate (f : String) : Trimmed (decorate f).toList := by
  rw [decorate, String.toList_ofList]
  exact ⟨by simp; decide, by simp [List.getLast?_cons]; decide⟩

theorem stripField_decorate (h : Trimmed f.toList) : stripField (decorate f) = f := by
  have htrim := trimChars_eq_self (trimmed_decorate f)
  rw [decorate, String.toList_ofList] at htrim
  simp [stripField, stripChars, decorate, htrim, trimChars_eq_self h]

theorem isBlank_decorate (f : String) : isBlank (decorate f) = false := by
  have hdollar : isBlankChar '$' = false := by decide
  simp [isBlank, decorate, hdollar]

theorem trimmed_stripField (s : String) : Trimmed (stripField s).toList := by
  rw [stripField, String.toList_ofList, stripChars]
  have htrimmed := trimmed_trimChars s.toList
  split
  next rest heq =>
    split
    · exact trimmed_trimChars _
    · rwa [heq] at htrimmed
  next => exact htrimmed

end EventRules.Text
