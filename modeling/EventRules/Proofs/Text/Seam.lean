import EventRules.Proofs.Text.Reference
import Mathlib.Data.List.Count

/-! References in a text that is joined from pieces. The scan of a piece goes as the scan of the
whole does there, but for a reference that a seam cuts: the whole has it, and the pieces at most
have what begins within it. A path that is not blank weighs more than what begins within it, so that
the references of the whole are those of the pieces just when all that are cut have blank paths. -/
namespace EventRules.Text

namespace ReferenceScan

variable {s : ReferenceScan} {cs front back piece path : List Char} {c : Char}

/-- The state of the scan after some characters. -/
def after (s : ReferenceScan) (cs : List Char) : ReferenceScan :=
  cs.foldl (fun state c => (state.step c).1) s

@[simp] theorem after_nil : s.after [] = s := rfl

@[simp] theorem after_cons : s.after (c :: cs) = (s.step c).1.after cs := rfl

theorem after_append (s : ReferenceScan) (front back : List Char) :
    s.after (front ++ back) = (s.after front).after back := List.foldl_append

theorem after_concat (s : ReferenceScan) (cs : List Char) (c : Char) :
    s.after (cs ++ [c]) = ((s.after cs).step c).1 := after_append s cs [c]

theorem Clean.after (h : s.Clean) (cs : List Char) : (s.after cs).Clean := by
  induction cs generalizing s with
  | nil => exact h
  | cons c rest ih => exact ih (h.step c).1

theorem paths_cons (s : ReferenceScan) (c : Char) (cs : List Char) :
    s.paths (c :: cs) = (s.step c).2.toList ++ (s.step c).1.paths cs := by
  rw [paths]
  split
  next heq => simp [heq]
  next heq => simp [heq]

theorem paths_append (s : ReferenceScan) (front back : List Char) :
    s.paths (front ++ back) = s.paths front ++ (s.after front).paths back := by
  induction front generalizing s with
  | nil => rfl
  | cons c rest ih =>
    rw [List.cons_append, paths_cons, paths_cons, ih, List.append_assoc, after_cons]

/-- Only a closing brace closes a reference. -/
theorem step_snd_eq_none (h : c ≠ '}') : (s.step c).2 = none := by
  cases s <;> simp [step, h]

theorem paths_eq_nil (h : '}' ∉ cs) : s.paths cs = [] := by
  induction cs generalizing s with
  | nil => rfl
  | cons c rest ih =>
    simp only [List.mem_cons, not_or] at h
    rw [paths_cons, step_snd_eq_none (Ne.symm h.1), ih h.2]
    rfl

/-- No reference is being read. -/
def Between : ReferenceScan → Prop
  | .inside _ => False
  | _ => True

/-- What has been read of a reference so far. -/
def pending : ReferenceScan → List Char
  | .outside => []
  | .dollar => ['$']
  | .inside path => '$' :: '{' :: path.reverse

/-- A character ends what is pending, begins a reference, or continues the one that is pending. -/
theorem step_cases (s : ReferenceScan) (c : Char) :
    (s.step c).1 = outside ∨ ((s.step c).1 = dollar ∧ c = '$' ∧ s.Between) ∨
      (s.step c).1.pending = s.pending ++ [c] := by
  cases s with
  | outside => by_cases hc : c = '$' <;> simp [step, hc, Between]
  | dollar =>
    by_cases hopen : c = '{'
    · simp [step, hopen, pending]
    · by_cases hc : c = '$' <;> simp [step, hopen, hc, Between]
  | inside path => by_cases hc : c = '}' <;> simp [step, hc, pending]

/-- What is pending ends the text, and no reference was being read where it begins. -/
theorem exists_pending (cs : List Char) :
    ∃ before, cs = before ++ (outside.after cs).pending ∧ (outside.after before).Between := by
  induction cs using List.reverseRecOn with
  | nil => exact ⟨[], rfl, trivial⟩
  | append_singleton cs c ih =>
    obtain ⟨before, hcs, hbetween⟩ := ih
    rcases (outside.after cs).step_cases c with hnext | ⟨hnext, rfl, hs⟩ | hnext
    · rw [after_concat, hnext]
      exact ⟨cs ++ [c], (List.append_nil _).symm, by rw [after_concat, hnext]; trivial⟩
    · rw [after_concat, hnext]
      exact ⟨cs, rfl, hs⟩
    · rw [after_concat, hnext]
      exact ⟨before, by rw [← List.append_assoc, ← hcs], hbetween⟩

/-- The beginning of the text completes the reference that is pending. -/
def Completes (s : ReferenceScan) (cs path : List Char) : Prop :=
  s.pending ≠ [] ∧ '}' ∉ path ∧
    ∃ closed rest, cs = closed ++ '}' :: rest ∧ s.pending ++ closed = '$' :: '{' :: path

theorem paths_close (h : '}' ∉ cs) (rest : List Char) : outside.paths (cs ++ '}' :: rest) =
    outside.paths rest ∨ ∃ inner, '$' :: '{' :: inner <:+ cs ∧
      outside.paths (cs ++ '}' :: rest) = inner :: outside.paths rest := by
  rw [paths_append, paths_eq_nil h, List.nil_append, paths_cons]
  obtain ⟨before, hcs, -⟩ := exists_pending cs
  cases hs : outside.after cs with
  | outside => exact .inl rfl
  | dollar => exact .inl rfl
  | inside path =>
    rw [hs] at hcs
    exact .inr ⟨path.reverse, ⟨before, hcs.symm⟩, rfl⟩

/-- A reference that is pending and completed is the first one that the scan finds. A scan that
starts afresh finds nothing in its place, or a reference that begins within it. -/
theorem Completes.paths (h : s.Completes cs path) :
    ∃ others, s.paths cs = path :: others ∧
      (outside.paths cs = others ∨
        ∃ inner, '$' :: '{' :: inner <:+ path ∧ outside.paths cs = inner :: others) := by
  obtain ⟨hpending, hpath, closed, rest, rfl, hclosed⟩ := h
  refine ⟨outside.paths rest, ?_⟩
  cases s with
  | outside => exact absurd rfl hpending
  | dollar =>
    obtain rfl : closed = '{' :: path := by simpa [pending] using hclosed
    exact ⟨paths_inside [] rest hpath, paths_close hpath rest⟩
  | inside begun =>
    obtain rfl : begun.reverse ++ closed = path := by simpa [pending] using hclosed
    have hnone : '}' ∉ closed := fun hmem => hpath (List.mem_append_right _ hmem)
    refine ⟨paths_inside begun rest hnone, (paths_close hnone rest).imp_right ?_⟩
    rintro ⟨inner, hsuffix, hinner⟩
    exact ⟨inner, hsuffix.trans (List.suffix_append _ _), hinner⟩

theorem paths_inside_eq_outside (hclean : (inside path).Clean)
    (h : ∀ whole, ¬ (inside path).Completes cs whole) :
    (inside path).paths cs = outside.paths cs := by
  have hnone : '}' ∉ cs := by
    intro hmem
    obtain ⟨closed, rest, rfl, hclosed⟩ := List.eq_append_cons_of_mem hmem
    apply h (path.reverse ++ closed)
    refine ⟨List.cons_ne_nil _ _, ?_, closed, rest, rfl, rfl⟩
    rw [List.mem_append, List.mem_reverse]
    exact not_or.mpr ⟨hclean, hclosed⟩
  rw [paths_eq_nil hnone, paths_eq_nil hnone]

/-- Unless a reference that is pending is completed, it makes no difference for the scan. -/
theorem paths_eq_outside (hclean : s.Clean) (h : ∀ path, ¬ s.Completes cs path) :
    s.paths cs = outside.paths cs := by
  cases s with
  | outside => rfl
  | inside begun => exact paths_inside_eq_outside hclean h
  | dollar =>
    cases cs with
    | nil => rfl
    | cons c rest =>
      by_cases hc : c = '{'
      · have hrest : ∀ path, ¬ (inside []).Completes rest path := by
          rintro path ⟨-, hpath, closed, others, rfl, hclosed⟩
          apply h path
          rw [hc]
          exact ⟨List.cons_ne_nil _ _, hpath, '{' :: closed, others, rfl, hclosed⟩
        simpa [paths_cons, step, hc] using paths_inside_eq_outside List.not_mem_nil hrest
      · simp [paths_cons, step, hc]

theorem pending_step (hpending : s.pending ≠ []) (hpath : '}' ∉ path)
    (h : s.pending ++ c :: cs = '$' :: '{' :: path) :
    (s.step c).1.pending = s.pending ++ [c] := by
  cases s with
  | outside => exact absurd rfl hpending
  | dollar =>
    obtain ⟨rfl, -⟩ : c = '{' ∧ cs = path := by simpa [pending] using h
    rfl
  | inside begun =>
    obtain rfl : begun.reverse ++ c :: cs = path := by simpa [pending] using h
    have hc : c ≠ '}' := by
      rintro rfl
      exact hpath (List.mem_append_right _ List.mem_cons_self)
    simp [step, hc, pending]

/-- What continues the reference that is pending is pending then. -/
theorem pending_after (hpending : s.pending ≠ []) (hpath : '}' ∉ path)
    (h : s.pending ++ (front ++ back) = '$' :: '{' :: path) :
    (s.after front).pending = s.pending ++ front := by
  induction front generalizing s with
  | nil => simp
  | cons c front ih =>
    have hstep := pending_step hpending hpath h
    rw [after_cons, ih, hstep, List.append_assoc, List.singleton_append]
    · simp [hstep]
    · rw [hstep, List.append_assoc]
      exact h

theorem pending_of_between (hbetween : s.Between) (hfront : front ≠ []) (hpath : '}' ∉ path)
    (h : front ++ back = '$' :: '{' :: path) : (s.after front).pending = front := by
  cases front with
  | nil => exact absurd rfl hfront
  | cons c front =>
    obtain ⟨rfl, hrest⟩ := List.cons.inj h
    have hstep : (s.step '$').1 = dollar := by
      cases s with
      | inside begun => exact absurd hbetween id
      | _ => rfl
    rw [after_cons, hstep]
    exact pending_after (List.cons_ne_nil _ _) hpath h

/-- A reference that is pending before some pieces and ends in them is completed by one of them. -/
theorem exists_completes {pieces : List (List Char)} {closed rest : List Char}
    (hpending : s.pending ≠ []) (hpath : '}' ∉ path)
    (hpieces : pieces.flatten = closed ++ '}' :: rest)
    (hclosed : s.pending ++ closed = '$' :: '{' :: path) :
    ∃ front piece back, pieces = front ++ piece :: back ∧
      (s.after front.flatten).Completes piece path := by
  induction pieces generalizing s closed with
  | nil => simp at hpieces
  | cons piece pieces ih =>
    -- the reference ends in the pieces after the first one
    have hlater (left : List Char) (heq : closed = piece ++ left)
        (hleft : pieces.flatten = left ++ '}' :: rest) :
        ∃ front other back, piece :: pieces = front ++ other :: back ∧
          (s.after front.flatten).Completes other path := by
      have hafter : (s.after piece).pending = s.pending ++ piece :=
        pending_after hpending hpath (heq ▸ hclosed)
      have hne : (s.after piece).pending ≠ [] := by simp [hafter, hpending]
      obtain ⟨front, other, back, rfl, hcompletes⟩ := ih hne hleft
        (by rw [hafter, List.append_assoc, ← heq, hclosed])
      refine ⟨piece :: front, other, back, rfl, ?_⟩
      rwa [List.flatten_cons, after_append]
    rw [List.flatten_cons] at hpieces
    rcases List.append_eq_append_iff.mp hpieces with ⟨left, heq, hleft⟩ | ⟨left, heq, hleft⟩
    · exact hlater left heq hleft
    · cases left with
      | nil => exact hlater [] (by simpa using heq.symm) (by simpa using hleft.symm)
      | cons c left =>
        obtain ⟨rfl, -⟩ : '}' = c ∧ rest = left ++ pieces.flatten := by simpa using hleft
        exact ⟨[], piece, pieces, rfl, hpending, hpath, closed, left, heq, hclosed⟩

end ReferenceScan

open ReferenceScan

/-- In the text that is joined from the pieces, a seam cuts a reference with the path: it begins
before the seam, where no other one is being read, and its brace is behind. -/
inductive Cut : List (List Char) → List Char → Prop
  | intro {front back : List (List Char)} {before opened closed rest path : List Char}
      (hfront : front.flatten = before ++ opened) (hback : back.flatten = closed ++ '}' :: rest)
      (hbetween : (outside.after before).Between) (hopened : opened ≠ [])
      (hpath : opened ++ closed = '$' :: '{' :: path) (hbrace : '}' ∉ path) :
    Cut (front ++ back) path

variable {pieces front : List (List Char)} {piece path : List Char}

theorem cut_iff : Cut pieces path ↔ ∃ front piece back, pieces = front ++ piece :: back ∧
    (outside.after front.flatten).Completes piece path := by
  constructor
  · intro h
    cases h with
    | @intro front back before opened closed rest _ hfront hback hbetween hopened hpath hbrace =>
      have hpending : (outside.after front.flatten).pending = opened := by
        rw [hfront, after_append]
        exact pending_of_between hbetween hopened hbrace hpath
      obtain ⟨others, piece, last, rfl, hcompletes⟩ :=
        exists_completes (hpending ▸ hopened) hbrace hback (hpending ▸ hpath)
      refine ⟨front ++ others, piece, last, by simp, ?_⟩
      rwa [List.flatten_append, after_append]
  · rintro ⟨front, piece, back, rfl, hpending, hbrace, closed, rest, rfl, hpath⟩
    obtain ⟨before, hfront, hbetween⟩ := exists_pending front.flatten
    have hback : ((closed ++ '}' :: rest) :: back).flatten =
        closed ++ '}' :: (rest ++ back.flatten) := by simp
    exact .intro hfront hback hbetween hpending hpath hbrace

/-- The names under which paths are referenced: trimmed, the empty ones left out. -/
def names (paths : List (List Char)) : List String :=
  (paths.map fun path => String.ofList (trimChars path)).filter fun path => path ≠ ""

theorem referencedFields_eq (expression : String) :
    referencedFields expression = names (outside.paths expression.toList) := rfl

theorem names_append (paths others : List (List Char)) :
    names (paths ++ others) = names paths ++ names others := by
  rw [names, List.map_append, List.filter_append]
  rfl

theorem names_cons_of_blank (h : trimChars path = []) (paths : List (List Char)) :
    names (path :: paths) = names paths := by
  simp [names, h]

theorem names_cons_of_not_blank (h : trimChars path ≠ []) (paths : List (List Char)) :
    names (path :: paths) = String.ofList (trimChars path) :: names paths := by
  simp [names, h]

/-- A weight of names: a path is heavier than what begins within it. -/
def weight : List String → Nat
  | [] => 0
  | f :: fields => f.toList.count '$' + 1 + weight fields

theorem weight_append (fields others : List String) :
    weight (fields ++ others) = weight fields + weight others := by
  induction fields with
  | nil => rw [List.nil_append, weight, Nat.zero_add]
  | cons f fields ih =>
    rw [List.cons_append, weight, weight, ih]
    omega

theorem count_trimFront (cs : List Char) : (trimFront cs).count '$' = cs.count '$' := by
  conv_rhs => rw [← List.takeWhile_append_dropWhile (p := isBlankChar) (l := cs)]
  have hnone : '$' ∉ cs.takeWhile isBlankChar := fun h =>
    absurd (List.mem_takeWhile_imp h) (by decide)
  rw [List.count_append, List.count_eq_zero.mpr hnone, Nat.zero_add, trimFront]

theorem count_trimChars (cs : List Char) : (trimChars cs).count '$' = cs.count '$' := by
  rw [trimChars, trimBack, List.count_reverse, count_trimFront, List.count_reverse, count_trimFront]

theorem weight_names_cons_le (path : List Char) (paths : List (List Char)) :
    weight (names (path :: paths)) ≤ path.count '$' + 1 + weight (names paths) := by
  by_cases h : trimChars path = []
  · rw [names_cons_of_blank h]
    omega
  · rw [names_cons_of_not_blank h]
    simp [weight, count_trimChars]

theorem weight_names_cons (h : trimChars path ≠ []) (paths : List (List Char)) :
    weight (names (path :: paths)) = path.count '$' + 1 + weight (names paths) := by
  rw [names_cons_of_not_blank h]
  simp [weight, count_trimChars]

namespace ReferenceScan

variable {s : ReferenceScan} {cs : List Char}

/-- A blank path has no other reference within it. -/
theorem Completes.names_eq (h : s.Completes cs path) (hblank : trimChars path = []) :
    names (s.paths cs) = names (outside.paths cs) := by
  obtain ⟨others, hothers, hfresh | ⟨inner, hinner, -⟩⟩ := h.paths
  · rw [hothers, hfresh, names_cons_of_blank hblank]
  · have hdollar : isBlankChar '$' := trimChars_eq_nil_iff.mp hblank '$' (hinner.subset (by simp))
    exact absurd hdollar (by decide)

theorem Completes.weight_lt (h : s.Completes cs path) (hpath : trimChars path ≠ []) :
    weight (names (outside.paths cs)) < weight (names (s.paths cs)) := by
  obtain ⟨others, hothers, hfresh | ⟨inner, hinner, hfresh⟩⟩ := h.paths
  · rw [hothers, hfresh, weight_names_cons hpath]
    omega
  · have hcount : inner.count '$' + 1 ≤ path.count '$' := by
      simpa using hinner.sublist.count_le '$'
    have hle := weight_names_cons_le inner others
    rw [hothers, hfresh, weight_names_cons hpath]
    omega

theorem weight_le (hclean : s.Clean) (cs : List Char) :
    weight (names (outside.paths cs)) ≤ weight (names (s.paths cs)) := by
  by_cases h : ∃ path, s.Completes cs path
  · obtain ⟨path, hpath⟩ := h
    by_cases hblank : trimChars path = []
    · rw [hpath.names_eq hblank]
    · exact (hpath.weight_lt hblank).le
  · rw [paths_eq_outside hclean (not_exists.mp h)]

/-- When all references that are completed have blank paths, the whole has the names of its
pieces. -/
theorem names_flatten (hclean : s.Clean)
    (h : ∀ front piece back path, pieces = front ++ piece :: back →
      (s.after front.flatten).Completes piece path → trimChars path = []) :
    names (s.paths pieces.flatten) = pieces.flatMap fun piece => names (outside.paths piece) := by
  induction pieces generalizing s with
  | nil => rfl
  | cons piece pieces ih =>
    have hfirst : names (s.paths piece) = names (outside.paths piece) := by
      by_cases hcompletes : ∃ path, s.Completes piece path
      · obtain ⟨path, hpath⟩ := hcompletes
        exact hpath.names_eq (h [] piece pieces path rfl hpath)
      · rw [paths_eq_outside hclean (not_exists.mp hcompletes)]
    have hrest : ∀ front other back path, pieces = front ++ other :: back →
        ((s.after piece).after front.flatten).Completes other path → trimChars path = [] := by
      rintro front other back path rfl hpath
      refine h (piece :: front) other back path rfl ?_
      rwa [List.flatten_cons, after_append]
    rw [List.flatten_cons, paths_append, names_append, hfirst, ih (hclean.after piece) hrest,
      List.flatMap_cons]

theorem weight_flatten_le (hclean : s.Clean) (pieces : List (List Char)) :
    weight (pieces.flatMap fun piece => names (outside.paths piece)) ≤
      weight (names (s.paths pieces.flatten)) := by
  induction pieces generalizing s with
  | nil => exact Nat.zero_le _
  | cons piece pieces ih =>
    rw [List.flatMap_cons, weight_append, List.flatten_cons, paths_append, names_append,
      weight_append]
    exact Nat.add_le_add (weight_le hclean piece) (ih (hclean.after piece))

/-- A reference that is completed and has a path that is not blank makes the whole heavier. -/
theorem weight_flatten_lt (hclean : s.Clean)
    (h : (s.after front.flatten).Completes piece path) (hpath : trimChars path ≠ [])
    (back : List (List Char)) :
    weight ((front ++ piece :: back).flatMap fun piece => names (outside.paths piece)) <
      weight (names (s.paths (front ++ piece :: back).flatten)) := by
  have hfront := weight_flatten_le hclean front
  have hpiece := h.weight_lt hpath
  have hback := weight_flatten_le ((hclean.after front.flatten).after piece) back
  rw [List.flatMap_append, List.flatMap_cons, weight_append, weight_append, List.flatten_append,
    List.flatten_cons, paths_append, paths_append, names_append, names_append, weight_append,
    weight_append]
  omega

end ReferenceScan

/-- A joined text references what its pieces do, in the same order, just when every reference that a
seam cuts has a blank path. -/
theorem referencedFields_join_iff (values : List String) :
    referencedFields (String.join values) = values.flatMap referencedFields ↔
      ∀ path, Cut (values.map String.toList) path → ∀ c ∈ path, isBlankChar c := by
  have hclean : outside.Clean := trivial
  have hjoin : referencedFields (String.join values) =
      names (outside.paths (values.map String.toList).flatten) := by
    rw [referencedFields_eq, String.toList_join, List.flatMap_def]
  have hpieces : values.flatMap referencedFields =
      (values.map String.toList).flatMap fun piece => names (outside.paths piece) := by
    rw [List.flatMap_map]
    rfl
  simp only [← trimChars_eq_nil_iff]
  rw [hjoin, hpieces]
  constructor
  · intro hsame path hcut
    obtain ⟨front, piece, back, hsplit, hcompletes⟩ := cut_iff.mp hcut
    by_contra hpath
    have hlt := weight_flatten_lt hclean hcompletes hpath back
    rw [← hsplit, hsame] at hlt
    exact Nat.lt_irrefl _ hlt
  · intro hblank
    exact names_flatten hclean fun front piece back path hsplit hcompletes =>
      hblank path (cut_iff.mpr ⟨front, piece, back, hsplit, hcompletes⟩)

end EventRules.Text
