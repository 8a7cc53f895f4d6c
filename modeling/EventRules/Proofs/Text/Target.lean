import EventRules.Proofs.Text.Seam

/-! Targets and references. What is left of a target once its decoration is stripped is trimmed, so
that some expression references it just when it is not empty and has no closing brace. It is then
referenced wherever it stands decorated, unless a reference that begins before swallows it. -/
namespace EventRules.Text

variable {f : String}

theorem exists_references_iff (h : Trimmed f.toList) :
    (∃ expression, references [expression] f) ↔ f ≠ "" ∧ '}' ∉ f.toList := by
  constructor
  · rintro ⟨expression, hf⟩
    have hmem : f ∈ referencedFields expression := by simpa using references_iff.mp hf
    exact ⟨(referable_of_mem hmem).ne_empty, (referable_of_mem hmem).no_brace⟩
  · rintro ⟨hne, hbrace⟩
    refine ⟨decorate f, references_iff.mpr ?_⟩
    simp [referencedFields_decorate ⟨hne, h, hbrace⟩]

namespace ReferenceScan

variable {s : ReferenceScan} {cs : List Char}

/-- A reference that is being read began with an opening pair. -/
theorem between_of_no_pair (h : ¬ ['$', '{'] <:+: cs) : (outside.after cs).Between := by
  obtain ⟨before, hcs, -⟩ := exists_pending cs
  cases hs : outside.after cs with
  | outside => trivial
  | dollar => trivial
  | inside path =>
    rw [hs] at hcs
    exact absurd ⟨before, path.reverse, by simp [hcs, pending]⟩ h

theorem paths_of_no_pair (h : ¬ ['$', '{'] <:+: cs) : outside.paths cs = [] := by
  induction cs using List.reverseRecOn with
  | nil => rfl
  | append_singleton cs c ih =>
    have hfront : ¬ ['$', '{'] <:+: cs := fun hcs => h (hcs.trans (List.infix_append' [] cs [c]))
    have hbetween := between_of_no_pair hfront
    rw [paths_append, ih hfront, List.nil_append, paths_cons]
    cases hs : outside.after cs with
    | outside => rfl
    | dollar => rfl
    | inside path =>
      rw [hs] at hbetween
      exact absurd hbetween id

theorem Between.paths_open (h : s.Between) (cs : List Char) :
    s.paths ('$' :: '{' :: cs) = (inside []).paths cs := by
  cases s with
  | outside => rfl
  | dollar => rfl
  | inside path => exact absurd h id

end ReferenceScan

open ReferenceScan

theorem referencedFields_append_decorate (h : Referable f) {front : String}
    (hfront : ¬ ['$', '{'] <:+: front.toList) (back : String) :
    referencedFields (front ++ decorate f ++ back) = f :: referencedFields back := by
  have htext : (front ++ decorate f ++ back).toList =
      front.toList ++ '$' :: '{' :: (f.toList ++ '}' :: back.toList) := by
    simp [decorate]
  have hpaths : outside.paths (front ++ decorate f ++ back).toList =
      f.toList :: outside.paths back.toList := by
    rw [htext, paths_append, paths_of_no_pair hfront,
      (between_of_no_pair hfront).paths_open, paths_inside [] _ h.no_brace]
    rfl
  have hname : trimChars f.toList = f.toList := trimChars_eq_self h.trimmed
  have hne : trimChars f.toList ≠ [] := by simpa [hname] using h.ne_empty
  rw [referencedFields_eq, hpaths, names_cons_of_not_blank hne, hname, String.ofList_toList,
    referencedFields_eq]

/-- Which stripped targets are referenced at all, and that such a target is referenced where it is
decorated, behind any text without an opening pair and before any other text. -/
theorem stripped_target_exact (target : String) :
    ((∃ expression, references [expression] (stripField target)) ↔
        stripField target ≠ "" ∧ '}' ∉ (stripField target).toList) ∧
      ((∃ expression, references [expression] (stripField target)) →
        ∀ front back : String, ¬ ['$', '{'] <:+: front.toList →
          referencedFields (front ++ decorate (stripField target) ++ back) =
            stripField target :: referencedFields back) := by
  have htrimmed := trimmed_stripField target
  refine ⟨exists_references_iff htrimmed, fun h front back hfront => ?_⟩
  obtain ⟨hne, hbrace⟩ := (exists_references_iff htrimmed).mp h
  exact referencedFields_append_decorate ⟨hne, htrimmed, hbrace⟩ hfront back

/-- A target with an opening pair within its decoration, behind a dollar sign and a brace. -/
theorem stripped_target_exact_nested :
    let target := String.ofList [' ', '$', '{', '\u00a0', 'a', '$', '{', 'b', ' ', '}']
    let front := String.ofList ['x', '}', '$']
    (∃ expression, references [expression] (stripField target)) ∧
      ¬ ['$', '{'] <:+: front.toList ∧
      referencedFields (front ++ decorate (stripField target) ++ "${ c }") =
        [String.ofList ['a', '$', '{', 'b'], "c"] := by
  intro target front
  have hstrip : stripField target = String.ofList ['a', '$', '{', 'b'] := by decide +kernel
  have hread : ∃ expression, references [expression] (stripField target) :=
    (stripped_target_exact target).1.mpr (by rw [hstrip]; decide +kernel)
  have hfront : ¬ ['$', '{'] <:+: front.toList := by decide +kernel
  have hback : referencedFields "${ c }" = ["c"] := by decide +kernel
  have h := (stripped_target_exact target).2 hread front "${ c }" hfront
  rw [hback] at h
  exact ⟨hread, hfront, by rw [h, hstrip]⟩

end EventRules.Text
