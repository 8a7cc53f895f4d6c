import EventRules.Proofs.Action.Tables

/-! The sentinel among the values of a concatenation. The values are joined first, and the sentinel
is read in the joined text as a whole: a value that is the sentinel stays in it as two quotes, and
two values that are a quote each are taken for the sentinel when nothing else is joined to them. -/
namespace EventRules

variable {values : List String}

theorem join_filter_ne_empty (values : List String) :
    String.join (values.filter (· ≠ "")) = String.join values := by
  induction values with
  | nil => rfl
  | cons v rest ih => by_cases hv : v = "" <;> simp_all

/-- Reading the values one by one leaves out the two quotes of each that is the sentinel. -/
theorem length_join_unquoted (values : List String) :
    (String.join (values.map unquoteEmpty)).length + 2 * values.count emptySentinel =
      (String.join values).length := by
  induction values with
  | nil => rfl
  | cons v rest ih =>
    rw [List.map_cons, String.join_cons, String.length_append, List.count_cons, String.join_cons,
      String.length_append]
    by_cases hv : v = emptySentinel
    · have hlength : emptySentinel.length = 2 := rfl
      simp only [hv, unquoteEmpty, if_pos, String.length_empty, beq_self_eq_true]
      omega
    · simp only [unquoteEmpty_of_ne hv, beq_iff_eq, hv, if_false]
      omega

theorem map_unquoteEmpty_of_notMem (h : emptySentinel ∉ values) :
    values.map unquoteEmpty = values := by
  have hsame : ∀ v ∈ values, unquoteEmpty v = v := fun v hv =>
    unquoteEmpty_of_ne (ne_of_mem_of_not_mem hv h)
  rw [List.map_congr_left hsame, List.map_id']

/-- Texts that are not empty give two quotes only as a quote each, if they are two or more. -/
theorem eq_quotes_of_join (hne : ∀ v ∈ values, v ≠ "") (htwo : 2 ≤ values.length)
    (h : String.join values = emptySentinel) : values = ["\"", "\""] := by
  match values with
  | u :: v :: rest =>
    have hcons : ∀ w ∈ u :: v :: rest, ∃ c cs, w.toList = c :: cs := fun w hw =>
      List.exists_cons_of_ne_nil (by simpa using hne w hw)
    obtain ⟨c, cs, hu⟩ := hcons u (by simp)
    obtain ⟨d, ds, hv⟩ := hcons v (by simp)
    -- of the two characters the first two texts have one each, and nothing is left for the rest
    have hchars := congrArg String.toList h
    simp only [String.toList_join, List.flatMap_cons, hu, hv, emptySentinel] at hchars
    obtain ⟨rfl, rfl, rfl, rfl, hrest⟩ : c = '"' ∧ cs = [] ∧ d = '"' ∧ ds = [] ∧
        ∀ w ∈ rest, w = "" := by
      simpa [List.append_eq_singleton_iff] using hchars
    have hnil : rest = [] := List.eq_nil_iff_forall_not_mem.mpr fun w hw =>
      hne w (by simp [hw]) (hrest w hw)
    rw [hnil, String.toList_inj.mp (hu.trans rfl : u.toList = "\"".toList),
      String.toList_inj.mp (hv.trans rfl : v.toList = "\"".toList)]

section Filled

variable (htwo : 2 ≤ (values.filter isFilled).length)
include htwo

/-- Where two values or more are filled, the joined text is the sentinel only as two quotes that are
values of their own. -/
theorem join_eq_sentinel_iff : String.join values = emptySentinel ↔
    values.filter (· ≠ "") = ["\"", "\""] := by
  constructor
  · intro h
    rw [← join_filter_ne_empty] at h
    refine eq_quotes_of_join (by simp) (htwo.trans ?_) h
    exact (List.monotone_filter_right values fun v hv => by
      simpa using isFilled_ne_empty hv).length_le
  · intro h
    rw [← join_filter_ne_empty, h]
    rfl

theorem join_ne_sentinel_of_mem (h : emptySentinel ∈ values) :
    String.join values ≠ emptySentinel := by
  rw [ne_eq, join_eq_sentinel_iff htwo]
  intro hquotes
  have hmem : emptySentinel ∈ values.filter (· ≠ "") :=
    List.mem_filter.mpr ⟨h, by simp [emptySentinel]⟩
  rw [hquotes] at hmem
  simp [emptySentinel] at hmem

/-- Reading the sentinel in the joined text is joining the values as they are read, just when none
of them is the sentinel and they do not come to two quotes. -/
theorem unquoteEmpty_join_iff :
    unquoteEmpty (String.join values) = String.join (values.map unquoteEmpty) ↔
      emptySentinel ∉ values ∧ values.filter (· ≠ "") ≠ ["\"", "\""] := by
  by_cases hmem : emptySentinel ∈ values
  · rw [unquoteEmpty_of_ne (join_ne_sentinel_of_mem htwo hmem)]
    have hlength := length_join_unquoted values
    have hcount := List.count_pos_iff.mpr hmem
    constructor
    · intro hsame
      -- read by itself, each sentinel makes the join two characters shorter
      rw [← hsame] at hlength
      omega
    · exact fun h => absurd hmem h.1
  · rw [map_unquoteEmpty_of_notMem hmem, ne_eq, ← join_eq_sentinel_iff htwo]
    constructor
    · intro hsame
      exact ⟨hmem, fun hjoin => unquoteEmpty_ne_sentinel _ (hsame.trans hjoin)⟩
    · exact fun h => unquoteEmpty_of_ne h.2

end Filled

namespace Action

variable {a : Action} {source : Source}

/-- An accepted concatenation assigns to its target the joined values, with the sentinel read in the
joined text. That is the join of its values as they are read just when none of them is the sentinel
and they do not come to two quotes; if one is the sentinel, the joined text is assigned as it is. -/
theorem concat_sentinels_exact (h : a.check.accepts) (heffect : a.effect = .concat source) :
    ∃ p, a.processor = .ok p ∧
      p.toJson.unquote.member? "updates" =
        some (.object [(a.target, .text (unquoteEmpty source.joined))]) ∧
      (unquoteEmpty source.joined = String.join (source.values.map unquoteEmpty) ↔
        emptySentinel ∉ source.values ∧ source.values.filter (· ≠ "") ≠ ["\"", "\""]) ∧
      (emptySentinel ∈ source.values → unquoteEmpty source.joined = source.joined) := by
  have htwo : 2 ≤ (source.values.filter isFilled).length := by
    have heff := checkEffect_of_accepts h
    rw [checkEffect, heffect, Check.accepts_require] at heff
    simpa using heff
  obtain ⟨hne, hsentinel⟩ := target_of_accepts h (by rw [kind, heffect]; rfl)
  have hkeys : Json.FilledKeys [(a.target, source.joined)] := ⟨by simp, by simpa using hne.symm⟩
  refine ⟨.set [(a.target, source.joined)], by rw [processor, heffect], ?_,
    unquoteEmpty_join_iff htwo, fun hmem => unquoteEmpty_of_ne (join_ne_sentinel_of_mem htwo hmem)⟩
  rw [Processor.member?_unquote]
  change some (Processor.tableToJson [(a.target, source.joined)]).unquote = _
  rw [Processor.tableToJson, hkeys.unquote_object]
  simp [unquoteEmpty_of_ne hsentinel]

/-- An empty value, and a quote beside a text. -/
theorem concat_sentinels_exact_quote :
    let a : Action := .concat "X" ["", "\"", "${b}"]
    a.check.accepts ∧ ∃ p, a.processor = .ok p ∧
      p.toJson.unquote.member? "updates" = some (.object [("X", .text "\"${b}")]) ∧
      String.join (a.sources.map unquoteEmpty) = "\"${b}" := by
  intro a
  have h : a.check.accepts := by decide +kernel
  obtain ⟨p, hp, hupdates, hsame, -⟩ := concat_sentinels_exact h rfl
  have hread := hsame.mpr (by decide +kernel)
  have hjoined : String.join (a.sources.map unquoteEmpty) = "\"${b}" := by decide +kernel
  exact ⟨h, p, hp, hjoined ▸ hread ▸ hupdates, hjoined⟩

/-- A value that is the sentinel is left in the document as two quotes, and two values that are a
quote each are taken for it. -/
theorem sentinel_left_in_join :
    let a : Action := .concat "X" ["\"\"", "a"]
    let b : Action := .concat "X" ["\"", "\""]
    a.check.accepts ∧ b.check.accepts ∧
      (∃ p, a.processor = .ok p ∧
        p.toJson.unquote.member? "updates" = some (.object [("X", .text "\"\"a")]) ∧
        String.join (a.sources.map unquoteEmpty) = "a") ∧
      ∃ p, b.processor = .ok p ∧
        p.toJson.unquote.member? "updates" = some (.object [("X", .text "")]) ∧
        String.join (b.sources.map unquoteEmpty) = "\"\"" := by
  intro a b
  have hread : ∀ joined : String,
      (Processor.set [("X", joined)]).toJson.unquote.member? "updates" =
        some (.object [("X", .text (unquoteEmpty joined))]) := by
    intro joined
    have hkeys : Json.FilledKeys [("X", joined)] := ⟨by simp, by simp⟩
    rw [Processor.member?_unquote]
    change some (Processor.tableToJson [("X", joined)]).unquote = _
    rw [Processor.tableToJson, hkeys.unquote_object]
    simp [unquoteEmpty, emptySentinel]
  refine ⟨by decide +kernel, by decide +kernel, ⟨_, rfl, hread _, by decide +kernel⟩,
    _, rfl, hread _, by decide +kernel⟩

end Action

end EventRules
