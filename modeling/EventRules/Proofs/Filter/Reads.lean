import EventRules.Proofs.Processor.Updates
import EventRules.Proofs.Rule.Translation

/-! What a condition reads and what its filter reads. The filter has every operand of the condition
but one kind: an operator on the presence of a field takes no right operands, the checks let them
stand, and the filter drops them. The order of rules sees them all the same. -/
namespace EventRules

open Check

namespace Filter

mutual

/-- The texts of a filter that are compared, from left to right. -/
def operands : Filter → List String
  | .group _ members => operandsOf members
  | .text _ subject value => [subject, value]
  | .single _ field value => [field, value]
  | .many _ field values => field :: values
  | .presence _ field => [field]

def operandsOf : List Filter → List String
  | [] => []
  | f :: rest => operands f ++ operandsOf rest

end

/-- The fields that the texts of the filter reference. -/
def reads (f : Filter) : List String := f.operands.flatMap Text.referencedFields

theorem operandsOf_eq (filters : List Filter) : operandsOf filters = filters.flatMap operands := by
  induction filters with
  | nil => rfl
  | cons f rest ih => rw [operandsOf, ih, List.flatMap_cons]

theorem mem_operands_group {kind : GroupKind} {members : List Filter} {s : String} :
    s ∈ (Filter.group kind members).operands ↔ ∃ m ∈ members, s ∈ m.operands := by
  rw [operands, operandsOf_eq, List.mem_flatMap]

/-- Dissolving nested groups of the same kind loses no text. -/
theorem mem_operands_collect {kind : GroupKind} {filters : List Filter} {s : String} :
    s ∈ (collect kind filters).operands ↔ ∃ f ∈ filters, s ∈ f.operands := by
  rw [collect, mem_operands_group]
  simp only [mem_collected]
  constructor
  · rintro ⟨m, ⟨hm, -⟩ | ⟨members, hgroup, hm⟩, hs⟩
    · exact ⟨m, hm, hs⟩
    · exact ⟨_, hgroup, mem_operands_group.mpr ⟨m, hm, hs⟩⟩
  · rintro ⟨f, hf, hs⟩
    cases hmembers : f.membersOf? kind with
    | none => exact ⟨f, .inl ⟨hf, hmembers⟩, hs⟩
    | some members =>
      obtain rfl := membersOf?_eq_some.mp hmembers
      obtain ⟨m, hm, hs⟩ := mem_operands_group.mp hs
      exact ⟨m, .inr ⟨members, hf, hm⟩, hs⟩

/-- A search for several values has the subject, and has the values. -/
theorem mem_operands_texts {op : Operator} {left : String} {right : List String} (h : right ≠ [])
    {s : String} : s ∈ (Filter.group .any (right.map (.text op left))).operands ↔
      s = left ∨ s ∈ right := by
  rw [mem_operands_group]
  simp only [List.mem_map, exists_exists_and_eq_and, operands, List.mem_cons, List.not_mem_nil,
    or_false]
  constructor
  · rintro ⟨value, hvalue, rfl | rfl⟩
    · exact .inl rfl
    · exact .inr hvalue
  · rintro (rfl | hs)
    · obtain ⟨value, hvalue⟩ := List.exists_mem_of_ne_nil right h
      exact ⟨value, hvalue, .inl rfl⟩
    · exact ⟨s, hs, .inr rfl⟩

end Filter

namespace Comparison

variable {c : Comparison} {op : Operator} {s : String}

/-- The right operands that stand under an operator that takes none. -/
def spare (c : Comparison) : List String :=
  if (c.operator?.map Operator.needsValues).getD true then [] else c.right

theorem right_ne_nil_of_accepts (h : c.check.accepts) (hop : c.operator? = some op)
    (hvalues : op.needsValues) : c.right ≠ [] := by
  have hfilled : c.rightFilled = true := by
    rw [check, accepts_all (by simp [built_require])] at h
    simpa using h (require c.rightFilled (.blankOperand .right)) (by simp)
  intro hnil
  simp [rightFilled, hop, hvalues, hnil] at hfilled

/-- The filter of a comparison has its left operand, and its right ones where the operator takes
any. -/
theorem mem_operands_filterWith (h : op.needsValues → c.right ≠ []) :
    s ∈ (c.filterWith op).operands ↔ s = c.left ∨ op.needsValues ∧ s ∈ c.right := by
  obtain ⟨label, left, name, right⟩ := c
  cases op with
  | contains | startsWith | endsWith =>
    rcases right with _ | ⟨value, _ | ⟨second, rest⟩⟩
    · exact absurd rfl (h rfl)
    · simp [filterWith, Operator.searchesText, Operator.needsValues, Filter.operands]
    · simp only [filterWith, Operator.searchesText, if_true, Operator.needsValues, true_and]
      exact Filter.mem_operands_texts (List.cons_ne_nil _ _)
  | assigned | unassigned =>
    simp [filterWith, Operator.searchesText, Operator.needsValues, Filter.operands]
  | oneOf | notOneOf =>
    simp [filterWith, Operator.searchesText, Operator.needsValues, Operator.alwaysMany,
      Filter.operands]
  | equals | notEqual =>
    rcases right with _ | ⟨value, _ | ⟨second, rest⟩⟩
    all_goals simp [filterWith, Operator.searchesText, Operator.needsValues, Operator.alwaysMany,
      Filter.operands]

theorem mem_sources_iff (h : c.check.accepts) (hop : c.operator? = some op) :
    s ∈ c.sources ↔ s ∈ (c.filterWith op).operands ∨ s ∈ c.spare := by
  rw [mem_operands_filterWith (right_ne_nil_of_accepts h hop), sources, List.mem_cons, spare, hop]
  cases hvalues : op.needsValues <;> simp [hvalues]

end Comparison

namespace Condition

mutual

/-- The right operands, from left to right, that stand under operators that take none. -/
def spare : Condition → List String
  | .group _ _ members => spareOf members
  | .comparison c => c.spare

def spareOf : List Condition → List String
  | [] => []
  | c :: rest => spare c ++ spareOf rest

end

/-- The fields that the operands of the condition reference. -/
def reads (c : Condition) : List String := c.sources.flatMap Text.referencedFields

/-- The fields that the operands without a use reference. -/
def spareReads (c : Condition) : List String := c.spare.flatMap Text.referencedFields

variable {s : String}

mutual

theorem mem_sources_iff {f : Filter} : (c : Condition) → c.check.accepts → c.filter = .ok f →
    (s ∈ c.sources ↔ s ∈ f.operands ∨ s ∈ c.spare)
  | .group label typeName members => fun h hf => by
    obtain ⟨kind, parts, -, hparts, rfl⟩ := filter_group_eq_ok.mp hf
    rw [Filter.mem_operands_collect, sources, spare]
    exact mem_sourcesOf_iff members (accepts_group.mp h).2.2 hparts
  | .comparison c => fun h hf => by
    rw [sources, spare]
    obtain ⟨op, hop⟩ := Option.isSome_iff_exists.mp (Comparison.operator?_isSome_of_accepts h)
    obtain rfl : c.filterWith op = f := by simpa [filter, Comparison.filter, hop] using hf
    exact Comparison.mem_sources_iff h hop

theorem mem_sourcesOf_iff {parts : List Filter} : (members : List Condition) →
    (∀ c ∈ members, c.check.accepts) → filters members = .ok parts →
      (s ∈ sourcesOf members ↔ (∃ f ∈ parts, s ∈ f.operands) ∨ s ∈ spareOf members)
  | [] => fun _ hparts => by
    obtain rfl : [] = parts := by simpa [filters] using hparts
    simp [sourcesOf, spareOf]
  | c :: rest => fun h hparts => by
    obtain ⟨first, others, hfirst, hothers, rfl⟩ := filters_cons_eq_ok.mp hparts
    obtain ⟨hc, hrest⟩ := List.forall_mem_cons.mp h
    rw [sourcesOf, List.mem_append, mem_sources_iff c hc hfirst,
      mem_sourcesOf_iff rest hrest hothers, spareOf, List.mem_append, List.exists_mem_cons_iff]
    exact or_or_or_comm

end

/-- What the operands of an accepted condition reference is what those of its filter reference and
what the operands without a use do. -/
theorem mem_reads_iff {c : Condition} {f : Filter} (h : c.check.accepts) (hf : c.filter = .ok f)
    {field : String} : field ∈ c.reads ↔ field ∈ f.reads ∨ field ∈ c.spareReads := by
  simp only [reads, spareReads, Filter.reads, List.mem_flatMap, mem_sources_iff c h hf]
  simp only [or_and_right, exists_or]

end Condition

/-- A rule with a condition depends on a rule of no other group that assigns to what its actions or
its condition read. -/
theorem Rule.dependsOn_iff_reads {r other : Rule} {c : Condition} (hc : r.condition = some c) :
    r.dependsOn other ↔ ¬ r.inOtherGroup other ∧
      ∃ a ∈ other.actions, a.field ∈ r.actions.flatMap Action.reads ∨ a.field ∈ c.reads := by
  have hsources (field : String) : Text.references r.sources field ↔
      field ∈ r.actions.flatMap Action.reads ∨ field ∈ c.reads := by
    have hreads : r.sources.flatMap Text.referencedFields =
        r.actions.flatMap Action.reads ++ c.reads := by
      rw [sources, hc, Option.map_some, Option.getD_some, List.flatMap_append, List.flatMap_assoc]
      rfl
    rw [← List.mem_append, ← hreads, Text.references_iff]
  simp only [dependsOn, Bool.and_eq_true, Bool.not_eq_true', Bool.not_eq_true, List.any_eq_true,
    hsources]

/-- An accepted condition has a filter, and a rule with it sees every field that the filter reads.
Besides these it sees the fields that right operands without a use reference, and no others: the two
have the same fields exactly when the filter reads these as well, and a rule depends on another by
an action, by the filter, or by an operand without a use. -/
theorem filter_reads_exact {c : Condition} (h : c.check.accepts) :
    ∃ f, c.filter = .ok f ∧
      (∀ field, field ∈ c.reads ↔ field ∈ f.reads ∨ field ∈ c.spareReads) ∧
      ((∀ field, field ∈ c.reads ↔ field ∈ f.reads) ↔ c.spareReads ⊆ f.reads) ∧
      ∀ r other : Rule, r.condition = some c → (r.dependsOn other ↔
        ¬ r.inOtherGroup other ∧ ∃ a ∈ other.actions, a.field ∈ r.actions.flatMap Action.reads ∨
          a.field ∈ f.reads ∨ a.field ∈ c.spareReads) := by
  obtain ⟨f, hf⟩ := Condition.exists_filter_of_accepts h
  have hreads (field : String) : field ∈ c.reads ↔ field ∈ f.reads ∨ field ∈ c.spareReads :=
    c.mem_reads_iff h hf
  refine ⟨f, hf, hreads, ⟨fun hsame field hspare => ?_, fun hsubset field => ?_⟩,
    fun r other hc => ?_⟩
  · exact (hsame field).mp ((hreads field).mpr (.inr hspare))
  · rw [hreads, or_iff_left_of_imp (@hsubset field)]
  · simp only [Rule.dependsOn_iff_reads hc, hreads]

/-- The operand without a use references a field that the filter reads too. -/
theorem filter_reads_exact_shared :
    let c := Condition.group {} "all" [.comparison ⟨{}, "${A}", "contains", ["${B}", "x"]⟩,
      .comparison ⟨{}, "${A}", "assigned", ["${B}"]⟩]
    c.check.accepts ∧ c.spareReads = ["B"] ∧
      ∃ f, c.filter = .ok f ∧ ∀ field, field ∈ c.reads ↔ field ∈ f.reads := by
  intro c
  have h : c.check.accepts := by decide +kernel
  have hspare : c.spareReads = ["B"] := by decide +kernel
  obtain ⟨f, hf, -, hsame, -⟩ := filter_reads_exact h
  refine ⟨h, hspare, f, hf, hsame.mpr ?_⟩
  obtain rfl := Except.ok.inj ((rfl : c.filter = .ok _).symm.trans hf)
  rw [hspare]
  decide +kernel

/-- A field that only an operand without a use references. The filter is the same without it, but
with it the rules depend on each other in a circle. -/
theorem spare_operand_read :
    let c (right : List String) : Condition := .comparison ⟨{}, "${A}", "assigned", right⟩
    let u (right : List String) : Rule :=
      { uid := "u", description := "d", condition := some (c right), actions := [.copy "Y" "1"] }
    let v : Rule := { uid := "v", description := "d", actions := [.copy "X" "${Y}"] }
    let s (right : List String) : RuleSet := { entries := [("u", u right), ("v", v)] }
    (c ["${X}"]).check.accepts ∧
      (∀ right, (c right).filter = .ok (.presence .assigned "${A}")) ∧
      "X" ∈ (c ["${X}"]).reads ∧ "X" ∉ (Filter.presence .assigned "${A}").reads ∧
      (s ["${X}"]).resolveRules = .error (.ruleCycle ["u", "v"] ["X", "Y"]) ∧
      ∃ t, (s []).resolveRules = .ok t := by
  intro c u v s
  have hop : Operator.ofName? "assigned" = some .assigned := by decide +kernel
  have hfilter (right : List String) : (c right).filter = .ok (.presence .assigned "${A}") := by
    simp only [c, Condition.filter, Comparison.filter, Comparison.operator?, hop]
    rfl
  exact ⟨by decide +kernel, hfilter, by decide +kernel, by decide +kernel,
    RuleSet.resolveRules_eq_error.mpr ⟨by decide +kernel, by decide +kernel⟩,
    _, RuleSet.resolveRules_eq_ok.mpr ⟨by decide +kernel, rfl⟩⟩

end EventRules
