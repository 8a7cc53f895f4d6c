import EventRules.Dependency.Resolution
import EventRules.Proofs.Dependency.Cycle

/-! What resolution decides: the actions of a rule and the rules of a ruleset are refused exactly
when they depend on each other in a circle, and a refusal names some field. -/
namespace EventRules

theorem Text.references_field_ne {sources : List String} {field : String}
    (h : Text.references sources field) : field ≠ "" := by
  simp only [Text.references, Bool.and_eq_true, decide_eq_true_eq] at h
  exact h.1

/-- A nonempty remainder holds a direct dependency. -/
theorem exists_depends_of_unresolvable {α : Type} {relation : α → α → Bool} {items : List α}
    (h : (DependencyGraph.ofItems relation items).unresolvable ≠ []) :
    ∃ i ∈ (DependencyGraph.ofItems relation items).unresolvable,
      ∃ j ∈ (DependencyGraph.ofItems relation items).unresolvable, Depends relation items i j := by
  obtain ⟨i, hi⟩ := List.exists_mem_of_ne_nil _ h
  obtain ⟨j, hij, hj⟩ := ((mem_unresolvable relation items i).mp hi).exists_dependency
  exact ⟨i, hi, j, (mem_unresolvable relation items j).mpr hj, hij⟩

namespace Rule

theorem resolveActions_eq_ok {r r1 : Rule} : r.resolveActions = .ok r1 ↔
    r.actionGraph.unresolvable = [] ∧
      r1 = { r with actions := pick r.actions r.actionGraph.order } := by
  cases hu : r.actionGraph.unresolvable with
  | nil => simp only [resolveActions, hu, Except.ok.injEq, true_and, eq_comm]
  | cons i rest => simp [resolveActions, hu]

theorem resolveActions_eq_error {r : Rule} {problem : Problem} :
    r.resolveActions = .error problem ↔ r.actionGraph.unresolvable ≠ [] ∧
      problem = .actionCycle
        (distinctFields ((pick r.actions r.actionGraph.unresolvable).map Action.field)) := by
  cases hu : r.actionGraph.unresolvable with
  | nil => simp [resolveActions, hu]
  | cons i rest =>
    simp only [resolveActions, hu, Except.error.injEq, ne_eq, reduceCtorEq, not_false_eq_true,
      true_and, eq_comm]

/-- The fields of a remainder of actions include the one that some of them reads. -/
theorem exists_field_of_unresolvable {actions : List Action}
    (h : (DependencyGraph.ofItems Action.dependsOn actions).unresolvable ≠ []) :
    ∃ f ∈ distinctFields ((pick actions
      (DependencyGraph.ofItems Action.dependsOn actions).unresolvable).map Action.field),
      f ≠ "" := by
  obtain ⟨i, -, j, hj, -, a, -, b, hb, hab⟩ := exists_depends_of_unresolvable h
  have hne : b.field ≠ "" := Text.references_field_ne hab
  have hmem : b ∈ pick actions (DependencyGraph.ofItems Action.dependsOn actions).unresolvable :=
    (mem_pick actions).mpr ⟨j, hj, hb⟩
  exact ⟨b.field, mem_distinctFields.mpr ⟨List.mem_map_of_mem hmem, hne⟩, hne⟩

theorem mem_fieldsReadFrom {r other : Rule} {f : String} : f ∈ r.fieldsReadFrom other ↔
    (∃ a ∈ other.actions, a.field = f) ∧ Text.references r.sources f := by
  simp [fieldsReadFrom]

theorem exists_field_of_dependsOn {r other : Rule} (h : r.dependsOn other) :
    ∃ f ∈ r.fieldsReadFrom other, f ≠ "" := by
  simp only [dependsOn, Bool.and_eq_true, List.any_eq_true] at h
  obtain ⟨-, a, ha, href⟩ := h
  exact ⟨a.field, mem_fieldsReadFrom.mpr ⟨⟨a, ha, rfl⟩, href⟩, Text.references_field_ne href⟩

/-- Two rules at different places of which one depends on the other give a field to name. -/
theorem exists_mem_cycleFields {rules : List Rule} {i j : ℕ}
    (h : Depends Rule.dependsOn rules i j) : ∃ f ∈ cycleFields rules, f ≠ "" := by
  cases hu :
    (DependencyGraph.ofItems Action.dependsOn (rules.flatMap Rule.actions)).unresolvable with
  | cons k rest =>
    have hf := exists_field_of_unresolvable (hu ▸ List.cons_ne_nil k rest)
    simpa only [cycleFields, hu] using hf
  | nil =>
    obtain ⟨hne, r, hr, other, hother, hdep⟩ := h
    obtain ⟨f, hf, hfne⟩ := exists_field_of_dependsOn hdep
    simp only [cycleFields, hu]
    refine ⟨f, mem_distinctFields.mpr ⟨?_, hfne⟩, hfne⟩
    simp only [List.mem_flatMap, Prod.exists, List.mem_zipIdx_iff_getElem?]
    exact ⟨r, i, hr, other, j, hother, by simpa [Ne.symm hne] using hf⟩

end Rule

namespace RuleSet

theorem resolveRules_eq_ok {s s1 : RuleSet} : s.resolveRules = .ok s1 ↔
    s.ruleGraph.unresolvable = [] ∧
      s1 = { s with entries := pick s.entries s.ruleGraph.order } := by
  cases hu : s.ruleGraph.unresolvable with
  | nil => simp only [resolveRules, hu, Except.ok.injEq, true_and, eq_comm]
  | cons i rest => simp [resolveRules, hu]

theorem resolveRules_eq_error {s : RuleSet} {problem : Problem} :
    s.resolveRules = .error problem ↔ s.ruleGraph.unresolvable ≠ [] ∧
      problem = .ruleCycle (Ordered.keys (pick s.entries s.ruleGraph.unresolvable))
        (Rule.cycleFields ((pick s.entries s.ruleGraph.unresolvable).map (·.2))) := by
  cases hu : s.ruleGraph.unresolvable with
  | nil => simp [resolveRules, hu]
  | cons i rest =>
    simp only [resolveRules, hu, Except.error.injEq, ne_eq, reduceCtorEq, not_false_eq_true,
      true_and, eq_comm]

theorem pick_rules (s : RuleSet) (places : List ℕ) :
    (pick s.entries places).map (·.2) = pick s.rules places := by
  simp [pick, rules, List.map_filterMap]

/-- A remainder of rules gives a field to name. -/
theorem exists_field_of_unresolvable {s : RuleSet} (h : s.ruleGraph.unresolvable ≠ []) :
    ∃ f ∈ Rule.cycleFields ((pick s.entries s.ruleGraph.unresolvable).map (·.2)), f ≠ "" := by
  obtain ⟨i, hi, j, hj, hij⟩ := exists_depends_of_unresolvable h
  have hlt : ∀ k ∈ s.ruleGraph.unresolvable, k < s.rules.length := fun k hk => by
    have := s.ruleGraph.unresolvable_sublist.subset hk
    simpa [ruleGraph, DependencyGraph.mem_items] using this
  have hnodup : s.ruleGraph.unresolvable.Nodup :=
    s.ruleGraph.unresolvable_ascending.imp Nat.ne_of_lt
  obtain ⟨p, hp⟩ := List.mem_iff_getElem?.mp hi
  obtain ⟨q, hq⟩ := List.mem_iff_getElem?.mp hj
  rw [pick_rules]
  exact Rule.exists_mem_cycleFields ((depends_pick hlt hnodup hp hq).mpr hij)

end RuleSet

/-- What is left by the elimination, for a whole list, for any part of it and for any arrangement
of it; and what resolution makes of it for actions and for rules. -/
theorem elimination_exact {α : Type} (relation : α → α → Bool) (items : List α)
    (subset order : List ℕ) (r : Rule) (s : RuleSet) :
    let g := DependencyGraph.ofItems relation items
    ((g.unresolvable.Pairwise (· < ·) ∧
        ∀ i, i ∈ g.unresolvable ↔ LeadsToCycle (Depends relation items) i) ∧
      ((g.circular subset).Sublist subset ∧
        IsGreatest {members : Set ℕ | members ⊆ {i | i ∈ subset} ∧
          SelfBound (Depends relation items) members} {i | i ∈ g.circular subset}) ∧
      (order.Perm (List.range items.length) →
        (pick order (DependencyGraph.ofItems relation (pick items order)).unresolvable).Perm
          g.unresolvable)) ∧
    (((∃ problem, r.resolveActions = .error problem) ↔
        ∃ i, OnCycle (Depends Action.dependsOn r.actions) i) ∧
      ∀ problem, r.resolveActions = .error problem →
        ∃ fields, problem = .actionCycle fields ∧ ∃ f ∈ fields, f ≠ "") ∧
    (((∃ problem, s.resolveRules = .error problem) ↔
        ∃ i, OnCycle (Depends Rule.dependsOn s.rules) i) ∧
      ∀ problem, s.resolveRules = .error problem →
        ∃ rules fields, problem = .ruleCycle rules fields ∧ ∃ f ∈ fields, f ≠ "") := by
  refine ⟨⟨⟨?_, ?_⟩, ⟨?_, ?_⟩, ?_⟩, ⟨?_, ?_⟩, ?_, ?_⟩
  · exact DependencyGraph.unresolvable_ascending _
  · exact mem_unresolvable relation items
  · exact DependencyGraph.circular_sublist _ subset
  · rw [← ofItems_dependsOn_eq]
    exact DependencyGraph.circular_isGreatest _ subset
  · exact pick_unresolvable_perm
  · simp only [Rule.resolveActions_eq_error, exists_and_left, exists_eq, and_true]
    simpa [Rule.actionGraph] using (unresolvable_eq_nil_iff Action.dependsOn r.actions).not
  · intro problem h
    obtain ⟨hu, rfl⟩ := Rule.resolveActions_eq_error.mp h
    exact ⟨_, rfl, Rule.exists_field_of_unresolvable hu⟩
  · simp only [RuleSet.resolveRules_eq_error, exists_and_left, exists_eq, and_true]
    simpa [RuleSet.ruleGraph] using (unresolvable_eq_nil_iff Rule.dependsOn s.rules).not
  · intro problem h
    obtain ⟨hu, rfl⟩ := RuleSet.resolveRules_eq_error.mp h
    exact ⟨_, _, rfl, RuleSet.exists_field_of_unresolvable hu⟩

theorem elimination_exact_circle :
    let actions := [Action.copy "A" "${B}", .copy "B" "${A}"]
    let s : RuleSet := { entries := [("u", { actions := [.copy "A" "${B}"] }),
      ("v", { actions := [.copy "B" "${A}"] })] }
    ([1, 0].Perm (List.range actions.length) ∧
        (pick [1, 0]
          (DependencyGraph.ofItems Action.dependsOn (pick actions [1, 0])).unresolvable).Perm
          (DependencyGraph.ofItems Action.dependsOn actions).unresolvable) ∧
      (∃ problem, Rule.resolveActions { actions } = .error problem ∧
        ∃ fields, problem = .actionCycle fields ∧ ∃ f ∈ fields, f ≠ "") ∧
      ∃ problem, s.resolveRules = .error problem ∧
        ∃ rules fields, problem = .ruleCycle rules fields ∧ ∃ f ∈ fields, f ≠ "" := by
  intro actions s
  have hr : Rule.resolveActions { actions } = .error _ :=
    Rule.resolveActions_eq_error.mpr ⟨by decide +kernel, rfl⟩
  have hs : s.resolveRules = .error _ :=
    RuleSet.resolveRules_eq_error.mpr ⟨by decide +kernel, rfl⟩
  have hexact := elimination_exact Action.dependsOn actions [] [1, 0] { actions } s
  have hperm : [1, 0].Perm (List.range actions.length) := by decide
  exact ⟨⟨hperm, hexact.1.2.2 hperm⟩, ⟨_, hr, hexact.2.1.2 _ hr⟩, _, hs, hexact.2.2.2 _ hs⟩

end EventRules
