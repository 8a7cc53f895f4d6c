import EventRules.Proofs.RuleSet.Accepted

/-! The translation of a rule comes to no name that its checks have not come to: whatever is
accepted in a condition, at any depth, or in the filter of a search has a filter, and the actions
have processors in every order. -/
namespace EventRules

open Check

namespace Condition

/-- One condition is within another: it is the whole, or within a member of a group. -/
inductive Within (node : Condition) : Condition → Prop
  | self : Within node node
  | member {label : NodeLabel} {typeName : String} {members : List Condition} {c : Condition}
      (hc : c ∈ members) (h : Within node c) : Within node (.group label typeName members)

variable {c node : Condition}

theorem accepts_checkAll {members : List Condition} :
    (checkAll members).accepts ↔ ∀ c ∈ members, c.check.accepts := by
  induction members with
  | nil => simp [checkAll]
  | cons c rest ih =>
    rw [checkAll, c.check_built.accepts_both (checkAll_built rest), Bool.and_eq_true, ih,
      List.forall_mem_cons]

theorem accepts_group {label : NodeLabel} {typeName : String} {members : List Condition} :
    (group label typeName members).check.accepts ↔
      (GroupKind.ofName? typeName).isSome ∧ members ≠ [] ∧ ∀ c ∈ members, c.check.accepts := by
  rw [check, built_require.accepts_both (.both built_require (checkAll_built members)),
    built_require.accepts_both (checkAll_built members)]
  simp only [accepts_require, Bool.and_eq_true, accepts_checkAll, Bool.not_eq_true',
    List.isEmpty_eq_false_iff]

/-- What is within an accepted condition has been checked too. -/
theorem Within.accepts (h : node.Within c) (hc : c.check.accepts) : node.check.accepts := by
  induction h with
  | self => exact hc
  | member hmem _ ih => exact ih ((accepts_group.mp hc).2.2 _ hmem)

theorem exists_filter_of_accepts (h : c.check.accepts) : ∃ f, c.filter = .ok f :=
  c.exists_filter_iff.mpr (c.known_of_accepts h)

end Condition

/-- All that an accepted rule is made of can be translated: its condition and every condition within
that, the filters of its searches, and any of its actions in any order, together or one by one. -/
theorem accepted_rule_translates {r : Rule} {found : List Problem}
    (h : (r.check found).1 = true) :
    (∃ filter, r.filter? = .ok filter) ∧
    (∀ c ∈ r.condition, ∀ node : Condition, node.Within c → ∃ f, node.filter = .ok f) ∧
    (∀ a ∈ r.actions, ∀ search, a.effect = .searchTopology search →
      ∀ c ∈ search.activeFilter?, ∃ f, c.filter = .ok f) ∧
    (∀ actions, actions ⊆ r.actions → (∃ ps, Action.processors actions = .ok ps) ∧
      ∃ ps, actions.mapM Action.processor = .ok ps) := by
  have haccepts : r.check.accepts := by
    rwa [r.check_built.additive found] at h
  obtain ⟨-, -, ⟨-, hactions⟩, hcondition⟩ := Rule.accepts_check.mp haccepts
  refine ⟨Rule.exists_filter? haccepts, fun c hc node hnode => ?_,
    fun a ha search heffect c hc => ?_, fun actions hsubset => ?_⟩
  · exact Condition.exists_filter_of_accepts (hnode.accepts (hcondition c hc))
  · exact Action.exists_searchFilter (hactions a ha) heffect hc
  · have hall : ∀ a ∈ actions, a.check.accepts := fun a ha => hactions a (hsubset ha)
    obtain ⟨parts, hparts⟩ := Action.exists_parts hall
    exact ⟨Action.exists_processors hall, _, by rw [Action.mapM_processor_eq_parts, hparts]; rfl⟩

/-- A condition in groups within groups, a search with a filter, and actions in reverse. -/
theorem accepted_rule_translates_nested :
    let search : TopologySearch :=
      { field := "f", value := "${v}", filter := some ⟨{}, "${x}", "oneOf", ["1", "2"]⟩,
        updates := [⟨"k", "1"⟩] }
    let leaf : Condition := .comparison ⟨{}, "${x}", "contains", ["a", "b"]⟩
    let r : Rule :=
      { description := "d", condition := some (.group {} "All" [.group {} "any" [leaf]]),
        actions := [.copy "A" "1", .ofEffect "" (.searchTopology search), .copy "B" "2"] }
    (r.check []).1 = true ∧ (∃ f, leaf.filter = .ok f) ∧
      ∃ ps, Action.processors r.actions.reverse = .ok ps := by
  intro search leaf r
  have h : (r.check []).1 = true := by decide
  obtain ⟨-, hnodes, -, hactions⟩ := accepted_rule_translates h
  have hleaf : leaf.Within (.group {} "All" [.group {} "any" [leaf]]) :=
    .member List.mem_cons_self (.member List.mem_cons_self .self)
  have hsubset : r.actions.reverse ⊆ r.actions := fun a ha => List.mem_reverse.mp ha
  exact ⟨h, hnodes _ rfl leaf hleaf, (hactions _ hsubset).1⟩

end EventRules
