import EventRules.Proofs.Rule.Alike

/-! Rulesets whose rules are alike, one by one, with groups that are called differently. Every stage
of compilation gives both the same answer, and their documents are the same. -/
namespace EventRules

open Check Relator

namespace RuleSet

variable {same : String → String → Prop} {phases : Phases} {s t : RuleSet}

/-- The rulesets declare the same, and their rules correspond. Keys and schemas are free. -/
structure Alike (same : String → String → Prop) (s t : RuleSet) : Prop where
  notify : Text.nonBlank s.notifyId = Text.nonBlank t.notifyId
  entry : Text.nonBlank s.entryPhase = Text.nonBlank t.entryPhase
  publish : Text.nonBlank s.publishPhase = Text.nonBlank t.publishPhase
  rules : List.Forall₂ (Rule.Alike same) s.rules t.rules

/-- The ruleset with the actions of each rule in order. -/
def settled (s : RuleSet) : RuleSet := { s with entries := s.resolveEach.1 }

/-- The ruleset with its rules in order. -/
def ordered (s : RuleSet) : RuleSet := { s with entries := pick s.entries s.ruleGraph.order }

theorem rules_ordered (s : RuleSet) : s.ordered.rules = pick s.rules s.ruleGraph.order :=
  s.pick_rules s.ruleGraph.order

theorem resolveEach_alike {entries entries' : List (String × Rule)}
    (h : List.Forall₂ (fun e e' => Rule.Alike same e.2 e'.2) entries entries') :
    List.Forall₂ (fun e e' => Rule.Alike same e.2 e'.2)
        ({ s with entries } : RuleSet).resolveEach.1
        ({ t with entries := entries' } : RuleSet).resolveEach.1 ∧
      (({ s with entries } : RuleSet).resolveEach.2 = [] ↔
        ({ t with entries := entries' } : RuleSet).resolveEach.2 = []) := by
  induction h with
  | nil => exact ⟨.nil, Iff.rfl⟩
  | @cons e e' _ _ he _ ih =>
    by_cases hu : e.2.actionGraph.unresolvable = []
    · have hr := Rule.resolveActions_eq_ok.mpr ⟨hu, rfl⟩
      have hr' := Rule.resolveActions_eq_ok.mpr ⟨he.actionGraph_eq ▸ hu, rfl⟩
      simp only [resolveEach, List.foldr_cons, hr, hr'] at ih ⊢
      rw [← he.actionGraph_eq]
      exact ⟨.cons (he.arranged _ e.1 e'.1) ih.1, ih.2⟩
    · have hr := Rule.resolveActions_eq_error.mpr ⟨hu, rfl⟩
      have hr' := Rule.resolveActions_eq_error.mpr ⟨he.actionGraph_eq ▸ hu, rfl⟩
      simp only [resolveEach, List.foldr_cons, hr, hr'] at ih ⊢
      exact ⟨ih.1, by simp⟩

namespace Alike

variable (h : s.Alike same t)
include h

theorem entries : List.Forall₂ (fun e e' => Rule.Alike same e.2 e'.2) s.entries t.entries := by
  have hrules := h.rules
  rwa [RuleSet.rules, RuleSet.rules, List.forall₂_map_left_iff, List.forall₂_map_right_iff]
    at hrules

theorem declared_eq {own own' : Option String} {f : Rule → Option String}
    (hown : Text.nonBlank own = Text.nonBlank own')
    (hf : ∀ r r' : Rule, r.Alike same r' → f r = f r') : s.declared own f = t.declared own' f := by
  unfold declared
  rw [hown, findSome?_eq_of_forall₂ hf h.rules]

theorem notify?_eq : s.notify? = t.notify? := h.declared_eq h.notify fun _ _ hr => hr.notify

theorem effectivePhases_eq (configured : Phases) :
    s.effectivePhases configured = t.effectivePhases configured := by
  have hentry : s.entry? = t.entry? := h.declared_eq h.entry fun _ _ hr => hr.entry
  have hpublish : s.publish? = t.publish? := h.declared_eq h.publish fun _ _ hr => hr.publish
  unfold effectivePhases
  rw [hentry, hpublish]

theorem rulePhases_eq : s.rulePhases = t.rulePhases :=
  filterMap_eq_of_forall₂ (fun _ _ hr => Rule.Alike.phase hr) h.rules

theorem size_eq : s.size = t.size := h.entries.length_eq

theorem checkDeclarations_agrees {role : OuterPhase} {f : Rule → Option String}
    (hf : ∀ r r' : Rule, r.Alike same r' → f r = f r') :
    (s.checkDeclarations role f).Agrees (t.checkDeclarations role f) := by
  unfold checkDeclarations
  rw [filterMap_eq_of_forall₂ hf h.rules]
  exact agrees_each (R := Eq) (fun _ _ _ => agrees_report) (List.forall₂_refl _)

theorem check_agrees : (s.check none).Agrees (t.check none) := by
  unfold check
  rw [isEmpty_eq_of_forall₂ h.entries]
  split
  · exact agrees_report
  · apply agrees_all
    apply List.Forall₂.cons (agrees_each (fun _ _ hr => Rule.Alike.check_agrees hr) h.rules)
    apply List.Forall₂.cons agrees_pass
    apply List.Forall₂.cons (h.checkDeclarations_agrees fun _ _ hr => hr.entry)
    exact .cons (h.checkDeclarations_agrees fun _ _ hr => hr.publish) .nil

theorem settled : s.settled.Alike same t.settled := by
  refine { h with rules := ?_ }
  rw [RuleSet.rules, RuleSet.rules, List.forall₂_map_left_iff, List.forall₂_map_right_iff]
  exact (resolveEach_alike h.entries).1

theorem resolveEach_eq_nil_iff : s.resolveEach.2 = [] ↔ t.resolveEach.2 = [] :=
  (resolveEach_alike h.entries).2

variable (hsame : BiUnique same)
include hsame

theorem phasesOfGroup_eq {g g' : String} (hg : same g g') :
    s.phasesOfGroup g = t.phasesOfGroup g' := by
  have hkey (r r' : Rule) (hr : r.Alike same r') : (r.group? == some g) = (r'.group? == some g') :=
    beq_eq_of_biUnique (biUnique_option hsame) hr.group (.some hg)
  unfold phasesOfGroup
  rw [filterMap_eq_of_forall₂ (fun _ _ hr => Rule.Alike.phase hr) (filter_forall₂ hkey h.rules)]

theorem accepts_checkGroups_iff : s.checkGroups.accepts ↔ t.checkGroups.accepts := by
  have hgrouped := filter_forall₂ (fun _ _ hr => isSome_eq_of_rel (Rule.Alike.group hr)) h.rules
  have hnil := isEmpty_eq_of_forall₂ hgrouped
  have hgroups : List.Forall₂ same (s.rules.filterMap Rule.group?)
      (t.rules.filterMap Rule.group?) :=
    List.rel_filterMap (fun _ _ hr => Rule.Alike.group hr) h.rules
  have hphases := forall_mem_iff_of_forall₂ (p := fun g => (s.phasesOfGroup g).length ≤ 1)
    (q := fun g => (t.phasesOfGroup g).length ≤ 1)
    (fun _ _ hg => by rw [h.phasesOfGroup_eq hsame hg]) hgroups
  rw [accepts_checkGroups, accepts_checkGroups, hphases, hgrouped.length_eq, h.size_eq,
    ← List.isEmpty_iff, ← List.isEmpty_iff, hnil]

theorem ruleGraph_eq : s.ruleGraph = t.ruleGraph :=
  ofItems_eq_of_forall₂ (fun _ _ hr _ _ hr' => Rule.Alike.dependsOn_eq hr hsame hr') h.rules

theorem ordered : s.ordered.Alike same t.ordered := by
  refine { h with rules := ?_ }
  rw [rules_ordered, rules_ordered, h.ruleGraph_eq hsame]
  exact pick_forall₂ h.rules _

theorem ofRuleSet_eq_ok {p : Pipeline} :
    Pipeline.ofRuleSet phases s = .ok p ↔ Pipeline.ofRuleSet phases t = .ok p := by
  have hany := any_eq_of_forall₂ (fun _ _ hr => isSome_eq_of_rel (Rule.Alike.group hr)) h.rules
  have hgroups :=
    collectBy_forall₂ (biUnique_option hsame) (fun _ _ hr => Rule.Alike.group hr) h.rules
  have hinner (inner : String × List PhaseBlock) :
      Pipeline.ruleBlocks phases s = .ok inner ↔ Pipeline.ruleBlocks phases t = .ok inner := by
    unfold Pipeline.ruleBlocks
    rw [hany]
    split
    · have hnext : ((collectBy Rule.group? s.rules).head?.map (Pipeline.groupPhase phases)).getD
          phases.run = ((collectBy Rule.group? t.rules).head?.map
            (Pipeline.groupPhase phases)).getD phases.run :=
        Pipeline.nextPhase_eq_of_alike hgroups
      simp only [map_eq_ok, Pipeline.chain_eq_ok_of_alike hgroups, hnext]
    · simp only [map_eq_ok, Rule.blocks_eq_ok_of_alike h.rules]
  unfold Pipeline.ofRuleSet
  simp only [map_eq_ok, hinner, h.notify?_eq]

theorem document_eq_ok {json : Json} :
    s.document phases = .ok json ↔ t.document phases = .ok json := by
  rw [RuleSet.document_eq_ok, RuleSet.document_eq_ok]
  simp only [h.ofRuleSet_eq_ok hsame]

end Alike

end RuleSet

end EventRules
