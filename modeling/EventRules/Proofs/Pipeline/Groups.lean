import EventRules.Proofs.Dependency.Component
import EventRules.Proofs.Pipeline.Buckets
import EventRules.Proofs.Pipeline.Chain

/-! Rulesets in which every rule has a group. Rules of different groups never depend on each other,
so each group is put in order as if it were alone, and the document holds the blocks of one group
after those of another, in the order in which the groups first appear. -/
namespace EventRules

namespace Rule

/-- Rules that depend on each other are of one group if both have one. -/
theorem group?_eq_of_dependsOn {r other : Rule} (hr : r.group?.isSome) (ho : other.group?.isSome)
    (h : r.dependsOn other) : r.group? = other.group? := by
  obtain ⟨a, ha⟩ := Option.isSome_iff_exists.mp hr
  obtain ⟨b, hb⟩ := Option.isSome_iff_exists.mp ho
  simp only [dependsOn, inOtherGroup, ha, hb, Bool.and_eq_true] at h
  obtain rfl : a = b := by simpa using h.1
  rw [ha, hb]

end Rule

namespace RuleSet

/-- The rules of a group alone. -/
def ofGroup (s : RuleSet) (group : String) : RuleSet :=
  { s with entries := s.entries.filter fun entry => entry.2.group? == some group }

/-- The groups in the order in which they first appear. -/
def groupIds (s : RuleSet) : List String := distinct (s.rules.filterMap Rule.group?)

/-- Every rule has a group. -/
def AllGrouped (s : RuleSet) : Prop := ∀ r ∈ s.rules, r.group?.isSome

instance (s : RuleSet) : Decidable s.AllGrouped := inferInstanceAs (Decidable (∀ r ∈ s.rules, _))

variable {s : RuleSet}

theorem rules_ofGroup (group : String) :
    (s.ofGroup group).rules = s.rules.filter fun r => r.group? == some group := by
  rw [rules, rules, ofGroup, List.filter_map]
  rfl

theorem AllGrouped.map_group? (h : s.AllGrouped) :
    s.rules.map Rule.group? = (s.rules.filterMap Rule.group?).map some := by
  rw [List.map_filterMap, ← List.filterMap_eq_map]
  refine List.filterMap_congr fun r hr => ?_
  obtain ⟨g, hg⟩ := Option.isSome_iff_exists.mp (h r hr)
  simp [hg]

theorem AllGrouped.distinct_group? (h : s.AllGrouped) :
    distinct (s.rules.map Rule.group?) = s.groupIds.map some := by
  rw [h.map_group?, distinct_map (Option.some_injective _), groupIds]

/-- The groups, each with its rules. -/
theorem AllGrouped.collectBy (h : s.AllGrouped) :
    collectBy Rule.group? s.rules = s.groupIds.map fun g => (s.ofGroup g).rules := by
  rw [collectBy_eq, h.distinct_group?, List.map_map]
  exact List.map_congr_left fun g _ => (rules_ofGroup g).symm

theorem AllGrouped.group?_eq (h : s.AllGrouped) : ∀ a ∈ s.entries, ∀ b ∈ s.entries,
    a.2.dependsOn b.2 → a.2.group? = b.2.group? := by
  intro a ha b hb hab
  exact Rule.group?_eq_of_dependsOn (h a.2 (List.mem_map_of_mem ha))
    (h b.2 (List.mem_map_of_mem hb)) hab

theorem resolveRules_eq_ok_arranged {s1 : RuleSet} : s.resolveRules = .ok s1 ↔
    s.ruleGraph.unresolvable = [] ∧
      s1 = { s with entries := arranged (Function.onFun Rule.dependsOn Prod.snd) s.entries } := by
  rw [resolveRules_eq_ok, arranged, ← ruleGraph_eq]

theorem exists_resolveRules_iff :
    (∃ s1, s.resolveRules = .ok s1) ↔ s.ruleGraph.unresolvable = [] := by
  simp [resolveRules_eq_ok]

/-- Resolving the rules only arranges them. -/
theorem entries_perm_of_resolveRules {s1 : RuleSet} (h : s.resolveRules = .ok s1) :
    s1.entries.Perm s.entries := by
  obtain ⟨-, rfl⟩ := resolveRules_eq_ok_arranged.mp h
  exact arranged_perm _ _

theorem mem_rules_of_resolveRules {s1 : RuleSet} (h : s.resolveRules = .ok s1) {r : Rule} :
    r ∈ s1.rules ↔ r ∈ s.rules :=
  ((entries_perm_of_resolveRules h).map Prod.snd).mem_iff

theorem AllGrouped.of_resolveRules (h : s.AllGrouped) {s1 : RuleSet}
    (hs : s.resolveRules = .ok s1) : s1.AllGrouped :=
  fun r hr => h r ((mem_rules_of_resolveRules hs).mp hr)

theorem mem_groupIds {g : String} :
    g ∈ s.groupIds ↔ ∃ entry ∈ s.entries, entry.2.group? = some g := by
  simp [groupIds, rules]

/-- A ruleset has no cycles when no group has one. -/
theorem AllGrouped.exists_resolveRules_iff (h : s.AllGrouped) : (∃ s1, s.resolveRules = .ok s1) ↔
    ∀ g ∈ s.groupIds, ∃ t, (s.ofGroup g).resolveRules = .ok t := by
  simp only [RuleSet.exists_resolveRules_iff, ruleGraph_eq,
    unresolvable_eq_nil_iff_forall_key h.group?_eq]
  constructor
  · exact fun hall g _ => hall (some g)
  · intro hall k
    by_cases hk : ∃ entry ∈ s.entries, entry.2.group? = k
    · obtain ⟨entry, hentry, rfl⟩ := hk
      obtain ⟨g, hg⟩ := Option.isSome_iff_exists.mp (h entry.2 (List.mem_map_of_mem hentry))
      rw [hg]
      exact hall g (mem_groupIds.mpr ⟨entry, hentry, hg⟩)
    · have hempty : s.entries.filter (fun entry => entry.2.group? == k) = [] := by
        rw [List.filter_eq_nil_iff]
        exact fun entry hentry heq => hk ⟨entry, hentry, by simpa using heq⟩
      rw [hempty]
      exact List.sublist_nil.mp (DependencyGraph.unresolvable_sublist _)

/-- The rules of a group stand in the order in which the group alone is put. -/
theorem AllGrouped.resolveRules_ofGroup (h : s.AllGrouped) {s1 : RuleSet}
    (hs : s.resolveRules = .ok s1) {g : String} (hg : g ∈ s.groupIds) :
    (s.ofGroup g).resolveRules = .ok (s1.ofGroup g) := by
  have hgroup : (s.ofGroup g).ruleGraph.unresolvable = [] :=
    RuleSet.exists_resolveRules_iff.mp (h.exists_resolveRules_iff.mp ⟨s1, hs⟩ g hg)
  obtain ⟨-, rfl⟩ := resolveRules_eq_ok_arranged.mp hs
  refine resolveRules_eq_ok_arranged.mpr ⟨hgroup, ?_⟩
  have hkind : ∀ a ∈ s.entries, ∀ b ∈ s.entries, a.2.dependsOn b.2 →
      (a.2.group? == some g) = (b.2.group? == some g) :=
    fun a ha b hb hab => by rw [h.group?_eq a ha b hb hab]
  simp only [ofGroup, filter_arranged hkind]

/-- The groups first appear in the same order. -/
theorem AllGrouped.groupIds_of_resolveRules (h : s.AllGrouped) {s1 : RuleSet}
    (hs : s.resolveRules = .ok s1) : s1.groupIds = s.groupIds := by
  refine List.map_injective_iff.mpr (Option.some_injective String) ?_
  rw [← h.distinct_group?, ← (h.of_resolveRules hs).distinct_group?]
  obtain ⟨-, rfl⟩ := resolveRules_eq_ok_arranged.mp hs
  rw [rules, rules, List.map_map, List.map_map]
  exact distinct_arranged h.group?_eq

end RuleSet

namespace Pipeline

variable {phases : Phases} {s : RuleSet} {p : Pipeline}

/-- The document of grouped rules: the blocks of the groups between the two outer blocks. -/
theorem ofRuleSet_eq_ok (h : s.AllGrouped) : ofRuleSet phases s = .ok p ↔
    ∃ blocks, chain phases [] (collectBy Rule.group? s.rules) = .ok blocks ∧
      p = ⟨entryBlock phases s.notify? (nextPhase phases (collectBy Rule.group? s.rules)) ::
        blocks ++ [publishBlock phases]⟩ := by
  cases hrules : s.rules with
  | nil =>
    rw [ofRuleSet, ruleBlocks, hrules]
    constructor
    · exact fun hp => ⟨[], rfl, (Except.ok.inj hp).symm⟩
    · rintro ⟨blocks, hblocks, rfl⟩
      obtain rfl := Except.ok.inj hblocks
      rfl
  | cons r rest =>
    have hany : (r :: rest).any (fun r => r.group?.isSome) = true :=
      List.any_eq_true.mpr ⟨r, by simp, h r (by simp [hrules])⟩
    rw [ofRuleSet, ruleBlocks, hrules, if_pos hany]
    cases hc : chain phases [] (collectBy Rule.group? (r :: rest)) with
    | error fault => simp [hc, Except.map]
    | ok blocks => simp [hc, Except.map, nextPhase, eq_comm]

/-- Grouped rules have a document when each of them has a block. -/
theorem exists_ofRuleSet_iff (h : s.AllGrouped) : (∃ p, ofRuleSet phases s = .ok p) ↔
    ∀ r ∈ s.rules, ∃ b, r.block phases = .ok b := by
  have hchain : (∃ p, ofRuleSet phases s = .ok p) ↔
      ∃ blocks, chain phases [] (collectBy Rule.group? s.rules) = .ok blocks := by
    simp only [ofRuleSet_eq_ok h]
    constructor
    · rintro ⟨_, blocks, hblocks, -⟩
      exact ⟨blocks, hblocks⟩
    · rintro ⟨blocks, hblocks⟩
      exact ⟨_, blocks, hblocks, rfl⟩
  rw [hchain, exists_chain_iff]
  constructor
  · intro hall r hr
    obtain ⟨group, hgroup, hmem⟩ := exists_mem_collectBy Rule.group? hr
    exact hall group hgroup r hmem
  · exact fun hall group hgroup r hr => hall r (mem_of_mem_collectBy Rule.group? hgroup hr)

end Pipeline

/-- Where every rule has a group, the groups are compiled as if each were alone. There is an order
of all rules exactly when there is one of each group; it keeps the groups in the order of their
first rules and puts the rules of each group as that group alone is put; and the document holds the
blocks of one group after those of another. -/
theorem groups_compiled_apart {s : RuleSet} (h : s.AllGrouped) :
    ((∃ s1, s.resolveRules = .ok s1) ↔
      ∀ g ∈ s.groupIds, ∃ t, (s.ofGroup g).resolveRules = .ok t) ∧
    ∀ s1, s.resolveRules = .ok s1 →
      s1.groupIds = s.groupIds ∧
      (∀ g ∈ s.groupIds, (s.ofGroup g).resolveRules = .ok (s1.ofGroup g)) ∧
      ∀ phases,
        ((∃ p, Pipeline.ofRuleSet phases s1 = .ok p) ↔
          ∀ r ∈ s.rules, ∃ b, r.block phases = .ok b) ∧
        ∀ p, Pipeline.ofRuleSet phases s1 = .ok p → ∃ first blocks,
          p.blocks = Pipeline.entryBlock phases s1.notify? first :: blocks ++
            [Pipeline.publishBlock phases] ∧
          List.Forall₂ (Pipeline.Emits phases) (s.groupIds.flatMap fun g => (s1.ofGroup g).rules)
            blocks := by
  refine ⟨h.exists_resolveRules_iff, fun s1 hs => ⟨h.groupIds_of_resolveRules hs,
    fun g hg => h.resolveRules_ofGroup hs hg, fun phases => ⟨?_, ?_⟩⟩⟩
  · rw [Pipeline.exists_ofRuleSet_iff (h.of_resolveRules hs)]
    simp only [RuleSet.mem_rules_of_resolveRules hs]
  · intro p hp
    obtain ⟨blocks, hblocks, rfl⟩ := (Pipeline.ofRuleSet_eq_ok (h.of_resolveRules hs)).mp hp
    have hemits := Pipeline.chain_emits hblocks
    rw [(h.of_resolveRules hs).collectBy, h.groupIds_of_resolveRules hs,
      ← List.flatMap_def] at hemits
    exact ⟨_, blocks, rfl, hemits⟩

theorem groups_compiled_apart_interleaved :
    let rule := fun group target source : String =>
      ({ groupId := some group, actions := [.copy target source] } : Rule)
    let s : RuleSet := { entries :=
      [("u", rule "g" "A" "${B}"), ("v", rule "h" "C" "1"), ("w", rule "g" "B" "2")] }
    s.AllGrouped ∧ s.groupIds = ["g", "h"] ∧
    ((∃ s1, s.resolveRules = .ok s1) ↔
      ∀ g ∈ s.groupIds, ∃ t, (s.ofGroup g).resolveRules = .ok t) ∧
    ∃ s1, s.resolveRules = .ok s1 ∧ s1.ids = ["w", "u", "v"] ∧ s1.groupIds = s.groupIds ∧
      (∀ g ∈ s.groupIds, (s.ofGroup g).resolveRules = .ok (s1.ofGroup g)) ∧
      ∃ p, Pipeline.ofRuleSet {} s1 = .ok p ∧ ∃ first blocks,
        p.blocks = Pipeline.entryBlock {} s1.notify? first :: blocks ++
          [Pipeline.publishBlock {}] ∧
        List.Forall₂ (Pipeline.Emits {}) (s.groupIds.flatMap fun g => (s1.ofGroup g).rules)
          blocks := by
  intro rule s
  have h : s.AllGrouped := by decide
  have hs : s.resolveRules = .ok _ := RuleSet.resolveRules_eq_ok.mpr ⟨by decide +kernel, rfl⟩
  have hexact := groups_compiled_apart h
  obtain ⟨hids, hgroups, hdocument⟩ := hexact.2 _ hs
  have hblocks : s.rules.Forall fun r => ∃ b, r.block {} = .ok b := ⟨⟨_, rfl⟩, ⟨_, rfl⟩, _, rfl⟩
  obtain ⟨p, hp⟩ := (hdocument {}).1.mpr (List.forall_iff_forall_mem.mp hblocks)
  exact ⟨h, by decide, hexact.1, _, hs, by decide +kernel, hids, hgroups, p, hp,
    (hdocument {}).2 p hp⟩

end EventRules
