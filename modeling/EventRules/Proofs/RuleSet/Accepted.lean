import EventRules.Compile
import EventRules.Proofs.Filter.Truth
import EventRules.Proofs.Pipeline.Groups
import EventRules.Proofs.Processor.Parts

/-! What the checks before translation guarantee. The rules of an accepted ruleset are those that
were submitted, with their actions and then themselves put in order; each has a block, a group has
one phase, and no rule is in one of the outer phases. -/
namespace EventRules

open Check

namespace Condition

mutual

theorem check_built : (c : Condition) → c.check.Built
  | .group _ _ members => .both built_require (.both built_require (checkAll_built members))
  | .comparison c => c.check_built

theorem checkAll_built : (members : List Condition) → (checkAll members).Built
  | [] => .pass
  | c :: rest => .both (check_built c) (checkAll_built rest)

end

mutual

theorem known_of_accepts : (c : Condition) → c.check.accepts → c.Known
  | .group _ typeName members => fun h => by
    rw [check, built_require.accepts_both (.both built_require (checkAll_built members)),
      built_require.accepts_both (checkAll_built members)] at h
    simp only [accepts_require, Bool.and_eq_true] at h
    exact ⟨Option.isSome_iff_exists.mp h.1, allKnown_of_accepts members h.2.2⟩
  | .comparison _ => fun h => Option.isSome_iff_exists.mp (Comparison.operator?_isSome_of_accepts h)

theorem allKnown_of_accepts : (members : List Condition) → (checkAll members).accepts →
    AllKnown members
  | [] => fun _ => trivial
  | c :: rest => fun h => by
    rw [checkAll, (check_built c).accepts_both (checkAll_built rest), Bool.and_eq_true] at h
    exact ⟨known_of_accepts c h.1, allKnown_of_accepts rest h.2⟩

end

end Condition

namespace Rule

variable {r : Rule}

theorem checkActions_built (r : Rule) :
    (if r.actions.isEmpty then report .noActions else each Action.check r.actions).Built := by
  split
  · exact .report _
  · exact built_each fun a _ => a.check_built

theorem checkCondition_built (r : Rule) : ((r.condition.map Condition.check).getD pass).Built := by
  cases r.condition with
  | none => exact .pass
  | some c => exact c.check_built

theorem check_parts (r : Rule) :
    ∀ check ∈ [require (r.group?.isNone || r.phase?.isSome) .groupWithoutPhase,
      require (isFilled r.description) .noDescription,
      if r.actions.isEmpty then report .noActions else each Action.check r.actions,
      (r.condition.map Condition.check).getD pass], check.Built := by
  simp only [List.forall_mem_cons, List.not_mem_nil, false_implies, implies_true, and_true]
  exact ⟨built_require, built_require, r.checkActions_built, r.checkCondition_built⟩

theorem check_built (r : Rule) : r.check.Built := built_all r.check_parts

/-- What an accepted rule has. -/
theorem accepts_check : r.check.accepts ↔ (r.group?.isNone || r.phase?.isSome) ∧
    isFilled r.description ∧ (r.actions ≠ [] ∧ ∀ a ∈ r.actions, a.check.accepts) ∧
      ∀ c ∈ r.condition, c.check.accepts := by
  rw [check, accepts_all r.check_parts]
  have hactions :
      (if r.actions.isEmpty then report .noActions else each Action.check r.actions).accepts ↔
        r.actions ≠ [] ∧ ∀ a ∈ r.actions, a.check.accepts := by
    rw [← accepts_each fun a _ => a.check_built]
    cases r.actions <;> simp [report, accepts]
  have hcondition : ((r.condition.map Condition.check).getD pass).accepts ↔
      ∀ c ∈ r.condition, c.check.accepts := by
    cases r.condition <;> simp
  simp only [List.forall_mem_cons, accepts_require, hactions, hcondition, List.not_mem_nil,
    false_implies, implies_true, and_true]

/-- The condition of an accepted rule, if it has one, has a filter. -/
theorem exists_filter? (h : r.check.accepts) : ∃ filter, r.filter? = .ok filter := by
  obtain ⟨-, -, -, hcondition⟩ := accepts_check.mp h
  rw [filter?]
  cases hc : r.condition with
  | none => exact ⟨none, rfl⟩
  | some c =>
    obtain ⟨f, hf⟩ := c.exists_filter_iff.mpr (c.known_of_accepts (hcondition c hc))
    exact ⟨some f, by simp [hf, Except.map]⟩

/-- An accepted rule has a block. -/
theorem exists_block (h : r.check.accepts) (phases : Phases) : ∃ b, r.block phases = .ok b := by
  obtain ⟨-, -, ⟨-, hactions⟩, -⟩ := accepts_check.mp h
  obtain ⟨filter, hfilter⟩ := exists_filter? h
  obtain ⟨processors, hprocessors⟩ := Action.exists_processors hactions
  exact ⟨_, block_eq_ok.mpr ⟨filter, processors, hfilter, hprocessors, rfl⟩⟩

/-- The rule with its actions in another order. -/
def Reordered (r other : Rule) : Prop :=
  ∃ actions, other = { r with actions } ∧ actions.Perm r.actions

theorem reordered_of_resolveActions {r1 : Rule} (h : r.resolveActions = .ok r1) :
    r.Reordered r1 := by
  obtain ⟨-, rfl⟩ := resolveActions_eq_ok.mp h
  exact ⟨_, rfl, arranged_perm Action.dependsOn r.actions⟩

/-- The rule with another identifier and its actions in another order. -/
def Arranged (r other : Rule) : Prop :=
  ∃ uid actions, other = { r with uid, actions } ∧ actions.Perm r.actions

theorem Arranged.accepts_check {other : Rule} (h : r.Arranged other) (hr : r.check.accepts) :
    other.check.accepts := by
  obtain ⟨uid, actions, rfl, hperm⟩ := h
  obtain ⟨hphase, hdescription, ⟨hne, hactions⟩, hcondition⟩ := Rule.accepts_check.mp hr
  refine Rule.accepts_check.mpr ⟨hphase, hdescription, ⟨?_, ?_⟩, hcondition⟩
  · intro hnil
    subst hnil
    exact hne hperm.nil_eq.symm
  · exact fun a ha => hactions a (hperm.mem_iff.mp ha)

theorem Arranged.group?_eq {other : Rule} (h : r.Arranged other) : r.group? = other.group? := by
  obtain ⟨uid, actions, rfl, -⟩ := h
  rfl

theorem Arranged.phaseOr_eq {other : Rule} (h : r.Arranged other) (run : String) :
    r.phaseOr run = other.phaseOr run := by
  obtain ⟨uid, actions, rfl, -⟩ := h
  rfl

end Rule

namespace RuleSet

variable {catalog : Option Catalog} {phases : Phases} {s t imported ordered : RuleSet}

theorem checkSchemas_built (c : Catalog) (s : RuleSet) : (s.checkSchemas c).Built :=
  built_each fun _ _ => built_require

theorem checkDeclarations_built (role : OuterPhase) (declared : Rule → Option String)
    (s : RuleSet) : (s.checkDeclarations role declared).Built :=
  built_each fun _ _ => .report _

theorem check_parts (catalog : Option Catalog) (s : RuleSet) :
    ∀ check ∈ [each Rule.check s.rules,
      (catalog.map fun c => s.checkSchemas c).getD pass, s.checkDeclarations .entry Rule.entry?,
      s.checkDeclarations .publish Rule.publish?], check.Built := by
  simp only [List.forall_mem_cons, List.not_mem_nil, false_implies, implies_true, and_true]
  refine ⟨built_each fun r _ => r.check_built, ?_, s.checkDeclarations_built _ _,
    s.checkDeclarations_built _ _⟩
  cases catalog with
  | none => exact .pass
  | some c => exact s.checkSchemas_built c

theorem check_built (catalog : Option Catalog) (s : RuleSet) : (s.check catalog).Built := by
  rw [check]
  split
  · exact .report _
  · exact built_all (s.check_parts catalog)

theorem accepts_of_check (h : (s.check catalog).problems = []) :
    ∀ r ∈ s.rules, r.check.accepts := by
  rw [check] at h
  split at h
  · simp [report, problems] at h
  · have hparts := s.check_parts catalog
    rw [(built_all hparts).problems_eq_nil_iff, accepts_all hparts] at h
    exact (accepts_each fun r _ => r.check_built).mp (h _ (by simp))

/-- An imported rule stands under the key that it had, takes it for its identifier, and has its
actions in another order. -/
def Imports (entry other : String × Rule) : Prop :=
  other.1 = entry.1 ∧ ({ entry.2 with uid := entry.1 } : Rule).Reordered other.2

theorem Imports.arranged {entry other : String × Rule} (h : Imports entry other) :
    entry.2.Arranged other.2 := by
  obtain ⟨-, actions, heq, hperm⟩ := h
  exact ⟨entry.1, actions, heq, hperm⟩

/-- The rules with their actions in order, when there are no problems. -/
theorem resolveEach_imports (entries : List (String × Rule))
    (h : ({ s with entries } : RuleSet).resolveEach.2 = []) :
    List.Forall₂ Imports entries ({ s with entries } : RuleSet).resolveEach.1 := by
  induction entries with
  | nil => exact .nil
  | cons entry rest ih =>
    cases hr : entry.2.resolveActions with
    | error problem => simp [resolveEach, hr] at h
    | ok rule =>
      simp only [resolveEach, List.foldr_cons, hr] at h ih ⊢
      obtain ⟨actions, rfl, hperm⟩ := Rule.reordered_of_resolveActions hr
      exact .cons ⟨rfl, actions, rfl, hperm⟩ (ih h)

theorem imported_eq_ok : s.imported catalog = .ok t ↔ (s.check catalog).problems = [] ∧
    s.resolveEach.2 = [] ∧ t = { s with entries := s.resolveEach.1 } := by
  rw [RuleSet.imported]
  split
  next hproblems =>
    rw [and_iff_right hproblems]
    split
    next entries heq => simp [heq, eq_comm]
    next problems hne heq =>
      rw [heq]
      exact iff_of_false nofun fun h => hne h.1
  next hne => exact iff_of_false nofun fun h => hne h.1

theorem imports_of_imported (h : s.imported catalog = .ok t) :
    List.Forall₂ Imports s.entries t.entries := by
  obtain ⟨-, hresolved, rfl⟩ := imported_eq_ok.mp h
  exact resolveEach_imports (s := s) s.entries hresolved

/-- An imported ruleset holds the rules that were submitted, all of them acceptable. -/
theorem arranged_of_imported (h : s.imported catalog = .ok t) :
    (∀ r ∈ s.rules, r.check.accepts) ∧ List.Forall₂ Rule.Arranged s.rules t.rules := by
  refine ⟨accepts_of_check (imported_eq_ok.mp h).1, ?_⟩
  rw [rules, rules, List.forall₂_map_left_iff, List.forall₂_map_right_iff]
  exact (imports_of_imported h).imp fun _ _ himports => himports.arranged

/-- The rules of each group are in the phase given for it. -/
def InPhases (s : RuleSet) (run : String) (phaseOf : String → String) : Prop :=
  ∀ r ∈ s.rules, ∀ g, r.group? = some g → r.phaseOr run = phaseOf g

theorem InPhases.groupPhase_eq {phaseOf : String → String} (hp : s.InPhases phases.run phaseOf)
    {g : String} (hg : g ∈ s.groupIds) :
    (s.ofGroup g).rules ≠ [] ∧ Pipeline.groupPhase phases (s.ofGroup g).rules = phaseOf g := by
  obtain ⟨entry, hentry, heq⟩ := mem_groupIds.mp hg
  have hmem : entry.2 ∈ (s.ofGroup g).rules := by
    rw [rules_ofGroup]
    exact List.mem_filter.mpr ⟨List.mem_map_of_mem hentry, by simp [heq]⟩
  obtain ⟨r, rest, hrules⟩ := List.exists_cons_of_ne_nil (List.ne_nil_of_mem hmem)
  have hr : r ∈ s.rules.filter fun r => r.group? == some g := by
    rw [← rules_ofGroup, hrules]
    exact List.mem_cons_self
  obtain ⟨hr, hgroup⟩ := List.mem_filter.mp hr
  rw [hrules]
  exact ⟨List.cons_ne_nil r rest, hp r hr g (by simpa using hgroup)⟩

theorem InPhases.phaseOr_eq {phaseOf : String → String} (hp : s.InPhases phases.run phaseOf)
    {g : String} {r : Rule} (hr : r ∈ (s.ofGroup g).rules) : r.phaseOr phases.run = phaseOf g := by
  rw [rules_ofGroup] at hr
  obtain ⟨hr, hgroup⟩ := List.mem_filter.mp hr
  exact hp r hr g (by simpa using hgroup)

theorem InPhases.onePhaseEach {phaseOf : String → String} (hp : s.InPhases phases.run phaseOf)
    (hs : s.AllGrouped) : Pipeline.OnePhaseEach phases (collectBy Rule.group? s.rules) := by
  rw [hs.collectBy]
  intro group hgroup
  obtain ⟨g, hg, rfl⟩ := List.mem_map.mp hgroup
  obtain ⟨hne, hphase⟩ := hp.groupPhase_eq hg
  exact ⟨hne, fun r hr => (hp.phaseOr_eq hr).trans hphase.symm⟩

theorem checkGroups_built (s : RuleSet) : s.checkGroups.Built :=
  .both built_require (built_each fun _ _ => built_require)

theorem grouped_eq_ok : s.grouped = .ok t ↔ s.checkGroups.accepts ∧ t = s := by
  rw [← s.checkGroups_built.problems_eq_nil_iff, grouped, Check.result]
  cases s.checkGroups.problems with
  | nil => simp [eq_comm]
  | cons problem rest => simp

theorem accepts_checkGroups : s.checkGroups.accepts ↔
    ((s.rules.filter fun r => r.group?.isSome) = [] ∨
      (s.rules.filter fun r => r.group?.isSome).length = s.size) ∧
    ∀ g ∈ s.rules.filterMap Rule.group?, (s.phasesOfGroup g).length ≤ 1 := by
  rw [checkGroups, built_require.accepts_both (built_each fun _ _ => built_require),
    Bool.and_eq_true, accepts_each fun _ _ => built_require]
  simp [groups]

/-- Where groups have one phase each and their rules name it, a phase is given for each group. -/
theorem exists_inPhases (hs : s.checkGroups.accepts) (hr : ∀ r ∈ s.rules, r.check.accepts)
    (run : String) : ∃ phaseOf, s.InPhases run phaseOf := by
  have hphase : ∀ r ∈ s.rules, ∀ g, r.group? = some g → ∃ p, r.phase? = some p ∧
      p ∈ s.phasesOfGroup g := by
    intro r hmem g hg
    obtain ⟨hsome, -⟩ := Rule.accepts_check.mp (hr r hmem)
    obtain ⟨p, hp⟩ := Option.isSome_iff_exists.mp (show r.phase?.isSome by simpa [hg] using hsome)
    refine ⟨p, hp, mem_distinct.mpr (List.mem_filterMap.mpr ⟨r, ?_, hp⟩)⟩
    exact List.mem_filter.mpr ⟨hmem, by simp [hg]⟩
  refine ⟨fun g => (s.phasesOfGroup g).headD run, fun r hmem g hg => ?_⟩
  obtain ⟨p, hp, hmemp⟩ := hphase r hmem g hg
  have hle := (accepts_checkGroups.mp hs).2 g (List.mem_filterMap.mpr ⟨r, hmem, hg⟩)
  match hlist : s.phasesOfGroup g with
  | [] => simp [hlist] at hmemp
  | [q] =>
    obtain rfl : p = q := by simpa [hlist] using hmemp
    simp [Rule.phaseOr, hp, hlist]
  | _ :: _ :: _ => simp [hlist] at hle

theorem checkPhaseNames_built (phases : Phases) (s : RuleSet) : (s.checkPhaseNames phases).Built :=
  .both built_require built_require

theorem prepared_eq_ok : s.prepared phases = .ok t ↔
    phases.entry ∉ s.rulePhases ∧ phases.publish ∉ s.rulePhases ∧ s.resolveRules = .ok t := by
  have hnames : (s.checkPhaseNames phases).problems = [] ↔
      phases.entry ∉ s.rulePhases ∧ phases.publish ∉ s.rulePhases := by
    rw [(checkPhaseNames_built phases s).problems_eq_nil_iff, checkPhaseNames,
      built_require.accepts_both built_require]
    simp
  rw [prepared]
  split
  next hnil =>
    rw [← and_assoc, ← hnames]
    cases s.resolveRules <;> simp [Except.mapError, hnil]
  next problems hne =>
    rw [← and_assoc, ← hnames]
    exact iff_of_false nofun fun h => hne h.1

/-- What the checks before translation make of a ruleset. -/
structure Accepted (catalog : Option Catalog) (phases : Phases) (s imported ordered : RuleSet) :
    Prop where
  imports : s.imported catalog = .ok imported
  groups : imported.grouped = .ok imported
  prepares : imported.prepared phases = .ok ordered

/-- A ruleset passes the checks when there are no problems, no cycles among actions, one phase for
each group, no rule in an outer phase and no cycles among rules. -/
theorem accepted_of_checks (hproblems : (s.check catalog).problems = [])
    (hactions : s.resolveEach.2 = []) (ht : { s with entries := s.resolveEach.1 } = t)
    (hgroups : ((t.rules.filter fun r => r.group?.isSome) = [] ∨
      (t.rules.filter fun r => r.group?.isSome).length = t.size) ∧
      ∀ g ∈ t.rules.filterMap Rule.group?, (t.phasesOfGroup g).length ≤ 1)
    (hnames : phases.entry ∉ t.rulePhases ∧ phases.publish ∉ t.rulePhases)
    (hrules : t.ruleGraph.unresolvable = []) :
    Accepted catalog phases s t { t with entries := pick t.entries t.ruleGraph.order } where
  imports := imported_eq_ok.mpr ⟨hproblems, hactions, ht.symm⟩
  groups := grouped_eq_ok.mpr ⟨accepts_checkGroups.mpr hgroups, rfl⟩
  prepares := prepared_eq_ok.mpr ⟨hnames.1, hnames.2, resolveRules_eq_ok.mpr ⟨hrules, rfl⟩⟩

namespace Accepted

variable (h : Accepted catalog phases s imported ordered)
include h

theorem resolves : imported.resolveRules = .ok ordered := (prepared_eq_ok.mp h.prepares).2.2

/-- What the checks return, as a computation on the submitted ruleset. -/
theorem computed : imported = { s with entries := s.resolveEach.1 } ∧
    ordered = { imported with entries := pick imported.entries imported.ruleGraph.order } :=
  ⟨(imported_eq_ok.mp h.imports).2.2, (resolveRules_eq_ok.mp h.resolves).2⟩

theorem arranged : List.Forall₂ Rule.Arranged s.rules imported.rules :=
  (arranged_of_imported h.imports).2

theorem accepts_imported : ∀ r ∈ imported.rules, r.check.accepts := by
  intro r hr
  obtain ⟨r0, hr0, harranged⟩ := exists_of_forall₂ h.arranged hr
  exact harranged.accepts_check ((arranged_of_imported h.imports).1 r0 hr0)

theorem accepts : ∀ r ∈ ordered.rules, r.check.accepts := fun r hr =>
  h.accepts_imported r ((mem_rules_of_resolveRules h.resolves).mp hr)

theorem allGrouped_imported (hs : s.AllGrouped) : imported.AllGrouped := by
  intro r hr
  obtain ⟨r0, hr0, harranged⟩ := exists_of_forall₂ h.arranged hr
  rw [← harranged.group?_eq]
  exact hs r0 hr0

theorem allGrouped (hs : s.AllGrouped) : ordered.AllGrouped :=
  (h.allGrouped_imported hs).of_resolveRules h.resolves

theorem groupIds_eq (hs : s.AllGrouped) : ordered.groupIds = s.groupIds := by
  have hmap : s.rules.map Rule.group? = imported.rules.map Rule.group? := by
    rw [← List.forall₂_eq_eq_eq, List.forall₂_map_left_iff, List.forall₂_map_right_iff]
    exact h.arranged.imp fun _ _ harranged => harranged.group?_eq
  have hids (t : RuleSet) :
      t.rules.filterMap Rule.group? = (t.rules.map Rule.group?).filterMap id := by
    rw [List.filterMap_map, Function.id_comp]
  rw [(h.allGrouped_imported hs).groupIds_of_resolveRules h.resolves, groupIds, groupIds, hids,
    hids, hmap]

/-- A phase is given for each group, in which its rules are before and after the checks. -/
theorem exists_inPhases :
    ∃ phaseOf, s.InPhases phases.run phaseOf ∧ ordered.InPhases phases.run phaseOf := by
  obtain ⟨hgroups, -⟩ := grouped_eq_ok.mp h.groups
  obtain ⟨phaseOf, hphase⟩ := RuleSet.exists_inPhases hgroups h.accepts_imported phases.run
  refine ⟨phaseOf, fun r hr g hg => ?_, fun r hr => ?_⟩
  · obtain ⟨r1, hr1, harranged⟩ := exists_of_forall₂ h.arranged.flip hr
    have hg1 : r1.group? = some g := (Rule.Arranged.group?_eq harranged).symm.trans hg
    exact (Rule.Arranged.phaseOr_eq harranged phases.run).trans (hphase r1 hr1 g hg1)
  · exact hphase r ((mem_rules_of_resolveRules h.resolves).mp hr)

theorem exists_block : ∀ r ∈ ordered.rules, ∃ b, r.block phases = .ok b := fun r hr =>
  Rule.exists_block (h.accepts r hr) phases

/-- A rule of a group is in neither of the outer phases. -/
theorem phaseOr_ne (hs : s.AllGrouped) {r : Rule} (hr : r ∈ ordered.rules) :
    r.phaseOr phases.run ≠ phases.entry ∧ r.phaseOr phases.run ≠ phases.publish := by
  obtain ⟨hentry, hpublish, -⟩ := prepared_eq_ok.mp h.prepares
  obtain ⟨g, hg⟩ := Option.isSome_iff_exists.mp (h.allGrouped hs r hr)
  obtain ⟨hsome, -⟩ := Rule.accepts_check.mp (h.accepts r hr)
  obtain ⟨p, hp⟩ := Option.isSome_iff_exists.mp (show r.phase?.isSome by simpa [hg] using hsome)
  have hmem : p ∈ imported.rulePhases :=
    List.mem_filterMap.mpr ⟨r, (mem_rules_of_resolveRules h.resolves).mp hr, hp⟩
  rw [Rule.phaseOr, hp, Option.getD_some]
  constructor
  · rintro rfl
    exact hentry hmem
  · rintro rfl
    exact hpublish hmem

/-- The document of accepted groups: the blocks of their rules, linked, between the two outer ones,
whose phases are no others. -/
theorem exists_document (hs : s.AllGrouped) : ∃ blocks,
    Pipeline.ofRuleSet phases ordered = .ok (Pipeline.enclosed phases ordered.notify? blocks) ∧
    List.Forall₂ (Pipeline.Emits phases) (s.groupIds.flatMap fun g => (ordered.ofGroup g).rules)
      blocks ∧
    Pipeline.Linked [] blocks phases.run ∧
    ∀ q ∈ blocks.map PhaseBlock.phase, q ≠ phases.entry ∧ q ≠ phases.publish := by
  have hgrouped := h.allGrouped hs
  obtain ⟨phaseOf, -, hphase⟩ := h.exists_inPhases
  have hone := hphase.onePhaseEach hgrouped
  obtain ⟨p, hp⟩ := (Pipeline.exists_ofRuleSet_iff hgrouped).mpr h.exists_block
  obtain ⟨blocks, hblocks, rfl⟩ := (Pipeline.ofRuleSet_eq_ok hgrouped).mp hp
  rw [Pipeline.nextPhase_eq hone hblocks] at hp
  have hemits := Pipeline.chain_emits hblocks
  rw [hgrouped.collectBy, h.groupIds_eq hs, ← List.flatMap_def] at hemits
  refine ⟨blocks, hp, hemits, Pipeline.chain_linked hone hblocks, fun q hq => ?_⟩
  rw [Pipeline.map_phase_of_emits hemits, List.mem_map] at hq
  obtain ⟨r, hr, rfl⟩ := hq
  obtain ⟨g, -, hr⟩ := List.mem_flatMap.mp hr
  rw [rules_ofGroup] at hr
  exact h.phaseOr_ne hs (List.mem_of_mem_filter hr)

end Accepted

theorem document_eq_ok {json : Json} : s.document phases = .ok json ↔
    ∃ p, Pipeline.ofRuleSet phases s = .ok p ∧ Schema.pipeline p.toJson = [] ∧ json = p.toJson := by
  rw [document]
  cases Pipeline.ofRuleSet phases s with
  | error fault => simp
  | ok p =>
    dsimp only
    cases hviolations : Schema.pipeline p.toJson with
    | nil =>
      constructor
      · rintro ⟨⟩
        exact ⟨p, rfl, hviolations, rfl⟩
      · rintro ⟨_, ⟨⟩, -, rfl⟩
        rfl
    | cons violation rest =>
      refine iff_of_false nofun ?_
      rintro ⟨_, ⟨⟩, hnil, -⟩
      cases hviolations.symm.trans hnil

end RuleSet

/-- What a successful compilation has gone through. -/
theorem Compile.ruleSet_eq_ok {configured : Phases} {catalog : Option Catalog} {s : RuleSet}
    {json : Json} : (Compile.ruleSet configured catalog s).1 = .ok json ↔
      ∃ imported ordered,
        RuleSet.Accepted catalog (imported.effectivePhases configured) s imported ordered ∧
          ordered.document (imported.effectivePhases configured) = .ok json := by
  rw [Compile.ruleSet]
  constructor
  · intro h
    cases himported : s.imported catalog with
    | error problems => simp [himported] at h
    | ok imported =>
      cases hgrouped : imported.grouped with
      | error problems => simp [himported, hgrouped] at h
      | ok grouped =>
        obtain ⟨-, rfl⟩ := RuleSet.grouped_eq_ok.mp hgrouped
        cases hprepared : grouped.prepared (grouped.effectivePhases configured) with
        | error problems => simp [himported, hgrouped, hprepared] at h
        | ok ordered =>
          refine ⟨grouped, ordered, ⟨himported, hgrouped, hprepared⟩, ?_⟩
          cases hdocument : ordered.document (grouped.effectivePhases configured) with
          | error fault => simp [himported, hgrouped, hprepared, hdocument] at h
          | ok value =>
            simp only [himported, hgrouped, hprepared, hdocument] at h
            exact congrArg _ (Except.ok.inj h)
  · rintro ⟨imported, ordered, haccepted, hdocument⟩
    simp only [haccepted.imports, haccepted.groups, haccepted.prepares, hdocument]

end EventRules
