import EventRules.CommandLine.Run
import EventRules.Proofs.Payload.RoundTrip
import EventRules.Proofs.RuleSet.Findings

/-! Validating a payload against compiling it. Both put a payload through the checks of an import. A
ruleset goes through the same ones in both; a rule alone is not looked up in the catalog when it is
only validated, so the two agree on it just when the catalog has nothing to say. -/
namespace EventRules

open Check

variable {catalog : Option Catalog} {fresh : String} {problems : List Problem}

theorem map_eq_error {ε α β : Type} {x : Except ε α} {f : α → β} {e : ε} :
    x.map f = .error e ↔ x = .error e := by
  cases x <;> simp [Except.map]

namespace Rule

variable {r : Rule}

/-- The version and the event type that the rule declares by itself. -/
def schema? (r : Rule) : Option (String × String) := ({} : RuleSet).schemaOf? r

/-- The catalog, if there is one, holds the schema of the rule, if it declares one. -/
def SchemaKnown (catalog : Option Catalog) (r : Rule) : Prop :=
  ∀ c ∈ catalog, ∀ schema ∈ r.schema?, c.contains schema.1 schema.2

/-- The problem of a schema that the catalog does not hold. -/
def unknownSchema (catalog : Option Catalog) (r : Rule) : List Problem :=
  catalog.toList.flatMap fun c => r.schema?.toList.flatMap fun schema =>
    faultUnless (c.contains schema.1 schema.2) (.unknownSchema schema.1 schema.2)

theorem unknownSchema_eq_nil_iff : r.unknownSchema catalog = [] ↔ r.SchemaKnown catalog := by
  unfold unknownSchema SchemaKnown faultUnless
  cases catalog with
  | none => simp
  | some c => cases r.schema? <;> simp

theorem mem_unknownSchema {problem : Problem} (h : problem ∈ r.unknownSchema catalog) :
    ∃ version eventType, problem = .unknownSchema version eventType := by
  simp only [unknownSchema, faultUnless, List.mem_flatMap, List.mem_ite_nil_left,
    List.mem_singleton] at h
  obtain ⟨-, -, schema, -, -, rfl⟩ := h
  exact ⟨schema.1, schema.2, rfl⟩

theorem exists_identified_eq (fresh : String) (r : Rule) :
    ∃ uid, r.identified fresh = { r with uid } := by
  unfold identified
  split
  · exact ⟨fresh, rfl⟩
  · exact ⟨r.uid, rfl⟩

/-- The problem of a rule whose actions have no order. -/
def cycles (r : Rule) : List Problem := if r.Cyclic then [r.cycleProblem] else []

/-- A rule alone fails with what its check finds, or else with its cycle. -/
theorem validated_eq_error : r.validated = .error problems ↔
    problems ≠ [] ∧ problems = if r.check.problems = [] then r.cycles else r.check.problems := by
  unfold validated
  cases r.check.problems with
  | cons problem rest =>
    simp only [reduceCtorEq, if_false, Except.error.injEq]
    grind
  | nil =>
    unfold cycles
    rw [if_pos rfl]
    cases hr : r.resolveActions with
    | ok rule =>
      have hcyclic : ¬ r.Cyclic := fun h => by
        rw [resolveActions_eq_error_iff.mpr ⟨h, rfl⟩] at hr
        cases hr
      simp [Except.mapError, hcyclic]
    | error problem =>
      obtain ⟨hcyclic, rfl⟩ := resolveActions_eq_error_iff.mp hr
      simp only [Except.mapError, hcyclic, if_true, Except.error.injEq]
      grind

end Rule

namespace RuleSet

variable {s t : RuleSet}

/-- The checks that every compilation starts with: those of the import, then those of the groups. -/
def admitted (catalog : Option Catalog) (s : RuleSet) : Except (List Problem) RuleSet :=
  (s.imported catalog).bind grouped

/-- A compilation fails with what these checks find. -/
theorem compile_of_admitted (h : s.admitted catalog = .error problems) (configured : Phases) :
    (Compile.ruleSet configured catalog s).1 = .error (.rejected problems) := by
  unfold admitted at h
  unfold Compile.ruleSet
  cases himported : s.imported catalog with
  | error found =>
    rw [himported] at h
    obtain rfl := Except.error.inj h
    rfl
  | ok t =>
    rw [himported] at h
    have hgrouped : t.grouped = .error problems := h
    simp only [hgrouped]

/-- The groups of a ruleset of one rule are never at fault. -/
theorem grouped_single {entry : String × Rule} (h : s.entries = [entry]) : s.grouped = .ok s := by
  have hrules : s.rules = [entry.2] := by
    unfold rules
    rw [h]
    rfl
  refine grouped_eq_ok.mpr ⟨accepts_checkGroups.mpr ⟨?_, fun g _ => ?_⟩, rfl⟩
  · rw [hrules, size, h]
    cases hgroup : entry.2.group? <;> simp [hgroup]
  · unfold phasesOfGroup
    rw [hrules]
    rw [List.filter_singleton]
    cases entry.2.group? == some g with
    | false => exact Nat.zero_le 1
    | true =>
      show (distinct ([entry.2].filterMap Rule.phase?)).length ≤ 1
      cases hphase : entry.2.phase? <;> simp [hphase, distinct]

/-- So a ruleset of one rule fails as its import does. -/
theorem admitted_single {entry : String × Rule} (h : s.entries = [entry]) :
    s.admitted catalog = s.imported catalog := by
  unfold admitted
  cases himported : s.imported catalog with
  | error found => rfl
  | ok t =>
    obtain ⟨other, rest, -, hrest, hentries⟩ :=
      List.forall₂_cons_left_iff.mp (h ▸ imports_of_imported himported)
    rw [List.forall₂_nil_left_iff.mp hrest] at hentries
    exact grouped_single hentries

end RuleSet

namespace Payload

variable {p : Payload} {r : Rule}

/-- A rule alone becomes a ruleset of one rule that takes over its schema. -/
theorem toRuleSet_rule (fresh : String) (r : Rule) : (rule r).toRuleSet fresh =
    { version := r.version, eventType := r.eventType,
      entries := [((r.identified fresh).uid, r.identified fresh)] } := rfl

theorem schemaOf?_rule (fresh : String) (r : Rule) :
    ((rule r).toRuleSet fresh).schemaOf? (r.identified fresh) = r.schema? := by
  obtain ⟨uid, hr⟩ := r.exists_identified_eq fresh
  have hblank : Text.nonBlank none = none := rfl
  rw [toRuleSet_rule, hr]
  simp only [Rule.schema?, RuleSet.schemaOf?, Option.or_self, hblank, Option.or_none]

theorem findings_rule (fresh : String) (r : Rule) (catalog : Option Catalog) :
    ((rule r).toRuleSet fresh).findings catalog =
      r.check.problems ++ r.unknownSchema catalog := by
  have hrules : ((rule r).toRuleSet fresh).rules = [r.identified fresh] := rfl
  have hcheck : (r.identified fresh).check = r.check := by
    obtain ⟨uid, hr⟩ := r.exists_identified_eq fresh
    rw [hr]
    rfl
  have hschemas : ((rule r).toRuleSet fresh).unknownSchemas catalog = r.unknownSchema catalog := by
    unfold RuleSet.unknownSchemas Rule.unknownSchema
    rw [hrules, ← schemaOf?_rule fresh r]
    cases hschema : ((rule r).toRuleSet fresh).schemaOf? (r.identified fresh) <;>
      simp [hschema, distinct]
  have hrepeated (declared : Rule → Option String) :
      repeated ([r.identified fresh].filterMap declared) = [] := by
    cases hdeclared : declared (r.identified fresh) <;> simp [hdeclared, repeated, distinct]
  unfold RuleSet.findings RuleSet.repeatedPhases
  rw [hrules, hschemas, hrepeated, hrepeated, List.flatMap_singleton, hcheck]
  simp

theorem cycles_rule (fresh : String) (r : Rule) : ((rule r).toRuleSet fresh).cycles = r.cycles := by
  obtain ⟨uid, hr⟩ := r.exists_identified_eq fresh
  have hcyclic : ({ r with uid } : Rule).Cyclic ↔ r.Cyclic := Iff.rfl
  have hproblem : ({ r with uid } : Rule).cycleProblem = r.cycleProblem := rfl
  show ([r.identified fresh].filter (·.Cyclic)).map Rule.cycleProblem = r.cycles
  unfold Rule.cycles
  rw [hr]
  by_cases h : r.Cyclic <;> simp [hcyclic, hproblem, h]

/-- A rule alone fails to compile with what its check and the catalog find, or else with its
cycle. -/
theorem admitted_eq_error : ((rule r).toRuleSet fresh).admitted catalog = .error problems ↔
    problems ≠ [] ∧ problems = if r.check.problems ++ r.unknownSchema catalog = [] then r.cycles
      else r.check.problems ++ r.unknownSchema catalog := by
  rw [RuleSet.admitted_single rfl, RuleSet.imported_eq_error (List.cons_ne_nil _ _), findings_rule,
    cycles_rule]

/-- A payload is validated and compiled to the same end: both accept it, or both fail with the same
problems. -/
def Agrees (fresh : String) (catalog : Option Catalog) (p : Payload) : Prop :=
  ((∃ value, CommandLine.validated catalog p = .ok value) ↔
    ∃ s, (p.toRuleSet fresh).admitted catalog = .ok s) ∧
  ∀ problems, CommandLine.validated catalog p = .error problems ↔
    (p.toRuleSet fresh).admitted catalog = .error problems

/-- A rule alone declares no schema that the catalog does not hold. -/
def SchemaKnown (catalog : Option Catalog) : Payload → Prop
  | .rule r => r.SchemaKnown catalog
  | .ruleSet _ => True

/-- It is enough to look at the failures. -/
theorem agrees_iff : p.Agrees fresh catalog ↔
    ∀ problems, CommandLine.validated catalog p = .error problems ↔
      (p.toRuleSet fresh).admitted catalog = .error problems := by
  refine ⟨fun h => h.2, fun h => ⟨?_, h⟩⟩
  cases hvalidated : CommandLine.validated catalog p with
  | error problems => simp [(h problems).mp hvalidated]
  | ok value =>
    cases hadmitted : (p.toRuleSet fresh).admitted catalog with
    | error problems => cases hvalidated.symm.trans ((h problems).mpr hadmitted)
    | ok s => simp

theorem validated_ruleSet_eq_error {s : RuleSet} :
    CommandLine.validated catalog (.ruleSet s) = .error problems ↔
      s.admitted catalog = .error problems := by
  rw [CommandLine.validated, RuleSet.admitted]
  cases s.imported catalog with
  | error found => simp [Except.bind]
  | ok t => exact map_eq_error

theorem validated_rule_eq_error : CommandLine.validated catalog (.rule r) = .error problems ↔
    problems ≠ [] ∧ problems = if r.check.problems = [] then r.cycles else r.check.problems := by
  rw [CommandLine.validated, map_eq_error, Rule.validated_eq_error]

theorem agrees_rule_iff : (rule r).Agrees fresh catalog ↔ r.SchemaKnown catalog := by
  rw [agrees_iff, ← Rule.unknownSchema_eq_nil_iff]
  simp only [validated_rule_eq_error, admitted_eq_error]
  constructor
  · intro h
    by_contra hne
    obtain ⟨-, hends⟩ := (h (r.check.problems ++ r.unknownSchema catalog)).mpr (by simp [hne])
    by_cases hcheck : r.check.problems = []
    · rw [if_pos hcheck, hcheck, List.nil_append] at hends
      unfold Rule.cycles at hends
      split at hends
      · obtain ⟨_, _, hproblem⟩ := Rule.mem_unknownSchema (hends ▸ List.mem_singleton_self _)
        cases hproblem
      · exact hne hends
    · rw [if_neg hcheck] at hends
      exact hne (List.append_right_eq_self.mp hends)
  · intro h problems
    rw [h, List.append_nil]

/-- The two ways of checking agree unless a rule alone declares a schema that the catalog lacks. -/
theorem agrees_iff_schemaKnown : p.Agrees fresh catalog ↔ p.SchemaKnown catalog := by
  cases p with
  | rule r => exact agrees_rule_iff
  | ruleSet s => exact iff_of_true (agrees_iff.mpr fun _ => validated_ruleSet_eq_error) trivial

end Payload

/-- Validating a payload agrees with the checks that compiling it starts with, in what is accepted
and in the problems that are reported, exactly when it is a ruleset or a rule whose schema, if it
declares one, is in the catalog, if there is one. Validating a rule alone reports the problems of
the rule, or else that of its cycle, whatever the catalog; compiling it reports the problems of the
rule with that of its schema behind them, or else that of its cycle. What the checks report is what
a compilation is rejected with. -/
theorem validation_agrees_exact (fresh : String) (catalog : Option Catalog) :
    (∀ p : Payload, p.Agrees fresh catalog ↔ p.SchemaKnown catalog) ∧
    (∀ (r : Rule) (problems : List Problem),
      (CommandLine.validated catalog (.rule r) = .error problems ↔ problems ≠ [] ∧
        problems = if r.check.problems = [] then r.cycles else r.check.problems) ∧
      (((Payload.rule r).toRuleSet fresh).admitted catalog = .error problems ↔ problems ≠ [] ∧
        problems = if r.check.problems ++ r.unknownSchema catalog = [] then r.cycles
          else r.check.problems ++ r.unknownSchema catalog)) ∧
    ∀ (s : RuleSet) (problems : List Problem), s.admitted catalog = .error problems →
      ∀ configured, (Compile.ruleSet configured catalog s).1 = .error (.rejected problems) :=
  ⟨fun _ => Payload.agrees_iff_schemaKnown,
    fun _ _ => ⟨Payload.validated_rule_eq_error, Payload.admitted_eq_error⟩,
    fun _ _ h configured => RuleSet.compile_of_admitted h configured⟩

/-- A rule with a version that is not in the catalog is valid, and does not compile. -/
theorem validation_misses_schema :
    let r : Rule :=
      { uid := "u", description := "d", actions := [.copy "A" "1"], version := some "5.0",
        eventType := some "t" }
    let catalog : Option Catalog := some { versions := [("4.1", [("t", [])])] }
    CommandLine.validated catalog (.rule r) = .ok r.toJson ∧
      ((Payload.rule r).toRuleSet "").admitted catalog = .error [.unknownSchema "5.0" "t"] ∧
      ¬ (Payload.rule r).Agrees "" catalog := by
  intro r catalog
  have hactions : r.resolveActions = .ok r := Rule.resolveActions_eq_ok.mpr ⟨by decide +kernel, rfl⟩
  have hvalidated := Rule.validated_eq_ok.mpr ⟨by decide +kernel, hactions⟩
  have hvalid : CommandLine.validated catalog (.rule r) = .ok r.toJson :=
    map_eq_ok.mpr ⟨r, hvalidated, rfl⟩
  have hunknown : r.check.problems ++ r.unknownSchema catalog = [.unknownSchema "5.0" "t"] := by
    decide +kernel
  have hadmitted : ((Payload.rule r).toRuleSet "").admitted catalog =
      .error [.unknownSchema "5.0" "t"] := by
    refine Payload.admitted_eq_error.mpr ⟨List.cons_ne_nil _ _, ?_⟩
    rw [hunknown, if_neg (List.cons_ne_nil _ _)]
  refine ⟨hvalid, hadmitted, fun h => ?_⟩
  obtain ⟨s, hs⟩ := h.1.mp ⟨_, hvalid⟩
  cases hadmitted.symm.trans hs

end EventRules
