import EventRules.Proofs.RuleSet.Accepted

/-! What checks find, level by level. A check keeps what was found before it, puts its own problems
behind that in the order of the parts it looks at, and accepts when it has none; so a caller may go
by the answer or by the list. An import fails with the problems of the ruleset if there are any, and
otherwise with the cycles among the actions of its rules. -/
namespace EventRules

namespace Check

variable {check first second : Check} {problems others : List Problem} {α : Type}

/-- Whatever was found before, the check adds the problems at the end, and it accepts when there are
none. -/
def Finds (check : Check) (problems : List Problem) : Prop :=
  ∀ found, check found = (problems.isEmpty, found ++ problems)

/-- The problem, unless the requirement holds. -/
def faultUnless (holds : Bool) (problem : Problem) : List Problem := if holds then [] else [problem]

theorem Finds.problems_eq (h : check.Finds problems) : check.problems = problems := by
  unfold Check.problems
  rw [h [], List.nil_append]

theorem finds_pass : pass.Finds [] := by
  intro found
  simp [pass]

theorem finds_report (problem : Problem) : (report problem).Finds [problem] := fun _ => rfl

theorem finds_require (holds : Bool) (problem : Problem) :
    (require holds problem).Finds (faultUnless holds problem) := by
  unfold require faultUnless
  cases holds
  · exact finds_report problem
  · exact finds_pass

theorem Finds.both (hf : first.Finds problems) (hs : second.Finds others) :
    (Check.both first second).Finds (problems ++ others) := by
  intro found
  show ((first found).1 && (second (first found).2).1, (second (first found).2).2) = _
  rw [hf found, hs (found ++ problems), List.append_assoc]
  cases problems <;> rfl

theorem finds_each {check : α → Check} {problems : α → List Problem} (items : List α)
    (h : ∀ a ∈ items, (check a).Finds (problems a)) :
    (each check items).Finds (items.flatMap problems) := by
  induction items with
  | nil => exact finds_pass
  | cons a rest ih =>
    have hrest := ih fun b hb => h b (List.mem_cons_of_mem a hb)
    exact (h a List.mem_cons_self).both hrest

theorem Built.finds (h : check.Built) : check.Finds check.problems := by
  induction h with
  | pass => exact finds_pass
  | report problem => exact finds_report problem
  | both _ _ hf hs =>
    have hboth := hf.both hs
    rwa [hboth.problems_eq]

end Check

open Check

namespace Condition

theorem checkAll_finds (members : List Condition) :
    (checkAll members).Finds (members.flatMap fun c => c.check.problems) := by
  induction members with
  | nil => exact finds_pass
  | cons c rest ih => exact c.check_built.finds.both ih

/-- A group finds what is wrong with itself, and then what its members find. -/
theorem check_group_finds (label : NodeLabel) (typeName : String) (members : List Condition) :
    (group label typeName members).check.Finds
      (faultUnless (GroupKind.ofName? typeName).isSome (.unknownGroup typeName) ++
        (faultUnless (!members.isEmpty) .emptyGroup ++
          members.flatMap fun c => c.check.problems)) :=
  (finds_require _ _).both ((finds_require _ _).both (checkAll_finds members))

end Condition

namespace Rule

variable {r : Rule}

theorem checkActions_finds (r : Rule) :
    (if r.actions.isEmpty then report .noActions else each Action.check r.actions).Finds
      (faultUnless (!r.actions.isEmpty) .noActions ++
        r.actions.flatMap fun a => a.check.problems) := by
  cases r.actions with
  | nil => exact finds_report .noActions
  | cons a rest => exact finds_each (a :: rest) fun b _ => b.check_built.finds

/-- A rule finds what is wrong with itself, then what its actions find, then what its condition
does. -/
theorem check_finds (r : Rule) :
    r.check.Finds
      (faultUnless (r.group?.isNone || r.phase?.isSome) .groupWithoutPhase ++
        (faultUnless (isFilled r.description) .noDescription ++
          (faultUnless (!r.actions.isEmpty) .noActions ++
              r.actions.flatMap (fun a => a.check.problems) ++
            r.condition.toList.flatMap fun c => c.check.problems))) := by
  have hcondition : (both ((r.condition.map Condition.check).getD pass) pass).Finds
      (r.condition.toList.flatMap fun c => c.check.problems) := by
    cases r.condition with
    | none => exact finds_pass.both finds_pass
    | some c => exact c.check_built.finds.both finds_pass
  have hactions := r.checkActions_finds
  exact (finds_require _ _).both ((finds_require _ _).both (hactions.both hcondition))

/-- Some actions of the rule depend on each other in a circle. -/
def Cyclic (r : Rule) : Prop := ∃ i, OnCycle (Depends Action.dependsOn r.actions) i

theorem cyclic_iff : r.Cyclic ↔ r.actionGraph.unresolvable ≠ [] := by
  unfold Cyclic actionGraph
  rw [ne_eq, unresolvable_eq_nil_iff, not_forall_not]

instance (r : Rule) : Decidable r.Cyclic := decidable_of_iff _ cyclic_iff.symm

/-- The problem of a rule with a circle: the fields of the actions that lead into one. -/
def cycleProblem (r : Rule) : Problem :=
  .actionCycle (distinctFields ((pick r.actions r.actionGraph.unresolvable).map Action.field))

theorem resolveActions_eq_error_iff {problem : Problem} :
    r.resolveActions = .error problem ↔ r.Cyclic ∧ problem = r.cycleProblem := by
  rw [resolveActions_eq_error, cyclic_iff, cycleProblem]

end Rule

namespace RuleSet

variable {catalog : Option Catalog} {s : RuleSet} {problems : List Problem}

/-- The declared schemas that the catalog does not hold, if there is a catalog. -/
def unknownSchemas (catalog : Option Catalog) (s : RuleSet) : List Problem :=
  catalog.toList.flatMap fun c => (distinct (s.rules.filterMap s.schemaOf?)).flatMap fun schema =>
    faultUnless (c.contains schema.1 schema.2) (.unknownSchema schema.1 schema.2)

/-- The outer phases that several rules declare by one name. -/
def repeatedPhases (s : RuleSet) : List Problem :=
  (repeated (s.rules.filterMap Rule.entry?)).map (.repeatedPhase .entry) ++
    (repeated (s.rules.filterMap Rule.publish?)).map (.repeatedPhase .publish)

/-- All that is wrong with a ruleset that has rules. -/
def findings (catalog : Option Catalog) (s : RuleSet) : List Problem :=
  s.rules.flatMap (fun r => r.check.problems) ++ (s.unknownSchemas catalog ++ s.repeatedPhases)

/-- The problems of the rules whose actions depend on each other. -/
def cycles (s : RuleSet) : List Problem := (s.rules.filter (·.Cyclic)).map Rule.cycleProblem

theorem checkDeclarations_finds (role : OuterPhase) (declared : Rule → Option String)
    (s : RuleSet) : (s.checkDeclarations role declared).Finds
      ((repeated (s.rules.filterMap declared)).map (.repeatedPhase role)) := by
  rw [List.map_eq_flatMap]
  exact finds_each _ fun name _ => finds_report _

/-- A ruleset with rules finds what its rules find, then what its catalog and its declarations
do. -/
theorem check_finds (hs : s.entries ≠ []) (catalog : Option Catalog) :
    (s.check catalog).Finds (s.findings catalog) := by
  have hempty : ¬ s.entries.isEmpty = true := by simpa using hs
  have hschemas : ((catalog.map fun c => s.checkSchemas c).getD pass).Finds
      (s.unknownSchemas catalog) := by
    cases catalog with
    | none => exact finds_pass
    | some c =>
      have heach := finds_each (distinct (s.rules.filterMap s.schemaOf?)) fun schema _ =>
        finds_require (c.contains schema.1 schema.2) (.unknownSchema schema.1 schema.2)
      unfold unknownSchemas
      rwa [Option.toList_some, List.flatMap_singleton]
  have hphases := (checkDeclarations_finds .entry Rule.entry? s).both
    ((checkDeclarations_finds .publish Rule.publish? s).both finds_pass)
  rw [List.append_nil] at hphases
  have hrules := finds_each s.rules fun r _ => r.check_built.finds
  unfold check
  rw [if_neg hempty]
  exact hrules.both (hschemas.both hphases)

theorem resolveEach_problems (entries : List (String × Rule)) :
    ({ s with entries } : RuleSet).resolveEach.2 = ({ s with entries } : RuleSet).cycles := by
  induction entries with
  | nil => rfl
  | cons entry rest ih =>
    unfold resolveEach cycles at ih ⊢
    simp only [rules, List.foldr_cons, List.map_cons] at ih ⊢
    cases hr : entry.2.resolveActions with
    | ok rule =>
      have hcyclic : ¬ entry.2.Cyclic := fun h => by
        rw [Rule.resolveActions_eq_error_iff.mpr ⟨h, rfl⟩] at hr
        cases hr
      simpa [hcyclic] using ih
    | error problem =>
      obtain ⟨hcyclic, rfl⟩ := Rule.resolveActions_eq_error_iff.mp hr
      simpa [hcyclic] using ih

/-- An import fails with what the check finds, or else with the cycles. -/
theorem imported_eq_error (hs : s.entries ≠ []) : s.imported catalog = .error problems ↔
    problems ≠ [] ∧
      problems = if s.findings catalog = [] then s.cycles else s.findings catalog := by
  have hproblems := (check_finds hs catalog).problems_eq
  have hcycles : s.resolveEach.2 = s.cycles := resolveEach_problems (s := s) s.entries
  unfold imported
  rw [hproblems]
  cases hf : s.findings catalog with
  | cons problem rest =>
    simp only [reduceCtorEq, if_false, Except.error.injEq]
    grind
  | nil =>
    rw [if_pos rfl, ← hcycles]
    rcases heach : s.resolveEach with ⟨entries, _ | ⟨problem, rest⟩⟩
    · simp
    · simp only [Except.error.injEq]
      grind

end RuleSet

end EventRules
