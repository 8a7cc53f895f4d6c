import EventRules.Action.Check
import Mathlib.Data.List.Basic

/-! Checks add to what was found before them and never look at it, and they accept when they find
nothing; an accepted action passes each of its parts, and its keys and values are filled. -/
namespace EventRules

namespace Check

/-- The check finds the same whatever was found before, and puts it at the end. -/
def Additive (check : Check) : Prop :=
  ∀ found, check found = (check.accepts, found ++ check.problems)

/-- The check is put together from reports, one after another. -/
inductive Built : Check → Prop
  | pass : Built pass
  | report (problem : Problem) : Built (report problem)
  | both {first second : Check} (hf : Built first) (hs : Built second) : Built (both first second)

variable {check first second : Check} {checks : List Check} {holds : Bool} {problem : Problem}

theorem Additive.both_apply (hf : first.Additive) (hs : second.Additive) (found : List Problem) :
    both first second found =
      (first.accepts && second.accepts, found ++ (first.problems ++ second.problems)) := by
  simp [both, hf found, hs (found ++ first.problems)]

theorem Built.additive (h : check.Built) : check.Additive := by
  induction h with
  | pass => exact fun found => by simp [Check.pass, accepts, problems]
  | report problem => exact fun found => by simp [Check.report, accepts, problems]
  | both _ _ hf hs =>
    intro found
    simp only [accepts, problems, hf.both_apply hs, List.nil_append]

theorem built_require : (require holds problem).Built := by
  rw [require]
  split
  · exact .pass
  · exact .report problem

theorem built_all (h : ∀ check ∈ checks, check.Built) : (all checks).Built := by
  induction checks with
  | nil => exact .pass
  | cons check rest ih => exact .both (h check (by simp)) (ih fun c hc => h c (by simp [hc]))

theorem built_each {α : Type} {check : α → Check} {items : List α}
    (h : ∀ a ∈ items, (check a).Built) : (each check items).Built :=
  built_all (by simpa using h)

@[simp] theorem accepts_pass : pass.accepts = true := rfl

@[simp] theorem problems_pass : pass.problems = [] := rfl

@[simp] theorem accepts_require : (require holds problem).accepts = holds := by
  cases holds <;> rfl

theorem Built.accepts_both (hf : first.Built) (hs : second.Built) :
    (Check.both first second).accepts = (first.accepts && second.accepts) := by
  rw [accepts, hf.additive.both_apply hs.additive]

theorem Built.problems_both (hf : first.Built) (hs : second.Built) :
    (Check.both first second).problems = first.problems ++ second.problems := by
  rw [problems, hf.additive.both_apply hs.additive, List.nil_append]

/-- A check accepts when it finds nothing. -/
theorem Built.problems_eq_nil_iff (h : check.Built) : check.problems = [] ↔ check.accepts := by
  induction h with
  | pass => simp
  | report problem => simp [Check.report, accepts, problems]
  | both hf hs ihf ihs => rw [hf.problems_both hs, hf.accepts_both hs, List.append_eq_nil_iff, ihf,
      ihs, Bool.and_eq_true]

theorem accepts_all (h : ∀ check ∈ checks, check.Built) :
    (all checks).accepts = true ↔ ∀ check ∈ checks, check.accepts := by
  induction checks with
  | nil => simp [all]
  | cons check rest ih =>
    have hrest : ∀ c ∈ rest, c.Built := fun c hc => h c (by simp [hc])
    have hall : (all (check :: rest)).accepts = (check.accepts && (all rest).accepts) :=
      (h check (by simp)).accepts_both (built_all hrest)
    simp [hall, ih hrest]

theorem accepts_each {α : Type} {check : α → Check} {items : List α}
    (h : ∀ a ∈ items, (check a).Built) :
    (each check items).accepts = true ↔ ∀ a ∈ items, (check a).accepts := by
  rw [each, accepts_all (by simpa using h), List.forall_mem_map]

end Check

open Check

namespace Comparison

theorem check_built (c : Comparison) : c.check.Built := built_all (by simp [built_require])

theorem operator?_isSome_of_accepts {c : Comparison} (h : c.check.accepts) :
    c.operator?.isSome := by
  rw [check, accepts_all (by simp [built_require])] at h
  simpa using h (.require c.operator?.isSome (.unknownOperator c.shownOperator)) (by simp)

end Comparison

theorem isFilled_ne_empty {s : String} (h : isFilled s) : s ≠ "" := by
  rintro rfl
  simp [isFilled, Text.isBlank] at h

namespace Action

variable (a : Action)

theorem requireField_built (value field : String) : (a.requireField value field).Built :=
  built_require

theorem checkEntries_built (entries : List KeyValue) : (a.checkEntries entries).Built :=
  .both built_require built_require

theorem checkTable_built (table : ValueTable) : (a.checkTable table).Built := by
  refine .both ?_ built_require
  split
  · exact built_require
  · exact a.checkEntries_built table.entries

theorem checkOutcome_built (search : TopologySearch) : (a.checkOutcome search).Built := by
  rw [checkOutcome]
  split
  · exact built_require
  · split
    · exact .report _
    · exact a.checkEntries_built search.updates

theorem checkFilter_built (search : TopologySearch) :
    ((search.activeFilter?.map Comparison.check).getD pass).Built := by
  cases search.activeFilter? with
  | none => exact .pass
  | some c => exact c.check_built

theorem checkSearch_parts (search : TopologySearch) : ∀ check ∈ [a.requireField search.field
    "search field", a.requireField search.value "search value",
      (search.activeFilter?.map Comparison.check).getD pass, a.checkOutcome search],
    check.Built := by
  simp [requireField_built, checkFilter_built, checkOutcome_built]

theorem checkEffect_built : a.checkEffect.Built := by
  rw [checkEffect]
  cases a.effect with
  | map source table => exact .both (a.requireField_built _ _) (a.checkTable_built table)
  | formatDate source format => exact built_all (by simp [requireField_built])
  | replaceText source replacement => exact built_all (by simp [requireField_built])
  | changeCase change => exact .both (a.requireField_built _ _) (a.requireField_built _ _)
  | searchTopology search => exact built_all (a.checkSearch_parts search)
  | _ => exact built_require

theorem checkTarget_built : a.checkTarget.Built := built_require

theorem check_built : a.check.Built := .both a.checkTarget_built a.checkEffect_built

theorem accepts_check : a.check.accepts = (a.checkTarget.accepts && a.checkEffect.accepts) :=
  a.checkTarget_built.accepts_both a.checkEffect_built

variable {a}

theorem checkEffect_of_accepts (h : a.check.accepts) : a.checkEffect.accepts := by
  rw [accepts_check, Bool.and_eq_true] at h
  exact h.2

/-- The keys and values submitted with an action: the table of a map, or the updates of a search
that does not enrich. -/
def entries (a : Action) : List KeyValue :=
  match a.effect with
  | .map _ table => table.entries
  | .searchTopology search => if search.enriches then [] else search.updates
  | _ => []

theorem accepts_checkEntries {entries : List KeyValue} : (a.checkEntries entries).accepts ↔
    (∀ e ∈ entries, isFilled e.key ∧ isFilled e.value) ∧ (entries.map KeyValue.key).Nodup := by
  rw [checkEntries, Check.built_require.accepts_both Check.built_require]
  simp

theorem accepts_checkTable {table : ValueTable} (h : (a.checkTable table).accepts) :
    (∀ e ∈ table.entries, isFilled e.key ∧ isFilled e.value) ∧
      (table.entries.map KeyValue.key).Nodup := by
  by_cases hempty : table.entries = []
  · simp [hempty]
  · have hnot : ¬ table.entries.isEmpty := by simpa using hempty
    rw [checkTable, if_neg hnot, (a.checkEntries_built _).accepts_both Check.built_require,
      Bool.and_eq_true] at h
    exact accepts_checkEntries.mp h.1

/-- The entries of an accepted action are filled, and their keys are different. -/
theorem entries_of_accepts (h : a.check.accepts) :
    (∀ e ∈ a.entries, isFilled e.key ∧ isFilled e.value) ∧ (a.entries.map KeyValue.key).Nodup := by
  have heff := checkEffect_of_accepts h
  unfold checkEffect at heff
  unfold entries
  cases heffect : a.effect with
  | map source table =>
    rw [heffect, (a.requireField_built _ _).accepts_both (a.checkTable_built table),
      Bool.and_eq_true] at heff
    exact accepts_checkTable heff.2
  | searchTopology search =>
    rw [heffect] at heff
    have houtcome : (a.checkOutcome search).accepts :=
      (Check.accepts_all (a.checkSearch_parts search)).mp heff _ (by simp)
    by_cases hmode : search.enriches
    · simp [hmode]
    · by_cases hempty : search.updates = []
      · simp [hempty]
      · have hnot : ¬ search.updates.isEmpty := by simpa using hempty
        rw [checkOutcome, if_neg hmode, if_neg hnot] at houtcome
        simpa [hmode] using accepts_checkEntries.mp houtcome
  | _ => simp

/-- The keys of an accepted action are different and filled. -/
theorem keys_of_accepts (h : a.check.accepts) :
    (a.entries.map KeyValue.key).Nodup ∧ "" ∉ a.entries.map KeyValue.key := by
  obtain ⟨hfilled, hnodup⟩ := entries_of_accepts h
  refine ⟨hnodup, fun hempty => ?_⟩
  obtain ⟨e, he, hkey⟩ := List.mem_map.mp hempty
  exact isFilled_ne_empty (hfilled e he).1 hkey

/-- Where the kind of an accepted action needs a target, it is neither empty nor the sentinel. -/
theorem target_of_accepts (h : a.check.accepts) (hkind : a.kind.allowsNoTarget = false) :
    a.target ≠ "" ∧ a.target ≠ emptySentinel := by
  rw [accepts_check, checkTarget, Check.accepts_require, hkind, Bool.false_or, targetFilled] at h
  simp only [Bool.and_eq_true, decide_eq_true_eq] at h
  obtain ⟨⟨hfilled, htrim⟩, -⟩ := h
  refine ⟨isFilled_ne_empty hfilled, fun htarget => htrim ?_⟩
  rw [htarget]
  decide

end Action
end EventRules
