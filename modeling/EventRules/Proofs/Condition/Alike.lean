import EventRules.Proofs.Check.Agreement
import EventRules.Proofs.Filter.Truth

/-! Conditions that differ in their labels and in how the names of operators and groups are
written. They read the same, are accepted together, and have the same filter. -/
namespace EventRules

open Check

theorem Text.isBlank_eq_of_normalizeName {s t : String} (h : normalizeName s = normalizeName t) :
    isBlank s = isBlank t := by
  have hblank (u : String) : isBlank u = true ↔ normalizeName u = "" := by
    simp [isBlank, normalizeName, List.all_eq_true, String.ext_iff]
  rw [Bool.eq_iff_iff, hblank, hblank, h]

theorem Operator.ofName?_eq {written written' : String}
    (h : Text.normalizeName written = Text.normalizeName written') :
    ofName? written = ofName? written' := by
  unfold ofName?
  rw [h]

theorem GroupKind.ofName?_eq {written written' : String}
    (h : Text.normalizeName written = Text.normalizeName written') :
    ofName? written = ofName? written' := by
  unfold ofName?
  rw [h]

namespace Comparison

/-- The comparisons have the same operands and the same operator, which may be written in two ways.
Their labels are free. -/
structure Alike (c d : Comparison) : Prop where
  left : c.left = d.left
  right : c.right = d.right
  operator : c.operator? = d.operator?
  blank : Text.isBlank c.operatorName = Text.isBlank d.operatorName

/-- The letter case and the blanks in the name of an operator are free. -/
theorem alike_of_spelling {label label' : NodeLabel} {left name name' : String}
    {right : List String} (h : Text.normalizeName name = Text.normalizeName name') :
    (⟨label, left, name, right⟩ : Comparison).Alike ⟨label', left, name', right⟩ where
  left := rfl
  right := rfl
  operator := Operator.ofName?_eq h
  blank := Text.isBlank_eq_of_normalizeName h

namespace Alike

variable {c d : Comparison} (h : c.Alike d)
include h

theorem isBlank_eq : c.isBlank = d.isBlank := by
  unfold isBlank
  rw [h.left, h.right, h.blank]

theorem sources_eq : c.sources = d.sources := by
  unfold sources
  rw [h.left, h.right]

theorem check_agrees : c.check.Agrees d.check := by
  have hleft : (!Text.isBlank c.left) = !Text.isBlank d.left := by rw [h.left]
  have hoperator : c.operator?.isSome = d.operator?.isSome := by rw [h.operator]
  have hright : c.rightFilled = d.rightFilled := by
    unfold rightFilled
    rw [h.operator, h.right]
  apply agrees_all
  exact .cons (agrees_require hleft)
    (.cons (agrees_require hoperator) (.cons (agrees_require hright) .nil))

theorem filter_eq_ok {f : Filter} : c.filter = .ok f ↔ d.filter = .ok f := by
  have hwith (op : Operator) : c.filterWith op = d.filterWith op := by
    unfold filterWith
    rw [h.left, h.right]
  unfold filter
  rw [h.operator]
  cases d.operator? with
  | none => simp
  | some op => simp [hwith]

end Alike

end Comparison

namespace Condition

mutual

/-- The conditions are built in the same way from comparisons that are alike. -/
inductive Alike : Condition → Condition → Prop
  | group {label label' : NodeLabel} {name name' : String} {members members' : List Condition}
    (hname : GroupKind.ofName? name = GroupKind.ofName? name') (h : AllAlike members members') :
    Alike (.group label name members) (.group label' name' members')
  | comparison {c d : Comparison} (h : c.Alike d) : Alike (.comparison c) (.comparison d)

inductive AllAlike : List Condition → List Condition → Prop
  | nil : AllAlike [] []
  | cons {c d : Condition} {rest rest' : List Condition} (h : Alike c d)
    (hrest : AllAlike rest rest') : AllAlike (c :: rest) (d :: rest')

end

variable {c d : Condition} {members members' : List Condition}

theorem AllAlike.isEmpty_eq (h : AllAlike members members') :
    members.isEmpty = members'.isEmpty := by
  cases h <;> rfl

mutual

theorem Alike.sources_eq {c d : Condition} : c.Alike d → c.sources = d.sources
  | .group _ h => h.sourcesOf_eq
  | .comparison h => h.sources_eq

theorem AllAlike.sourcesOf_eq {members members' : List Condition} :
    AllAlike members members' → sourcesOf members = sourcesOf members'
  | .nil => rfl
  | .cons h hrest => by rw [sourcesOf, sourcesOf, h.sources_eq, hrest.sourcesOf_eq]

end

mutual

theorem Alike.check_agrees {c d : Condition} : c.Alike d → c.check.Agrees d.check
  | .group hname h => by
    rw [check, check]
    apply (agrees_require (congrArg Option.isSome hname)).both
    apply (agrees_require (congrArg not h.isEmpty_eq)).both
    exact h.checkAll_agrees
  | .comparison h => h.check_agrees

theorem AllAlike.checkAll_agrees {members members' : List Condition} :
    AllAlike members members' → (checkAll members).Agrees (checkAll members')
  | .nil => agrees_pass
  | .cons h hrest => h.check_agrees.both hrest.checkAll_agrees

end

mutual

theorem Alike.filter_eq_ok {c d : Condition} : c.Alike d → ∀ f : Filter,
    (c.filter = .ok f ↔ d.filter = .ok f)
  | .group hname h => fun f => by
    rw [filter_group_eq_ok, filter_group_eq_ok, hname]
    simp only [h.filters_eq_ok]
  | .comparison h => fun f => by
    rw [filter, filter]
    exact h.filter_eq_ok

theorem AllAlike.filters_eq_ok {members members' : List Condition} :
    AllAlike members members' → ∀ parts : List Filter,
      (filters members = .ok parts ↔ filters members' = .ok parts)
  | .nil => fun _ => Iff.rfl
  | .cons h hrest => fun parts => by
    rw [filters_cons_eq_ok, filters_cons_eq_ok]
    simp only [h.filter_eq_ok, hrest.filters_eq_ok]

end

end Condition

end EventRules
