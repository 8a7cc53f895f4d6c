import EventRules.Proofs.Filter.Truth
import Mathlib.Data.List.Perm.Basic

/-! The shape of filters. Groups whose members are flat are collected into a group that is flat: the
members of a group that is dissolved are no groups of its kind, so nothing more has to be dissolved.
What a filter holds besides groups is what its comparisons give, every filter once. -/
namespace EventRules

namespace Filter

mutual

/-- No group, at any depth, is a direct member of a group of its kind. -/
def Flat : Filter → Prop
  | .group kind members => (∀ inner, .group kind inner ∉ members) ∧ AllFlat members
  | _ => True

def AllFlat : List Filter → Prop
  | [] => True
  | f :: rest => f.Flat ∧ AllFlat rest

end

mutual

/-- The filters at all depths that are no groups, from left to right. -/
def leaves : Filter → List Filter
  | .group _ members => leavesOf members
  | .text op subject value => [.text op subject value]
  | .single op field value => [.single op field value]
  | .many op field values => [.many op field values]
  | .presence op field => [.presence op field]

def leavesOf : List Filter → List Filter
  | [] => []
  | f :: rest => leaves f ++ leavesOf rest

end

variable {kind : GroupKind} {filters members : List Filter} {f : Filter}

theorem allFlat_iff : AllFlat filters ↔ ∀ f ∈ filters, f.Flat := by
  induction filters with
  | nil => simp [AllFlat]
  | cons f rest ih => simp [AllFlat, ih]

theorem leavesOf_eq (filters : List Filter) : leavesOf filters = filters.flatMap leaves := by
  induction filters with
  | nil => rfl
  | cons f rest ih => rw [leavesOf, ih, List.flatMap_cons]

theorem flat_group : (Filter.group kind members).Flat ↔
    (∀ inner, .group kind inner ∉ members) ∧ ∀ m ∈ members, m.Flat := by
  rw [Flat, allFlat_iff]

theorem leaves_group (kind : GroupKind) (members : List Filter) :
    (Filter.group kind members).leaves = members.flatMap leaves := by
  rw [leaves, leavesOf_eq]

/-- One dissolving is enough where the filters are flat. -/
theorem flat_collect (h : ∀ f ∈ filters, f.Flat) : (collect kind filters).Flat := by
  rw [collect, flat_group]
  simp only [mem_collected]
  constructor
  · rintro inner (⟨-, hnone⟩ | ⟨members, hgroup, hinner⟩)
    · cases hnone.symm.trans (membersOf?_eq_some.mpr rfl)
    · exact (flat_group.mp (h _ hgroup)).1 inner hinner
  · rintro m (⟨hm, -⟩ | ⟨members, hgroup, hm⟩)
    · exact h m hm
    · exact (flat_group.mp (h _ hgroup)).2 m hm

/-- Dissolving moves members and keeps them all. -/
theorem leaves_collect (kind : GroupKind) (filters : List Filter) :
    (collect kind filters).leaves.Perm (filters.flatMap leaves) := by
  rw [collect, leaves_group]
  induction filters with
  | nil => rfl
  | cons f rest ih =>
    rw [List.flatMap_append] at ih
    cases hmembers : f.membersOf? kind with
    | none =>
      rw [List.filter_cons_of_pos (by simp [hmembers]), List.filterMap_cons_none hmembers,
        List.cons_append, List.flatMap_cons, List.flatMap_cons, List.flatMap_append]
      exact ih.append_left _
    | some members =>
      obtain rfl := membersOf?_eq_some.mp hmembers
      rw [List.filter_cons_of_neg (by simp [hmembers]), List.filterMap_cons_some hmembers,
        List.flatten_cons, List.flatMap_cons, leaves_group, List.flatMap_append,
        List.flatMap_append]
      exact List.perm_append_comm_assoc .. |>.trans (ih.append_left _)

end Filter

namespace Comparison

/-- The filters that a comparison gives: a search one for each value, and any other one. -/
def parts (c : Comparison) : List Filter :=
  match c.operator? with
  | some op => if op.searchesText then c.right.map (.text op c.left) else [c.filterWith op]
  | none => []

theorem flat_filterWith (c : Comparison) (op : Operator) : (c.filterWith op).Flat := by
  unfold filterWith
  split
  · split
    · trivial
    · rw [Filter.flat_group]
      simp [Filter.Flat]
  · split
    · trivial
    · split <;> trivial

theorem leaves_filterWith (c : Comparison) {op : Operator} (hop : c.operator? = some op) :
    (c.filterWith op).leaves = c.parts := by
  unfold parts
  rw [hop]
  dsimp only
  unfold filterWith
  split
  · split
    next value hright => simp [Filter.leaves, hright]
    next =>
      rw [Filter.leaves_group, List.flatMap_map, List.map_eq_flatMap]
      rfl
  · split
    · rfl
    · split <;> rfl

theorem filter_shape {c : Comparison} {f : Filter} (h : c.filter = .ok f) :
    f.Flat ∧ f.leaves = c.parts := by
  cases hop : c.operator? with
  | none => simp [filter, hop] at h
  | some op =>
    obtain rfl : c.filterWith op = f := by simpa [filter, hop] using h
    exact ⟨c.flat_filterWith op, c.leaves_filterWith hop⟩

end Comparison

namespace Condition

mutual

/-- The comparisons at all depths, from left to right. -/
def comparisons : Condition → List Comparison
  | .group _ _ members => comparisonsOf members
  | .comparison c => [c]

def comparisonsOf : List Condition → List Comparison
  | [] => []
  | c :: rest => comparisons c ++ comparisonsOf rest

end

mutual

theorem filter_shape {f : Filter} : (c : Condition) → c.filter = .ok f →
    f.Flat ∧ f.leaves.Perm (c.comparisons.flatMap Comparison.parts)
  | .group label typeName members => by
    intro h
    obtain ⟨kind, parts, -, hparts, rfl⟩ := filter_group_eq_ok.mp h
    obtain ⟨hflat, hleaves⟩ := filters_shape members hparts
    exact ⟨Filter.flat_collect hflat, (Filter.leaves_collect kind parts).trans hleaves⟩
  | .comparison c => by
    intro h
    obtain ⟨hflat, hleaves⟩ := Comparison.filter_shape (c := c) (by rwa [filter] at h)
    exact ⟨hflat, by simp [comparisons, hleaves]⟩

theorem filters_shape {parts : List Filter} : (members : List Condition) →
    filters members = .ok parts → (∀ f ∈ parts, f.Flat) ∧
      (parts.flatMap Filter.leaves).Perm ((comparisonsOf members).flatMap Comparison.parts)
  | [] => by
    intro h
    obtain rfl : [] = parts := by simpa [filters] using h
    simp [comparisonsOf]
  | c :: rest => by
    intro h
    obtain ⟨first, others, hfirst, hothers, rfl⟩ := filters_cons_eq_ok.mp h
    obtain ⟨hflat, hleaves⟩ := filter_shape c hfirst
    obtain ⟨hrest, hparts⟩ := filters_shape rest hothers
    rw [List.flatMap_cons, comparisonsOf, List.flatMap_append]
    exact ⟨List.forall_mem_cons.mpr ⟨hflat, hrest⟩, hleaves.append hparts⟩

end

end Condition

/-- The filter of a condition is flat, and apart from the order it has just the filters of the
comparisons. -/
theorem normal_filter_exact {c : Condition} {f : Filter} (h : c.filter = .ok f) :
    f.Flat ∧ f.leaves.Perm (c.comparisons.flatMap Comparison.parts) :=
  c.filter_shape h

/-- A search for two values under groups of its kind, and the same search under one of the other
kind: the first is dissolved and goes behind the second. -/
theorem normal_filter_exact_nested :
    let c := Condition.group {} "any"
      [.group {} "Any" [.comparison ⟨{}, "${f}", "contains", ["a", "b"]⟩,
          .group {} "any" [.comparison ⟨{}, "g", "assigned", []⟩]],
        .group {} "All" [.comparison ⟨{}, "${f}", "contains", ["a", "b"]⟩]]
    let f := Filter.group .any
      [.group .all [.group .any [.text .contains "${f}" "a", .text .contains "${f}" "b"]],
        .text .contains "${f}" "a", .text .contains "${f}" "b", .presence .assigned "g"]
    c.filter = .ok f ∧ f.Flat ∧ f.leaves.Perm
      [.text .contains "${f}" "a", .text .contains "${f}" "b", .presence .assigned "g",
        .text .contains "${f}" "a", .text .contains "${f}" "b"] := by
  intro c f
  have h : c.filter = .ok f := rfl
  obtain ⟨hflat, hleaves⟩ := normal_filter_exact h
  exact ⟨h, hflat, hleaves⟩

end EventRules
