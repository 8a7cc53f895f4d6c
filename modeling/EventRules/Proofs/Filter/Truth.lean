import EventRules.Proofs.Filter.Meaning

/-! Translation keeps what conditions say of a record. -/
namespace EventRules

variable (reading : Reading)

mutual

/-- The types of all groups and the operators of all comparisons are known. -/
def Condition.Known : Condition → Prop
  | .group _ typeName members =>
    (∃ kind, GroupKind.ofName? typeName = some kind) ∧ Condition.AllKnown members
  | .comparison c => ∃ op, c.operator? = some op

def Condition.AllKnown : List Condition → Prop
  | [] => True
  | c :: rest => c.Known ∧ Condition.AllKnown rest

end

theorem Condition.statements_eq (members : List Condition) :
    Condition.statements reading members = members.map (Condition.Holds reading) := by
  induction members with
  | nil => simp [Condition.statements]
  | cons c rest ih => simp [Condition.statements, ih]

namespace Filter

theorem membersOf?_eq_some {kind : GroupKind} {f : Filter} {members : List Filter} :
    f.membersOf? kind = some members ↔ f = .group kind members := by
  cases f <;> grind [membersOf?]

/-- The members of a collected group are the filters that are no groups of its kind, and the members
of those that are. -/
theorem mem_collected {kind : GroupKind} {filters : List Filter} {m : Filter} :
    (m ∈ filters.filter (fun f => (f.membersOf? kind).isNone) ++
        (filters.filterMap (membersOf? kind)).flatten) ↔
      (m ∈ filters ∧ m.membersOf? kind = none) ∨
        ∃ members, .group kind members ∈ filters ∧ m ∈ members := by
  simp only [List.mem_append, List.mem_filter, Option.isNone_iff_eq_none, List.mem_flatten,
    List.mem_filterMap, membersOf?_eq_some]
  constructor
  · rintro (h | ⟨members, ⟨f, hf, rfl⟩, hm⟩)
    · exact .inl h
    · exact .inr ⟨members, hf, hm⟩
  · rintro (h | ⟨members, hf, hm⟩)
    · exact .inl h
    · exact .inr ⟨members, ⟨_, hf, rfl⟩, hm⟩

/-- Dissolving nested groups of the same kind changes nothing. -/
theorem collect_holds (kind : GroupKind) (filters : List Filter) :
    (collect kind filters).Holds reading ↔ kind.Joins (filters.map (Holds reading)) := by
  rw [collect, holds_group]
  cases kind with
  | all =>
    simp only [GroupKind.Joins, List.forall_mem_map, mem_collected]
    constructor
    · intro h f hf
      cases hm : f.membersOf? .all with
      | none => exact h f (.inl ⟨hf, hm⟩)
      | some members =>
        obtain rfl := membersOf?_eq_some.mp hm
        simp only [holds_group, GroupKind.Joins, List.forall_mem_map]
        exact fun m hm => h m (.inr ⟨members, hf, hm⟩)
    · rintro h m (⟨hm, -⟩ | ⟨members, hf, hm⟩)
      · exact h m hm
      · have hg := h _ hf
        simp only [holds_group, GroupKind.Joins, List.forall_mem_map] at hg
        exact hg m hm
  | any =>
    simp only [GroupKind.Joins, List.mem_map, exists_exists_and_eq_and, mem_collected]
    constructor
    · rintro ⟨m, ⟨hm, -⟩ | ⟨members, hf, hm⟩, hh⟩
      · exact ⟨m, hm, hh⟩
      · refine ⟨_, hf, ?_⟩
        simp only [holds_group, GroupKind.Joins, List.mem_map, exists_exists_and_eq_and]
        exact ⟨m, hm, hh⟩
    · rintro ⟨f, hf, hh⟩
      cases hm : f.membersOf? .any with
      | none => exact ⟨f, .inl ⟨hf, hm⟩, hh⟩
      | some members =>
        obtain rfl := membersOf?_eq_some.mp hm
        simp only [holds_group, GroupKind.Joins, List.mem_map, exists_exists_and_eq_and] at hh
        obtain ⟨m, hm, hh⟩ := hh
        exact ⟨m, .inr ⟨members, hf, hm⟩, hh⟩

/-- A search for one of several literals, as one filter or as a group of them. -/
theorem texts_holds (op : Operator) (left : String) (right : List String) :
    (Filter.group .any (right.map (.text op left))).Holds reading ↔
      ∃ literal ∈ right, reading.Finds op left literal := by
  rw [holds_group]
  simp only [GroupKind.Joins, List.mem_map, exists_exists_and_eq_and, Holds]

end Filter

/-- A comparison and its filter say the same, whatever the number of values. -/
theorem Comparison.filterWith_holds (c : Comparison) (op : Operator) :
    (c.filterWith op).Holds reading ↔ op.Says reading c.left c.right := by
  obtain ⟨label, left, name, right⟩ := c
  cases op with
  | contains | startsWith | endsWith =>
    match right with
    | [value] => simp [filterWith, Operator.searchesText, Filter.Holds, Operator.Says]
    | [] | _ :: _ :: _ =>
      simp only [filterWith, Operator.searchesText, if_true, Filter.texts_holds, Operator.Says]
  | assigned | unassigned =>
    simp [filterWith, Operator.searchesText, Operator.needsValues, Filter.Holds, Operator.Says]
  | oneOf | notOneOf =>
    simp [filterWith, Operator.searchesText, Operator.needsValues, Operator.alwaysMany,
      Operator.manyForm, Filter.Holds, Operator.Says]
  | equals | notEqual =>
    match right with
    | [] | [_] | _ :: _ :: _ =>
      simp [filterWith, Operator.searchesText, Operator.needsValues, Operator.alwaysMany,
        Operator.manyForm, Filter.Holds, Operator.Says]

theorem Comparison.filter_holds {c : Comparison} {f : Filter} (h : c.filter = .ok f) :
    f.Holds reading ↔ c.Holds reading := by
  cases hop : c.operator? with
  | none => simp [filter, hop] at h
  | some op =>
    simp only [filter, hop, Except.ok.injEq] at h
    subst h
    simp [filterWith_holds, Holds, hop]

namespace Condition

theorem filter_group_eq_ok {label : NodeLabel} {typeName : String} {members : List Condition}
    {f : Filter} : (Condition.group label typeName members).filter = .ok f ↔
      ∃ kind parts, GroupKind.ofName? typeName = some kind ∧ filters members = .ok parts ∧
        f = .collect kind parts := by
  rw [filter]
  cases GroupKind.ofName? typeName with
  | none => simp
  | some kind =>
    cases filters members with
    | error fault => simp
    | ok parts => simp [eq_comm]

theorem filters_cons_eq_ok {c : Condition} {rest : List Condition} {parts : List Filter} :
    filters (c :: rest) = .ok parts ↔
      ∃ first others, c.filter = .ok first ∧ filters rest = .ok others ∧
        parts = first :: others := by
  rw [filters]
  cases c.filter with
  | error fault => simp
  | ok first =>
    cases filters rest with
    | error fault => simp
    | ok others => simp [eq_comm]

mutual

theorem exists_filter_iff : (c : Condition) → ((∃ f, c.filter = .ok f) ↔ c.Known)
  | .group label typeName members => by
    rw [Known, ← exists_filters_iff members]
    simp only [filter_group_eq_ok]
    constructor
    · rintro ⟨f, kind, parts, hkind, hparts, -⟩
      exact ⟨⟨kind, hkind⟩, parts, hparts⟩
    · rintro ⟨⟨kind, hkind⟩, parts, hparts⟩
      exact ⟨_, kind, parts, hkind, hparts, rfl⟩
  | .comparison c => by
    rw [Known, filter, Comparison.filter]
    cases c.operator? <;> simp

theorem exists_filters_iff : (members : List Condition) →
    ((∃ parts, filters members = .ok parts) ↔ AllKnown members)
  | [] => by simp [filters, AllKnown]
  | c :: rest => by
    rw [AllKnown, ← exists_filter_iff c, ← exists_filters_iff rest]
    simp only [filters_cons_eq_ok]
    constructor
    · rintro ⟨parts, first, others, hfirst, hothers, -⟩
      exact ⟨⟨first, hfirst⟩, others, hothers⟩
    · rintro ⟨⟨first, hfirst⟩, others, hothers⟩
      exact ⟨_, first, others, hfirst, hothers, rfl⟩

end

mutual

theorem holds_filter {f : Filter} :
    (c : Condition) → c.filter = .ok f → (f.Holds reading ↔ c.Holds reading)
  | .group label typeName members => by
    intro h
    obtain ⟨kind, parts, hkind, hparts, rfl⟩ := filter_group_eq_ok.mp h
    rw [Filter.collect_holds, holds_filters members hparts, Condition.Holds, hkind]
    simp [statements_eq]
  | .comparison c => by
    intro h
    rw [Condition.Holds]
    exact c.filter_holds reading (by rwa [filter] at h)

/-- The filters of the members of a group say what the members say. -/
theorem holds_filters {parts : List Filter} : (members : List Condition) →
    filters members = .ok parts →
      parts.map (Filter.Holds reading) = members.map (Condition.Holds reading)
  | [] => by
    intro h
    simp only [filters, Except.ok.injEq] at h
    simp [← h]
  | c :: rest => by
    intro h
    obtain ⟨first, others, hfirst, hothers, rfl⟩ := filters_cons_eq_ok.mp h
    have hc : first.Holds reading = c.Holds reading := propext (holds_filter c hfirst)
    simp only [List.map_cons, hc, holds_filters rest hothers]

end

end Condition

/-- A condition has a filter when its groups and operators are known, and the filter holds of
exactly the records of which the condition holds. In a document filters say the same by the names
of their classes. -/
theorem filter_exact (c : Condition) :
    ((∃ f, c.filter = .ok f) ↔ c.Known) ∧
      (∀ f, c.filter = .ok f → ∀ reading : Reading, f.Holds reading ↔ c.Holds reading) ∧
      ∀ (f : Filter) (reading : Reading), f.toJson.FilterHolds reading ↔ f.Holds reading :=
  ⟨c.exists_filter_iff, fun _ h reading => c.holds_filter reading h,
    fun f reading => f.filterHolds_toJson reading⟩

theorem filter_exact_nested :
    let c := Condition.group {} "All" [.group {} "all" [.comparison ⟨{}, "f", "assigned", []⟩],
      .group {} "Any" [.comparison ⟨{}, "${f}", "contains", ["a", "b"]⟩],
      .comparison ⟨{}, "g", "notEqual", ["1", "2"]⟩]
    let f := Filter.group .all [
      .group .any [.text .contains "${f}" "a", .text .contains "${f}" "b"],
      .many .notOneOf "g" ["1", "2"], .presence .assigned "f"]
    c.filter = .ok f ∧ ∀ reading : Reading, f.Holds reading ↔ c.Holds reading :=
  ⟨rfl, (filter_exact _).2.1 _ rfl⟩

end EventRules
