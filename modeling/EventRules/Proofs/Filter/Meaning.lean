import EventRules.Filter
import Mathlib.Data.List.Basic

/-! What conditions and filters say of a record. A filter in a document says it by the name of its
class, and that is what the filter says from which it was written. -/
namespace EventRules

/-- What a record gives: a text for some of the expressions, and the presence of fields. -/
structure Reading where
  value : String → Option String
  present : String → Prop

variable (reading : Reading)

namespace Reading

/-- The text of an expression has the literal where the operator looks for it. -/
def Finds (op : Operator) (expression literal : String) : Prop :=
  ∃ text ∈ reading.value expression,
    match op with
    | .contains => literal.toList <:+: text.toList
    | .startsWith => literal.toList <+: text.toList
    | .endsWith => literal.toList <:+ text.toList
    | _ => False

end Reading

/-- All of some statements, or one of them. -/
def GroupKind.Joins : GroupKind → List Prop → Prop
  | .all, statements => ∀ p ∈ statements, p
  | .any, statements => ∃ p ∈ statements, p

/-- What a comparison under an operator says. -/
def Operator.Says (left : String) (right : List String) : Operator → Prop
  | .contains => ∃ literal ∈ right, reading.Finds .contains left literal
  | .startsWith => ∃ literal ∈ right, reading.Finds .startsWith left literal
  | .endsWith => ∃ literal ∈ right, reading.Finds .endsWith left literal
  | .equals | .oneOf => ∃ literal ∈ right, reading.value left = some literal
  | .notEqual | .notOneOf => ∀ literal ∈ right, reading.value left ≠ some literal
  | .assigned => reading.present left
  | .unassigned => ¬ reading.present left

/-- A comparison holds when its operator is known and says something true. -/
def Comparison.Holds (c : Comparison) : Prop :=
  ∃ op ∈ c.operator?, op.Says reading c.left c.right

mutual

/-- A group holds when its type is known and joins its members to something true. -/
def Condition.Holds : Condition → Prop
  | .group _ typeName members =>
    ∃ kind ∈ GroupKind.ofName? typeName, kind.Joins (Condition.statements members)
  | .comparison c => c.Holds reading

/-- What some conditions say, one by one. -/
def Condition.statements : List Condition → List Prop
  | [] => []
  | c :: rest => c.Holds :: Condition.statements rest

end

mutual

/-- A filter by its class; one whose class is of another form holds of nothing. -/
def Filter.Holds : Filter → Prop
  | .group kind members => kind.Joins (Filter.statements members)
  | .text op subject value => reading.Finds op subject value
  | .single .equals field value => reading.value field = some value
  | .single .notEqual field value => reading.value field ≠ some value
  | .single _ _ _ => False
  | .many .oneOf field values => ∃ value ∈ values, reading.value field = some value
  | .many .notOneOf field values => ∀ value ∈ values, reading.value field ≠ some value
  | .many _ _ _ => False
  | .presence .assigned field => reading.present field
  | .presence .unassigned field => ¬ reading.present field
  | .presence _ _ => False

/-- What some filters say, one by one. -/
def Filter.statements : List Filter → List Prop
  | [] => []
  | f :: rest => f.Holds :: Filter.statements rest

end

namespace Json

/-- Two members of an object are texts of which something is true. -/
def TextsAt (json : Json) (first second : String) (p : String → String → Prop) : Prop :=
  ∃ a b, json.member? first = some (.text a) ∧ json.member? second = some (.text b) ∧ p a b

/-- The members of an object are a field and a list of values of which something is true. -/
def ValuesAt (json : Json) (p : String → List String → Prop) : Prop :=
  ∃ field values, json.member? "field" = some (.text field) ∧
    json.member? "values" = some (.ofTexts values) ∧ p field values

/-- The members of an object are a field of which something is true, and that it does not count as
assigned when it is empty. -/
def PresenceAt (json : Json) (p : String → Prop) : Prop :=
  ∃ field, json.member? "field" = some (.text field) ∧
    json.member? "emptyIsAssigned" = some (.bool false) ∧ p field

/-- What a filter of a document that is no group says, by the name of its class. -/
def Compares (json : Json) : String → Prop
  | "Contains" => json.TextsAt "string" "value" (reading.Finds .contains)
  | "StartsWith" => json.TextsAt "string" "value" (reading.Finds .startsWith)
  | "EndsWith" => json.TextsAt "string" "value" (reading.Finds .endsWith)
  | "Equals" => json.TextsAt "field" "value" fun field value => reading.value field = some value
  | "NotEqual" => json.TextsAt "field" "value" fun field value => reading.value field ≠ some value
  | "OneOf" => json.ValuesAt fun field values => ∃ value ∈ values, reading.value field = some value
  | "NotOneOf" =>
    json.ValuesAt fun field values => ∀ value ∈ values, reading.value field ≠ some value
  | "Assigned" => json.PresenceAt reading.present
  | "Unassigned" => json.PresenceAt fun field => ¬ reading.present field
  | _ => False

/-- A filter of a document holds of a record. -/
inductive FilterHolds : Json → Prop
  | all {json : Json} {filters : List Json} (hclass : json.member? "class" = some (.text "And"))
      (hfilters : json.member? "filters" = some (.array filters))
      (h : ∀ f ∈ filters, FilterHolds f) : FilterHolds json
  | any {json f : Json} {filters : List Json} (hclass : json.member? "class" = some (.text "Or"))
      (hfilters : json.member? "filters" = some (.array filters)) (hf : f ∈ filters)
      (h : FilterHolds f) : FilterHolds json
  | comparison {json : Json} {name : String} (hclass : json.member? "class" = some (.text name))
      (h : json.Compares reading name) : FilterHolds json

end Json

theorem Filter.statements_eq (members : List Filter) :
    Filter.statements reading members = members.map (Filter.Holds reading) := by
  induction members with
  | nil => simp [Filter.statements]
  | cons f rest ih => simp [Filter.statements, ih]

namespace Json

variable {json : Json} {filters : List Json} {kind : GroupKind} {op : Operator}

/-- A group in a document joins what its filters say. -/
theorem filterHolds_group (hclass : json.member? "class" = some (.text kind.className))
    (hfilters : json.member? "filters" = some (.array filters)) :
    json.FilterHolds reading ↔ kind.Joins (filters.map (FilterHolds reading)) := by
  cases kind with
  | all =>
    simp only [GroupKind.Joins, List.forall_mem_map]
    constructor
    · intro h
      cases h with
      | all _ hitems h =>
        obtain rfl := Json.array.inj (Option.some.inj (hfilters.symm.trans hitems))
        exact h
      | any hother => simp [hclass, GroupKind.className] at hother
      | comparison hother h =>
        obtain rfl := Json.text.inj (Option.some.inj (hclass.symm.trans hother))
        simp [Compares, GroupKind.className] at h
    · exact .all hclass hfilters
  | any =>
    simp only [GroupKind.Joins, List.mem_map, exists_exists_and_eq_and]
    constructor
    · intro h
      cases h with
      | all hother => simp [hclass, GroupKind.className] at hother
      | any _ hitems hf h =>
        obtain rfl := Json.array.inj (Option.some.inj (hfilters.symm.trans hitems))
        exact ⟨_, hf, h⟩
      | comparison hother h =>
        obtain rfl := Json.text.inj (Option.some.inj (hclass.symm.trans hother))
        simp [Compares, GroupKind.className] at h
    · rintro ⟨f, hf, h⟩
      exact .any hclass hfilters hf h

/-- A filter in a document whose class is that of an operator is no group. -/
theorem filterHolds_comparison (hclass : json.member? "class" = some (.text op.className)) :
    json.FilterHolds reading ↔ json.Compares reading op.className := by
  have hand : op.className ≠ "And" := by cases op <;> decide
  have hor : op.className ≠ "Or" := by cases op <;> decide
  constructor
  · intro h
    cases h with
    | all hother => simp [hclass, hand] at hother
    | any hother => simp [hclass, hor] at hother
    | comparison hother h =>
      rwa [Json.text.inj (Option.some.inj (hclass.symm.trans hother))]
  · exact .comparison hclass

theorem ofTexts_inj {a b : List String} : ofTexts a = ofTexts b ↔ a = b := by
  unfold ofTexts
  rw [Json.array.injEq, List.map_inj_right fun _ _ => Json.text.inj]

end Json

namespace Filter

theorem holds_group (kind : GroupKind) (members : List Filter) :
    (Filter.group kind members).Holds reading ↔ kind.Joins (members.map (Holds reading)) := by
  rw [Holds, statements_eq]

theorem listToJson_eq (members : List Filter) : listToJson members = members.map toJson := by
  induction members with
  | nil => simp [listToJson]
  | cons f rest ih => simp [listToJson, ih]

mutual

/-- The filter that is written into a document says there what it says itself. -/
theorem filterHolds_toJson : (f : Filter) → (f.toJson.FilterHolds reading ↔ f.Holds reading)
  | .group kind members => by
    rw [holds_group, toJson, Json.filterHolds_group reading rfl rfl, listToJson_eq, List.map_map]
    rw [filterHolds_members members]
  | .text op subject value => by
    rw [toJson, Json.filterHolds_comparison reading rfl]
    cases op <;> simp [Json.Compares, Operator.className, Json.TextsAt, Json.ValuesAt,
      Json.PresenceAt, Json.member?, List.lookup_cons, Holds, Reading.Finds]
  | .single op field value => by
    rw [toJson, Json.filterHolds_comparison reading rfl]
    cases op <;> simp [Json.Compares, Operator.className, Json.TextsAt, Json.ValuesAt,
      Json.PresenceAt, Json.member?, List.lookup_cons, Holds]
  | .many op field values => by
    rw [toJson, Json.filterHolds_comparison reading rfl]
    cases op <;> simp [Json.Compares, Operator.className, Json.TextsAt, Json.ValuesAt,
      Json.PresenceAt, Json.member?, List.lookup_cons, Json.ofTexts_inj, Holds]
  | .presence op field => by
    rw [toJson, Json.filterHolds_comparison reading rfl]
    cases op <;> simp [Json.Compares, Operator.className, Json.TextsAt, Json.ValuesAt,
      Json.PresenceAt, Json.member?, List.lookup_cons, Holds]

theorem filterHolds_members : (members : List Filter) →
    members.map (Json.FilterHolds reading ∘ toJson) = members.map (Holds reading)
  | [] => rfl
  | f :: rest => by
    have hfirst : f.toJson.FilterHolds reading = f.Holds reading := propext (filterHolds_toJson f)
    simp only [List.map_cons, Function.comp_apply, hfirst, filterHolds_members rest]

end

end Filter

end EventRules
