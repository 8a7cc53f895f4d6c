import EventRules.Condition.Json
import EventRules.Proofs.Json.Sentinel
import EventRules.Proofs.Json.Record

/-! Conditions that are written and read again, whatever their depth. A group is written with its
type and its members, by which it is told from a comparison. -/
namespace EventRules

open Json

namespace NodeLabel

/-- The level of the node is not a null, which would be read as no level. -/
def Plain (label : NodeLabel) : Prop := label.level ≠ some .null

variable {label : NodeLabel} {fields : List (String × Json)} {key : String}
  {others : List (Option (String × Json))}

theorem plain_of_ofFields? (h : ofFields? fields = some label) : label.Plain := by
  simp only [ofFields?, Option.bind_eq_bind, Option.bind_eq_some_iff] at h
  obtain ⟨id, -, level, hlevel, name, -, h⟩ := h
  obtain rfl := Option.some.inj h
  exact ne_null_of_optionalField hlevel

/-- The members of a label stand under keys of their own. -/
theorem lookup_written (h : key ∉ ["id", "level", "name"]) :
    (written (label.members ++ others)).lookup key = (written others).lookup key := by
  simp only [List.mem_cons, List.not_mem_nil, or_false, not_or] at h
  simp [members, h]

/-- A label is found again among the members of its node, which stand under other keys. -/
theorem ofFields?_written (h : label.Plain)
    (hothers : ∀ key ∈ ["id", "level", "name"], (written others).lookup key = none) :
    ofFields? (written (label.members ++ others)) = some label := by
  simp only [List.forall_mem_cons, List.not_mem_nil, false_implies, implies_true,
    and_true] at hothers
  obtain ⟨hid, hlevel, hname⟩ := hothers
  simp [ofFields?, members, optionalText, hid, hlevel, hname, optionalValue_some h]

end NodeLabel

namespace Comparison

variable {c : Comparison} {value : Json}

theorem plain_of_ofJson? (h : ofJson? value = some c) : c.label.Plain := by
  simp only [ofJson?, Option.bind_eq_bind, Option.bind_eq_some_iff] at h
  obtain ⟨fields, -, label, hlabel, left, -, operatorName, -, right, -, h⟩ := h
  obtain rfl := Option.some.inj h
  exact NodeLabel.plain_of_ofFields? hlabel

/-- The members of the comparison, where they are not left out. -/
def members (c : Comparison) : List (Option (String × Json)) :=
  c.label.members ++ [always "left" (.text c.left), always "operator" (.text c.operatorName),
    always "right" (.ofTexts c.right)]

theorem toJson_eq (c : Comparison) : c.toJson = .object (written c.members) := rfl

theorem ofJson?_toJson (h : c.label.Plain) : ofJson? c.toJson = some c := by
  have hlabel : NodeLabel.ofFields? (written c.members) = some c.label :=
    NodeLabel.ofFields?_written h (by simp)
  have hleft : textField "left" (written c.members) = some c.left := by
    simp [textField, members, NodeLabel.lookup_written, text?]
  have hoperator : textField "operator" (written c.members) = some c.operatorName := by
    simp [textField, members, NodeLabel.lookup_written, text?]
  have hright : listField text? "right" (written c.members) = some c.right := by
    simp [listField, members, NodeLabel.lookup_written]
  simp [ofJson?, toJson_eq, fields?, hlabel, hleft, hoperator, hright]

/-- A comparison is not taken for a group. -/
theorem isGroup_members (c : Comparison) : Condition.isGroup (written c.members) = false := by
  simp [Condition.isGroup, Ordered.contains, members, NodeLabel.lookup_written]

end Comparison

namespace Condition

mutual

/-- All labels within the condition are plain. -/
def Plain : Condition → Prop
  | .group label _ members => label.Plain ∧ AllPlain members
  | .comparison c => c.label.Plain

def AllPlain : List Condition → Prop
  | [] => True
  | c :: rest => Plain c ∧ AllPlain rest

end

mutual

theorem plain_of_ofJson? : (value : Json) → ∀ c, ofJson? value = some c → Plain c
  | .object members => fun c h => by
    rw [ofJson?] at h
    split at h
    · simp only [Option.bind_eq_bind, Option.bind_eq_some_iff] at h
      obtain ⟨label, hlabel, typeName, -, children, hchildren, h⟩ := h
      obtain rfl := Option.some.inj h
      rw [Plain]
      exact ⟨NodeLabel.plain_of_ofFields? hlabel,
        plain_of_childrenAmong? members children hchildren⟩
    · obtain ⟨comparison, hc, rfl⟩ := Option.map_eq_some_iff.mp h
      rw [Plain]
      exact Comparison.plain_of_ofJson? hc
  | .array items => fun c h => by
    rw [ofJson?] at h
    obtain ⟨comparison, hc, rfl⟩ := Option.map_eq_some_iff.mp h
    rw [Plain]
    exact Comparison.plain_of_ofJson? hc
  | .null | .bool _ | .number _ | .text _ => fun c h => by simp [ofJson?] at h

theorem plain_of_childrenAmong? : (members : List (String × Json)) →
    ∀ cs, childrenAmong? members = some cs → AllPlain cs
  | [] => fun cs h => by
    obtain rfl : [] = cs := by simpa [childrenAmong?] using h
    trivial
  | (key, value) :: rest => fun cs h => by
    rw [childrenAmong?] at h
    split at h
    · exact plain_of_childrenOf? value cs h
    · exact plain_of_childrenAmong? rest cs h

theorem plain_of_childrenOf? : (value : Json) → ∀ cs, childrenOf? value = some cs → AllPlain cs
  | .array items => fun cs h => plain_of_allOf? items cs (by simpa [childrenOf?] using h)
  | .null | .bool _ | .number _ | .text _ | .object _ => fun cs h => by simp [childrenOf?] at h

theorem plain_of_allOf? : (items : List Json) → ∀ cs, allOf? items = some cs → AllPlain cs
  | [] => fun cs h => by
    obtain rfl : [] = cs := by simpa [allOf?] using h
    trivial
  | value :: rest => fun cs h => by
    simp only [allOf?, Option.bind_eq_bind, Option.bind_eq_some_iff] at h
    obtain ⟨first, hfirst, others, hothers, h⟩ := h
    obtain rfl := Option.some.inj h
    exact ⟨plain_of_ofJson? value first hfirst, plain_of_allOf? rest others hothers⟩

end

theorem childrenAmong?_eq (members : List (String × Json)) :
    childrenAmong? members = (members.lookup "children").elim (some []) childrenOf? := by
  induction members with
  | nil => rfl
  | cons member rest ih =>
    obtain ⟨key, value⟩ := member
    by_cases h : key = "children"
    · simp [childrenAmong?, h]
    · simp [childrenAmong?, h, ih, List.lookup_cons, beq_eq_false_iff_ne.mpr (Ne.symm h)]

mutual

theorem ofJson?_toJson : (c : Condition) → Plain c → ofJson? (toJson c) = some c
  | .group label typeName members => fun h => by
    rw [Plain] at h
    have hmembers := allOf?_listToJson members h.2
    have hlabel : NodeLabel.ofFields? (written (label.members ++ [always "type" (.text typeName),
        always "children" (.array (listToJson members))])) = some label :=
      NodeLabel.ofFields?_written h.1 (by simp)
    rw [toJson, record_eq, ofJson?]
    simp [isGroup, Ordered.contains, hlabel, textField, NodeLabel.lookup_written, text?,
      childrenAmong?_eq, childrenOf?, hmembers]
  | .comparison c => fun h => by
    rw [Plain] at h
    rw [toJson, c.toJson_eq, ofJson?, if_neg (by simp [c.isGroup_members])]
    exact congrArg (Option.map comparison) (Comparison.ofJson?_toJson h)

theorem allOf?_listToJson : (members : List Condition) → AllPlain members →
    allOf? (listToJson members) = some members
  | [] => fun _ => rfl
  | c :: rest => fun h => by
    simp [listToJson, allOf?, ofJson?_toJson c h.1, allOf?_listToJson rest h.2]

end

end Condition

end EventRules
