import EventRules.Payload
import EventRules.Proofs.Json.Record

/-! Elements of action lists that name no kind of action. A document with one of them is never
read; it is reported as such where its rule is an object. The look at the kinds passes over a rule
that is an array, and then the document only has the wrong shape. -/
namespace EventRules

open Json

theorem Json.readAll_eq_none {α : Type} {read : Json → Option α} {items : List Json} {item : Json}
    (hmem : item ∈ items) (h : read item = none) : readAll read items = none := by
  rw [Option.eq_none_iff_forall_ne_some]
  intro values hread
  induction items generalizing values with
  | nil => exact absurd hmem List.not_mem_nil
  | cons first rest ih =>
    obtain ⟨a, ha, hread⟩ := Option.bind_eq_some_iff.mp hread
    obtain ⟨others, hothers, -⟩ := Option.bind_eq_some_iff.mp hread
    rcases List.mem_cons.mp hmem with rfl | hmem
    · simp [h] at ha
    · exact ih hmem others hothers

namespace Action

variable {value : Json}

/-- The value names no kind of action: the name is missing, or is no text, or is not known. -/
def Unsupported (value : Json) : Prop :=
  ∀ name, value.member? "actionType" = some (.text name) → ActionKind.ofName? name = none

/-- Where there is no name the empty one stands, which is not known. -/
theorem unsupported_iff : Unsupported value ↔ ActionKind.ofName? (typeNameOf value) = none := by
  have hempty : ActionKind.ofName? "" = none := by decide +kernel
  unfold Unsupported typeNameOf
  cases value.member? "actionType" with
  | none => simpa using hempty
  | some name => cases name <;> simp [text?, hempty]

instance : DecidablePred Unsupported := fun _ => decidable_of_iff _ unsupported_iff.symm

theorem ofJson?_eq_none (h : Unsupported value) : ofJson? value = none := by
  rw [ofJson?, ofJson, unsupported_iff.mp h]
  rfl

end Action

namespace Rule

variable {rule : Json}

/-- The elements of the action list in the document of a rule, an object or an array. -/
def actionItems (rule : Json) : List Json :=
  ((rule.fields? fieldNames).bind fun fields => (fields.lookup "actions").bind items?).getD []

theorem mem_actionItems {item : Json} : item ∈ actionItems rule ↔
    ∃ fields items, rule.fields? fieldNames = some fields ∧
      fields.lookup "actions" = some (.array items) ∧ item ∈ items := by
  unfold actionItems
  cases rule.fields? fieldNames with
  | none => simp
  | some fields =>
    simp only [Option.bind_some, Option.some.injEq, exists_and_left, exists_eq_left']
    cases fields.lookup "actions" with
    | none => simp
    | some value => cases value <;> simp [items?]

theorem ofJson?_eq_none {item : Json} (hitem : item ∈ actionItems rule)
    (h : Action.Unsupported item) : ofJson? rule = none := by
  obtain ⟨fields, items, hfields, hlookup, hmem⟩ := mem_actionItems.mp hitem
  have hactions : listField Action.ofJson? "actions" fields = none := by
    rw [listField, fieldOr_eq, hlookup]
    exact readAll_eq_none hmem (Action.ofJson?_eq_none h)
  rw [Option.eq_none_iff_forall_ne_some]
  intro r hr
  obtain ⟨found, hfound, hr⟩ := Option.bind_eq_some_iff.mp hr
  obtain rfl : found = fields := Option.some.inj (hfound.symm.trans hfields)
  obtain ⟨uid, -, hr⟩ := Option.bind_eq_some_iff.mp hr
  obtain ⟨description, -, hr⟩ := Option.bind_eq_some_iff.mp hr
  obtain ⟨actions, hread, -⟩ := Option.bind_eq_some_iff.mp hr
  simp [hactions] at hread

end Rule

namespace RuleSet

variable {members entries : List (String × Json)} {rule : Json}

theorem readEntries?_eq_none (hmem : rule ∈ entries.map Prod.snd) (h : Rule.ofJson? rule = none) :
    readEntries? entries = none := by
  rw [Option.eq_none_iff_forall_ne_some]
  intro read hread
  induction entries generalizing read with
  | nil => exact absurd hmem List.not_mem_nil
  | cons entry rest ih =>
    obtain ⟨r, hr, hread⟩ := Option.bind_eq_some_iff.mp hread
    obtain ⟨others, hothers, -⟩ := Option.bind_eq_some_iff.mp hread
    rcases List.mem_cons.mp hmem with rfl | hmem
    · simp [h] at hr
    · exact ih hmem others hothers

theorem ofJson?_eq_none (hrules : members.lookup "rules" = some (.object entries))
    (hmem : rule ∈ entries.map Prod.snd) (h : Rule.ofJson? rule = none) :
    ofJson? (.object members) = none := by
  have hentries : fieldOr [] entries? "rules" members = none := by
    rw [fieldOr_eq, hrules, Option.elim_some, entries?, members?, Option.bind_some,
      readEntries?_eq_none hmem h, Option.map_none]
  rw [Option.eq_none_iff_forall_ne_some]
  intro s hs
  iterate 5 obtain ⟨_, -, hs⟩ := Option.bind_eq_some_iff.mp hs
  obtain ⟨found, hfound, -⟩ := Option.bind_eq_some_iff.mp hs
  exact Option.some_ne_none found (hfound.symm.trans hentries)

end RuleSet

namespace Payload

/-- A document that is taken as a ruleset or as a rule, with the documents of its rules. -/
inductive Holds : Json → List Json → Prop
  | ruleSet {members entries : List (String × Json)}
      (h : members.lookup "rules" = some (.object entries)) :
    Holds (.object members) (entries.map Prod.snd)
  | rule {members : List (String × Json)} (hrules : members.lookup "rules" = none)
      (h : Ordered.contains "actions" members ∨ Ordered.contains "description" members) :
    Holds (.object members) [.object members]

/-- The elements of the action lists of the rules that are objects. -/
def keyedItems (rules : List Json) : List Json :=
  (rules.filter fun rule => rule.members?.isSome).flatMap Rule.actionItems

variable {fresh : String} {value : Json} {rules : List Json}

theorem unknownKindInRule?_eq (rule : Json) : unknownKindInRule? rule =
    ((keyedItems [rule]).find? fun item => Action.Unsupported item).map Action.typeNameOf := by
  have hfind (items : List Json) : (items.findSome? fun item =>
      if (ActionKind.ofName? (Action.typeNameOf item)).isNone then some (Action.typeNameOf item)
      else none) =
      (items.find? fun item => Action.Unsupported item).map Action.typeNameOf := by
    induction items with
    | nil => rfl
    | cons item rest ih =>
      by_cases h : Action.Unsupported item
      · simp [List.find?_cons_of_pos, h, Action.unsupported_iff.mp h]
      · have hkind := mt Action.unsupported_iff.mpr h
        simpa [h, hkind] using ih
  unfold unknownKindInRule?
  cases rule with
  | object members => simpa [keyedItems, members?, Rule.actionItems, fields?, member?] using hfind _
  | _ => rfl

theorem keyedItems_cons (rule : Json) (rules : List Json) :
    keyedItems (rule :: rules) = keyedItems [rule] ++ keyedItems rules := by
  rw [keyedItems, keyedItems, keyedItems, ← List.flatMap_append, ← List.filter_append]
  rfl

theorem unknownKind?_eq (h : Holds value rules) : unknownKind? value =
    ((keyedItems rules).find? fun item => Action.Unsupported item).map Action.typeNameOf := by
  cases h with
  | rule hrules =>
    rw [unknownKind?, member?, hrules]
    exact unknownKindInRule?_eq _
  | @ruleSet members entries hrules =>
    rw [unknownKind?, member?, hrules]
    dsimp only
    clear hrules
    induction entries with
    | nil => rfl
    | cons entry rest ih =>
      rw [List.findSome?_cons, List.map_cons, keyedItems_cons, List.find?_append, ih,
        unknownKindInRule?_eq]
      cases (keyedItems [entry.2]).find? fun item => Action.Unsupported item <;> rfl

/-- A document with an element that names no kind is not read. -/
theorem ofJson_eq_error (h : Holds value rules) {rule item : Json} (hrule : rule ∈ rules)
    (hitem : item ∈ Rule.actionItems rule) (hunsupported : Action.Unsupported item) :
    ofJson fresh value =
      .error ((unknownKind? value).elim (.json .mismatched) .unsupportedElement) := by
  have hread := Rule.ofJson?_eq_none hitem hunsupported
  cases h with
  | @ruleSet members entries hrules =>
    have hnone := RuleSet.ofJson?_eq_none hrules hrule hread
    simp only [ofJson, hrules, readChecked, hnone]
    cases unknownKind? (.object members) <;> rfl
  | @rule members hrules hshape =>
    obtain rfl := List.mem_singleton.mp hrule
    simp only [ofJson, hrules, readChecked, hread]
    rw [if_pos (by simpa using hshape)]
    cases unknownKind? (.object members) <;> rfl

/-- An element that names no kind is always refused. When a rule that is an object has one, the
first such element is reported as unsupported; when only rules that are arrays have one, all that
is reported is a wrong shape. -/
theorem unsupported_element_exact (fresh : String) (h : Holds value rules)
    (hitem : ∃ rule ∈ rules, ∃ item ∈ Rule.actionItems rule, Action.Unsupported item) :
    (∃ front item back, keyedItems rules = front ++ item :: back ∧
      (∀ other ∈ front, ¬ Action.Unsupported other) ∧ Action.Unsupported item ∧
      ofJson fresh value = .error (.unsupportedElement (Action.typeNameOf item))) ∨
    (∀ item ∈ keyedItems rules, ¬ Action.Unsupported item) ∧
      ofJson fresh value = .error (.json .mismatched) := by
  obtain ⟨rule, hrule, item, hmem, hunsupported⟩ := hitem
  rw [ofJson_eq_error h hrule hmem hunsupported, unknownKind?_eq h]
  cases hfind : (keyedItems rules).find? fun item => Action.Unsupported item with
  | none => exact .inr ⟨by simpa using hfind, rfl⟩
  | some found =>
    obtain ⟨hfound, front, back, hsplit, hfront⟩ := List.find?_eq_some_iff_append.mp hfind
    exact .inl ⟨front, found, back, hsplit, by simpa using hfront, by simpa using hfound, rfl⟩

/-- A rule that is an array, with an unknown kind, and one that is an object, with a kind that is no
text: the second one is reported. -/
theorem unsupported_element_exact_unnamed :
    let unknown : Json := .object [("actionType", .text "levitate"), ("target", .text "x")]
    let unnamed : Json := .object [("actionType", ofNat 1), ("target", .text "x")]
    let rules : List Json := [.array [.text "u", .text "d", .array [unknown]],
      .object [("description", .text "d"), ("actions", .array [unnamed])]]
    Action.Unsupported unknown ∧ Action.Unsupported unnamed ∧
      ofJson "new" (.object [("rules", .object (["r", "s"].zip rules))]) =
        .error (.unsupportedElement "") := by
  intro unknown unnamed rules
  have hunknown : Action.Unsupported unknown := by decide +kernel
  have hunnamed : Action.Unsupported unnamed := by decide +kernel
  have hmem : unknown ∈ Rule.actionItems (.array [.text "u", .text "d", .array [unknown]]) :=
    List.mem_cons_self
  have hholds : Holds (.object [("rules", .object (["r", "s"].zip rules))])
      ((["r", "s"].zip rules).map Prod.snd) := .ruleSet rfl
  refine ⟨hunknown, hunnamed, ?_⟩
  rcases unsupported_element_exact "new" hholds
    ⟨_, List.mem_cons_self, unknown, hmem, hunknown⟩ with
    ⟨front, item, back, hsplit, -, -, hread⟩ | ⟨hnone, -⟩
  · have hkeyed : [unnamed] = front ++ item :: back := hsplit
    obtain rfl : item = unnamed := by
      have hitem : item ∈ [unnamed] := by simp [hkeyed]
      exact List.mem_singleton.mp hitem
    exact hread
  · exact absurd hunnamed (hnone unnamed List.mem_cons_self)

/-- The same rule as an array and as an object: the element that is unsupported in the object only
makes the shape of the array wrong. -/
theorem unsupported_element_lost :
    let item : Json := .object [("actionType", .text "levitate"), ("target", .text "x")]
    let listed : Json := .array [.text "u", .text "d", .array [item]]
    let keyed : Json := .object [("uid", .text "u"), ("description", .text "d"),
      ("actions", .array [item])]
    Action.Unsupported item ∧ item ∈ Rule.actionItems listed ∧ item ∈ Rule.actionItems keyed ∧
      Holds (.object [("rules", .object [("r", listed)])]) [listed] ∧
      (∀ fresh, ofJson fresh (.object [("rules", .object [("r", listed)])]) =
        .error (.json .mismatched)) ∧
      ∀ fresh, ofJson fresh (.object [("rules", .object [("r", keyed)])]) =
        .error (.unsupportedElement "levitate") := by
  intro item listed keyed
  have hitem : Action.Unsupported item := by decide +kernel
  have hholds (rule : Json) : Holds (.object [("rules", .object [("r", rule)])])
      ([("r", rule)].map Prod.snd) := .ruleSet rfl
  have hpassed : unknownKind? (.object [("rules", .object [("r", listed)])]) = none := rfl
  have hfound : unknownKind? (.object [("rules", .object [("r", keyed)])]) = some "levitate" := by
    decide +kernel
  refine ⟨hitem, List.mem_cons_self, List.mem_cons_self, hholds listed, fun fresh => ?_,
    fun fresh => ?_⟩
  · rw [ofJson_eq_error (hholds listed) List.mem_cons_self List.mem_cons_self hitem, hpassed]
    rfl
  · rw [ofJson_eq_error (hholds keyed) List.mem_cons_self List.mem_cons_self hitem, hfound]
    rfl

end Payload
end EventRules
