import EventRules.CommandLine.Run
import EventRules.Proofs.Rule.Json

/-! Payloads that are written and read again. A payload that was read is written to a document from
which it is read again, whatever the fresh identifier, and so is what the checks make of it. -/
namespace EventRules

open Json

variable {catalog : Option Catalog} {fresh : String} {value : Json}

theorem Rule.unknownKindInRule?_toJson {r : Rule} (h : r.Plain) :
    Payload.unknownKindInRule? r.toJson = none := by
  rw [Payload.unknownKindInRule?, toJson_eq, member?, lookup_actions]
  refine List.findSome?_eq_none_iff.mpr fun item hitem => ?_
  obtain ⟨a, ha, rfl⟩ := List.mem_map.mp hitem
  simp [Action.typeNameOf_toJson, (h.actions a ha).kind]

theorem Rule.unknownKind?_toJson {r : Rule} (h : r.Plain) :
    Payload.unknownKind? r.toJson = none := by
  have hrules : r.toJson.member? "rules" = none := r.lookup_rules
  rw [Payload.unknownKind?, hrules]
  exact unknownKindInRule?_toJson h

theorem RuleSet.unknownKind?_toJson {s : RuleSet} (h : s.Plain) :
    Payload.unknownKind? s.toJson = none := by
  have hrules : s.toJson.member? "rules" = _ := s.lookup_rules
  rw [Payload.unknownKind?, hrules]
  refine List.findSome?_eq_none_iff.mpr fun member hmember => ?_
  obtain ⟨entry, hentry, rfl⟩ := List.mem_map.mp hmember
  exact Rule.unknownKindInRule?_toJson (h.rules _ (List.mem_map_of_mem hentry))

/-- What is checked when a rule is validated: its actions are put in order. -/
theorem Rule.validated_eq_ok {r r1 : Rule} :
    r.validated = .ok r1 ↔ r.check.problems = [] ∧ r.resolveActions = .ok r1 := by
  rw [validated]
  cases r.check.problems with
  | nil => cases r.resolveActions <;> simp [Except.mapError]
  | cons problem rest => simp

theorem Rule.uid_identified (r : Rule) (hfresh : ¬ Text.isBlank fresh) :
    ¬ Text.isBlank (r.identified fresh).uid := by
  rw [identified]
  split
  next => exact hfresh
  next huid => exact huid

namespace Payload

variable {p checked : Payload}

/-- Write a payload. -/
def toJson : Payload → Json
  | .rule value => value.toJson
  | .ruleSet value => value.toJson

/-- The rules of the payload are plain, and each has the identifier with which it was read. -/
def Plain : Payload → Prop
  | .rule value => value.Plain ∧ ¬ Text.isBlank value.uid
  | .ruleSet value => value.Plain

theorem map_readChecked_eq_ok {α : Type} {read : Json → Option α} {wrap : α → Payload} :
    (readChecked value read).map wrap = .ok p ↔
      unknownKind? value = none ∧ ∃ result, read value = some result ∧ wrap result = p := by
  rw [map_eq_ok, readChecked]
  cases unknownKind? value with
  | none => cases read value <;> simp
  | some typeName => simp

theorem plain_of_ofJson (hfresh : ¬ Text.isBlank fresh) (h : ofJson fresh value = .ok p) :
    p.Plain := by
  rw [ofJson.eq_def] at h
  split at h
  next members =>
    split at h
    next =>
      obtain ⟨-, s, hs, rfl⟩ := map_readChecked_eq_ok.mp h
      exact RuleSet.plain_of_ofJson? hs
    next => cases h
    next =>
      split at h
      next =>
        obtain ⟨-, r, hr, rfl⟩ := map_readChecked_eq_ok.mp h
        exact ⟨(Rule.plain_of_ofJson? hr).identified fresh, r.uid_identified hfresh⟩
      next => cases h
  next => cases h

theorem ofJson_toJson (h : p.Plain) (fresh : String) : ofJson fresh p.toJson = .ok p := by
  cases p with
  | rule r =>
    obtain ⟨hr, huid⟩ := h
    have hactions : Ordered.contains "actions" (written r.members) := by
      rw [Ordered.contains, r.lookup_actions]
      rfl
    have hidentified : r.identified fresh = r := if_neg huid
    rw [toJson, Rule.toJson_eq, ofJson, r.lookup_rules]
    simp only [hactions, Bool.true_or, if_true]
    exact map_readChecked_eq_ok.mpr ⟨Rule.unknownKind?_toJson hr, r, Rule.ofJson?_toJson hr,
      congrArg Payload.rule hidentified⟩
  | ruleSet s =>
    rw [toJson, RuleSet.toJson_eq, ofJson, s.lookup_rules]
    exact map_readChecked_eq_ok.mpr ⟨RuleSet.unknownKind?_toJson h, s, RuleSet.ofJson?_toJson h,
      congrArg Payload.ruleSet (RuleSet.syncIds_eq_self h.synced)⟩

/-- What the checks make of a payload. -/
inductive Checks (catalog : Option Catalog) : Payload → Payload → Prop
  | rule {r r1 : Rule} (h : r.validated = .ok r1) : Checks catalog (.rule r) (.rule r1)
  | ruleSet {s t : RuleSet} (h : s.imported catalog = .ok t) (hgroups : t.grouped = .ok t) :
    Checks catalog (.ruleSet s) (.ruleSet t)

theorem Plain.of_checks (h : p.Plain) (hc : Checks catalog p checked) : checked.Plain := by
  cases hc with
  | rule hr =>
    have hreordered := Rule.reordered_of_resolveActions (Rule.validated_eq_ok.mp hr).2
    refine ⟨h.1.reordered hreordered, ?_⟩
    obtain ⟨actions, rfl, -⟩ := hreordered
    exact h.2
  | ruleSet hs => exact RuleSet.Plain.imported h hs

/-- What is printed for a valid payload is what the checks make of it. -/
theorem validated_eq_ok {json : Json} : CommandLine.validated catalog p = .ok json ↔
    ∃ checked, Checks catalog p checked ∧ json = checked.toJson := by
  cases p with
  | rule r =>
    rw [CommandLine.validated, map_eq_ok]
    constructor
    · rintro ⟨r1, hr, rfl⟩
      exact ⟨.rule r1, .rule hr, rfl⟩
    · rintro ⟨_, ⟨hr⟩, rfl⟩
      exact ⟨_, hr, rfl⟩
  | ruleSet s =>
    rw [CommandLine.validated]
    constructor
    · intro h
      cases hs : s.imported catalog with
      | error problems => simp [hs] at h
      | ok t =>
        simp only [hs] at h
        obtain ⟨grouped, hgrouped, rfl⟩ := map_eq_ok.mp h
        obtain ⟨-, rfl⟩ := RuleSet.grouped_eq_ok.mp hgrouped
        exact ⟨.ruleSet grouped, .ruleSet hs hgrouped, rfl⟩
    · rintro ⟨_, hchecks, rfl⟩
      cases hchecks with
      | ruleSet hs hgroups =>
        simp only [hs]
        exact map_eq_ok.mpr ⟨_, hgroups, rfl⟩

end Payload

/-- Payloads round-trip through their documents: a payload that was read from any value is read
again from the value to which it is written, and what is printed for a valid payload is read as
exactly the rules that the checks have made of it. -/
theorem payload_round_trip (hfresh : ¬ Text.isBlank fresh) {p : Payload}
    (h : Payload.ofJson fresh value = .ok p) (other : String) :
    Payload.ofJson other p.toJson = .ok p ∧
    ∀ catalog json, CommandLine.validated catalog p = .ok json →
      ∃ checked, Payload.Checks catalog p checked ∧ Payload.ofJson other json = .ok checked := by
  have hplain := Payload.plain_of_ofJson hfresh h
  refine ⟨Payload.ofJson_toJson hplain other, fun catalog json hjson => ?_⟩
  obtain ⟨checked, hchecks, rfl⟩ := Payload.validated_eq_ok.mp hjson
  exact ⟨checked, hchecks, Payload.ofJson_toJson (hplain.of_checks hchecks) other⟩

/-- A rule without an identifier, with sources and a comparison in their array form, a condition of
two levels, and actions that change their places. -/
theorem payload_round_trip_rearranged :
    let copies : Json := .object [("actionType", .text "Copy"), ("target", .text "A"),
      ("from", .array [.text "${B}"])]
    let joins : Json := .object [("actionType", .text "concat"), ("target", .text "B"),
      ("from", .object [("values", .array [.array [.text "1"], .array [.text "2"]])])]
    let condition : Json := .object [("type", .text "all"), ("children", .array [
      .object [("type", .text "any"), ("children", .array [
        .array [.text "c", ofNat 2, .text "n", .text "${x}", .text "Equals",
          .array [.text "1"]]])]])]
    let value : Json := .object [("condition", condition), ("description", .text "d"),
      ("actions", .array [copies, joins])]
    let inner : Condition :=
      .comparison ⟨⟨some "c", some (ofNat 2), some "n"⟩, "${x}", "Equals", ["1"]⟩
    let a : Action := ⟨none, "Copy", "A", .copy { value := "${B}" }⟩
    let b : Action := ⟨none, "concat", "B", .concat { values := ["1", "2"] }⟩
    let r : Rule :=
      { uid := "new", description := "d", actions := [a, b],
        condition := some (.group {} "all" [.group {} "any" [inner]]) }
    Payload.ofJson "new" value = .ok (.rule r) ∧
      Payload.ofJson "other" r.toJson = .ok (.rule r) ∧
      ∃ r1, CommandLine.validated none (.rule r) = .ok r1.toJson ∧
        r1.actions.map Action.target = ["B", "A"] ∧
        Payload.ofJson "other" r1.toJson = .ok (.rule r1) := by
  intro copies joins condition value inner a b r
  have hread : Payload.ofJson "new" value = .ok (.rule r) := by
    dsimp only [value, condition, copies, joins, r, inner, a, b]
    rfl
  have hresolved : r.resolveActions = .ok _ :=
    Rule.resolveActions_eq_ok.mpr ⟨by decide +kernel, rfl⟩
  have hvalidated := Rule.validated_eq_ok.mpr ⟨by decide +kernel, hresolved⟩
  have hjson : CommandLine.validated none (.rule r) = .ok _ := map_eq_ok.mpr ⟨_, hvalidated, rfl⟩
  obtain ⟨hagain, hprinted⟩ := payload_round_trip (by decide) hread "other"
  obtain ⟨_, ⟨hr⟩, hchecked⟩ := hprinted none _ hjson
  obtain rfl := Except.ok.inj (hvalidated.symm.trans hr)
  exact ⟨hread, hagain, _, hjson, by decide +kernel, hchecked⟩

end EventRules
