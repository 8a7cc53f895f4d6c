import EventRules.Proofs.Pipeline.Document
import EventRules.Proofs.RuleSet.Alike
import EventRules.Proofs.RuleSet.Document

/-! The notification for which a document is entered. The phases of the outer blocks are read off
the ruleset as it was submitted, but the notification of the first block is read when the rules have
been put in order: where several rules declare one, it is that of the foremost among them. -/
namespace EventRules

/-- The filter of the first block. -/
def Json.entryFilter? (document : Json) : Option Json :=
  document.blocks.head?.bind (member? "filter")

namespace Filter

/-- The filter for a notification as it stands in a document. -/
def notificationJson (name : String) : Json := (forNotification name).toJson.unquote

theorem value_notificationJson (name : String) :
    (notificationJson name).textUnder? "value" = some (unquoteEmpty name) := by
  have hplain : Json.PlainKeys [("string", Json.text "$\x7bnotify OID\x7d"),
      ("value", .text name), ("class", .text "StartsWith")] := by
    constructor <;> simp [emptySentinel]
  have hobject : notificationJson name = (Json.object [("string", .text "$\x7bnotify OID\x7d"),
      ("value", .text name), ("class", .text "StartsWith")]).unquote := by
    unfold notificationJson forNotification
    rw [toJson]
    rfl
  unfold Json.textUnder?
  rw [hobject, hplain.member?_unquote]
  simp [List.lookup_cons, Json.text?]

/-- Notifications with the same filter are the same. -/
theorem notificationJson_inj {name other : String} (hname : name ≠ "") (hother : other ≠ "")
    (h : notificationJson name = notificationJson other) : name = other := by
  have hvalue : unquoteEmpty name = unquoteEmpty other := by
    rw [← Option.some_inj, ← value_notificationJson, ← value_notificationJson, h]
  by_cases hsentinel : other = emptySentinel
  · -- the sentinel is written as the empty text, and no other name is
    rw [hsentinel, unquoteEmpty_eq_empty_iff.mpr (.inr rfl)] at hvalue
    rw [hsentinel]
    exact (unquoteEmpty_eq_empty_iff.mp hvalue).resolve_left hname
  · rw [unquoteEmpty_of_ne hsentinel] at hvalue
    exact (unquoteEmpty_eq_iff ⟨hother, hsentinel⟩).mp hvalue

theorem map_notificationJson_inj {notify other : Option String}
    (hnotify : ∀ name, notify = some name → name ≠ "")
    (hother : ∀ name, other = some name → name ≠ "") :
    notify.map notificationJson = other.map notificationJson ↔ notify = other := by
  cases notify with
  | none => cases other <;> simp
  | some name =>
    cases other with
    | none => simp
    | some name' =>
      rw [Option.map_some, Option.map_some, Option.some_inj, Option.some_inj]
      exact ⟨notificationJson_inj (hnotify name rfl) (hother name' rfl), congrArg _⟩

end Filter

theorem PhaseBlock.filter_toJson (b : PhaseBlock) :
    b.toJson.unquote.member? "filter" = b.filter.map fun f => f.toJson.unquote := by
  rw [toJson_eq, b.plainKeys.member?_unquote]
  cases h : b.filter <;> simp [fields, h, List.lookup_cons]

namespace Pipeline

variable {phases : Phases} {notify : Option String} {first : String} {blocks : List PhaseBlock}

theorem entryFilter?_surrounded : (surrounded phases notify first blocks).toJson.entryFilter? =
    notify.map Filter.notificationJson := by
  rw [Json.entryFilter?, blocks_toJson, surrounded, List.cons_append, List.map_cons,
    List.head?_cons, Option.bind_some, PhaseBlock.filter_toJson]
  cases notify <;> rfl

theorem runs_last_surrounded :
    (surrounded phases notify first blocks).toJson.blocks.getLast?.map Json.runs =
      some [unquoteEmpty phases.publish] := by
  rw [blocks_toJson, surrounded, List.map_append, List.map_singleton, List.getLast?_concat,
    Option.map_some, PhaseBlock.runs_toJson, jumps_publishBlock, List.map_singleton]

end Pipeline

namespace Rule.Arranged

variable {r r' other other' : Rule} (h : r.Arranged r')
include h

theorem notify?_eq : r.notify? = r'.notify? := by
  obtain ⟨uid, actions, rfl, -⟩ := h
  rfl

theorem references_eq (field : String) :
    Text.references r.sources field = Text.references r'.sources field := by
  obtain ⟨uid, actions, rfl, hperm⟩ := h
  have hsources : (r.actions.flatMap Action.sources).Perm (actions.flatMap Action.sources) :=
    hperm.symm.flatMap_right Action.sources
  unfold Text.references sources
  rw [(hsources.append_right _).any_eq]

/-- What a rule depends on does not change with the order of the actions. -/
theorem dependsOn_eq (ho : other.Arranged other') : r.dependsOn other = r'.dependsOn other' := by
  have hgroups : r.inOtherGroup other = r'.inOtherGroup other' := by
    unfold inOtherGroup
    rw [h.group?_eq, ho.group?_eq]
  have hfields : (other.actions.any fun action => Text.references r.sources action.field) =
      other'.actions.any fun action => Text.references r'.sources action.field := by
    obtain ⟨uid, actions, rfl, hperm⟩ := ho
    simp only [h.references_eq]
    exact hperm.symm.any_eq
  unfold dependsOn
  rw [hgroups]
  simp only [hfields]

end Rule.Arranged

/-- What is found first in an arranged list is found at the foremost of the places that have it. -/
theorem findSome?_arranged {α β : Type} {relation : α → α → Bool} {items : List α}
    {f : α → Option β} {b : β} : (arranged relation items).findSome? f = some b ↔
      ∃ i, Foremost (Depends relation items) (fun j => (items[j]?.bind f).isSome) i ∧
        items[i]?.bind f = some b := by
  have hplaces : ∀ i, (items[i]?.bind f).isSome →
      i < (DependencyGraph.ofItems relation items).size := by
    intro i hi
    rw [DependencyGraph.ofItems_size]
    by_contra hle
    simp [List.getElem?_eq_none (not_lt.mp hle)] at hi
  rw [arranged, pick, ← List.head?_filterMap, List.filterMap_filterMap, List.head?_filterMap,
    DependencyGraph.findSome?_order _ hplaces, ofItems_dependsOn_eq]

namespace RuleSet

/-- The notification that the rule at a place declares. -/
def notifyAt? (s : RuleSet) (place : ℕ) : Option String := s.rules[place]?.bind Rule.notify?

/-- The place is the foremost of those at which a rule declares a notification. -/
def DeclaresForemost (s : RuleSet) (place : ℕ) : Prop :=
  Foremost (Depends Rule.dependsOn s.rules) (fun j => (s.notifyAt? j).isSome) place

variable {s : RuleSet}

theorem arranged_rules (s : RuleSet) : s.ordered.rules = arranged Rule.dependsOn s.rules :=
  s.rules_ordered

/-- The order of the rules is not touched by that of their actions. -/
theorem notify?_of_accepted {catalog : Option Catalog} {phases : Phases} {imported last : RuleSet}
    (h : Accepted catalog phases s imported last) : last.notify? = s.ordered.notify? := by
  have hgraph : s.ruleGraph = imported.ruleGraph :=
    ofItems_eq_of_forall₂ (R := Rule.Arranged) (fun _ _ hr _ _ ho => hr.dependsOn_eq ho) h.arranged
  have hrules : last.rules = pick imported.rules imported.ruleGraph.order := by
    rw [h.computed.2]
    exact imported.pick_rules _
  have hfirst : s.ordered.rules.findSome? Rule.notify? = last.rules.findSome? Rule.notify? := by
    rw [hrules, rules_ordered, hgraph]
    exact findSome?_eq_of_forall₂ (R := Rule.Arranged) (fun _ _ hr => hr.notify?_eq)
      (pick_forall₂ h.arranged _)
  have hown : last.notifyId = s.ordered.notifyId := by
    rw [h.computed.2, h.computed.1]
    rfl
  rw [notify?, notify?, declared, declared, hown, hfirst]

theorem notify?_ne_empty {name : String} (h : s.notify? = some name) : name ≠ "" :=
  declared_ne_empty (fun _ _ => Text.nonBlank_ne_empty) h

theorem notify?_ordered_eq_some_iff {name : String} : s.ordered.notify? = some name ↔
    Text.nonBlank s.notifyId = some name ∨ Text.nonBlank s.notifyId = none ∧
      ∃ i, s.DeclaresForemost i ∧ s.notifyAt? i = some name := by
  rw [notify?, declared, arranged_rules, Option.or_eq_some_iff, findSome?_arranged]
  rfl

/-- Putting the rules in order leaves the notification as it is exactly when the ruleset declares
one itself or the foremost rule that does declares the same as the first one. -/
theorem notify?_ordered_eq_iff : s.ordered.notify? = s.notify? ↔
    (Text.nonBlank s.notifyId).isSome ∨
      ∀ i, s.DeclaresForemost i → s.notifyAt? i = s.notify? := by
  cases hown : Text.nonBlank s.notifyId with
  | some own =>
    have hordered : Text.nonBlank s.ordered.notifyId = some own := hown
    simp [notify?, declared, hown, hordered]
  | none =>
    rw [Option.isSome_none, Bool.false_eq_true, false_or]
    constructor
    · intro heq i hi
      obtain ⟨name, hname⟩ := Option.isSome_iff_exists.mp hi.1
      rw [hname, ← heq]
      exact (notify?_ordered_eq_some_iff.mpr (.inr ⟨hown, i, hi, hname⟩)).symm
    · intro hall
      cases hname : s.ordered.notify? with
      | some name =>
        rcases notify?_ordered_eq_some_iff.mp hname with hsome | ⟨-, i, hi, hat⟩
        · simp [hown] at hsome
        · rw [← hall i hi, hat]
      | none =>
        -- no rule declares one, in whatever order the rules stand
        obtain ⟨-, hnone⟩ := Option.or_eq_none_iff.mp hname
        rw [arranged_rules, List.findSome?_eq_none_iff] at hnone
        rw [notify?, declared, hown, Option.none_or, eq_comm, List.findSome?_eq_none_iff]
        exact fun r hr => hnone r ((arranged_perm Rule.dependsOn s.rules).mem_iff.mpr hr)

end RuleSet

/-- The outer phases of a compiled document are those of the ruleset as it was submitted. The filter
of its first block is that of the notification that the ruleset declares itself, or else that of the
foremost rule that declares one, and there is none otherwise. This is the notification of the
ruleset as it was submitted exactly when the ruleset declares one itself or the foremost rule that
does declares the same as the first one. -/
theorem notification_exact {configured : Phases} {catalog : Option Catalog} {s : RuleSet}
    {json : Json} (h : (Compile.ruleSet configured catalog s).1 = .ok json) :
    let phases := s.effectivePhases configured
    json.phaseAt? 0 = some phases.entry ∧
    json.blocks.getLast?.map Json.runs = some [unquoteEmpty phases.publish] ∧
    (∃ notify, json.entryFilter? = notify.map Filter.notificationJson ∧
      ∀ name, notify = some name ↔ Text.nonBlank s.notifyId = some name ∨
        Text.nonBlank s.notifyId = none ∧ ∃ i, s.DeclaresForemost i ∧ s.notifyAt? i = some name) ∧
    (json.entryFilter? = s.notify?.map Filter.notificationJson ↔
      (Text.nonBlank s.notifyId).isSome ∨
        ∀ i, s.DeclaresForemost i → s.notifyAt? i = s.notify?) := by
  intro phases
  obtain ⟨imported, ordered, first, blocks, p, haccepted, -, hp, hnamed, rfl⟩ :=
    Compile.exists_inner h
  have hfilter : p.toJson.entryFilter? = s.ordered.notify?.map Filter.notificationJson := by
    rw [hp, RuleSet.notify?_of_accepted haccepted]
    exact Pipeline.entryFilter?_surrounded
  refine ⟨?_, ?_, ⟨_, hfilter, fun name => RuleSet.notify?_ordered_eq_some_iff⟩, ?_⟩
  · rw [hnamed.phaseAt?_toJson, hp, Pipeline.names_surrounded]
    rfl
  · rw [hp]
    exact Pipeline.runs_last_surrounded
  · rw [hfilter, Filter.map_notificationJson_inj (fun _ => RuleSet.notify?_ne_empty)
      fun _ => RuleSet.notify?_ne_empty]
    exact RuleSet.notify?_ordered_eq_iff

/-- A rule that declares a notification and copies a field. -/
def notifyRule (notify target source : String) : Rule :=
  { description := "d", notifyId := some notify, actions := [.copy target source] }

/-- A ruleset that declares a notification itself keeps it when its rules change places. -/
theorem notification_exact_declared :
    let s : RuleSet := { notifyId := some " 1.0 ", entries :=
      [("u", notifyRule "1.1" "A" "${B}"), ("v", notifyRule "1.2" "B" "1")] }
    ∃ json, (Compile.ruleSet {} none s).1 = .ok json ∧
      json.phaseAt? 0 = some "snmp_map" ∧
      json.blocks.getLast?.map Json.runs = some ["map_publish"] ∧
      json.entryFilter? = some (Filter.notificationJson "1.0") := by
  intro s
  have hcompiled : (Compile.ruleSet {} none s).1.isOk := by decide +kernel
  match hjson : (Compile.ruleSet {} none s).1 with
  | .error fault => simp [hjson, Except.isOk, Except.toBool] at hcompiled
  | .ok json =>
  obtain ⟨hentry, hpublish, -, hkept⟩ := notification_exact hjson
  have hphases : s.effectivePhases {} = {} := by decide
  have hown : s.notify? = some "1.0" := by decide +kernel
  rw [hphases] at hentry hpublish
  refine ⟨json, rfl, hentry, hpublish.trans (by decide), ?_⟩
  rw [hkept.mpr (.inl (by decide +kernel)), hown]
  rfl

/-- Where the first rule reads what the second one writes, the rules change places, and the document
is entered for the notification of the second one, not for that of the ruleset. -/
theorem notification_moves :
    let s : RuleSet := { entries :=
      [("u", notifyRule "1.1" "A" "${B}"), ("v", notifyRule "1.2" "B" "1")] }
    s.notify? = some "1.1" ∧ ∃ json, (Compile.ruleSet {} none s).1 = .ok json ∧
      json.entryFilter? = some (Filter.notificationJson "1.2") ∧
      json.entryFilter? ≠ s.notify?.map Filter.notificationJson := by
  intro s
  have hcompiled : (Compile.ruleSet {} none s).1.isOk := by decide +kernel
  match hjson : (Compile.ruleSet {} none s).1 with
  | .error fault => simp [hjson, Except.isOk, Except.toBool] at hcompiled
  | .ok json =>
  obtain ⟨imported, ordered, first, blocks, p, haccepted, -, hp, -, rfl⟩ :=
    Compile.exists_inner hjson
  have hsubmitted : s.notify? = some "1.1" := by decide +kernel
  have hordered : s.ordered.notify? = some "1.2" := by decide +kernel
  have hfilter : p.toJson.entryFilter? = some (Filter.notificationJson "1.2") := by
    rw [hp, Pipeline.entryFilter?_surrounded, RuleSet.notify?_of_accepted haccepted, hordered]
    rfl
  refine ⟨hsubmitted, _, rfl, hfilter, fun heq => ?_⟩
  rw [hfilter, hsubmitted, Option.map_some, Option.some_inj] at heq
  exact absurd (Filter.notificationJson_inj (by decide) (by decide) heq) (by decide)

end EventRules
