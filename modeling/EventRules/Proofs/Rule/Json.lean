import EventRules.Rule.Json
import EventRules.Proofs.Action.Json
import EventRules.Proofs.Ordered
import EventRules.Proofs.RuleSet.Preservation

/-! Rules and rulesets that are written and read again. Whatever is read is plain, resolution keeps
it so, and what is plain is read again as it was written. -/
namespace EventRules

open Json

theorem Condition.toJson_ne_null (c : Condition) : c.toJson ≠ .null := by
  cases c with
  | group label typeName members =>
    rw [toJson]
    exact nofun
  | comparison c =>
    rw [toJson]
    exact nofun

namespace Rule

/-- The actions and the condition of the rule are plain. -/
structure Plain (r : Rule) : Prop where
  actions : ∀ a ∈ r.actions, a.Plain
  condition : ∀ c ∈ r.condition, c.Plain

variable {r other : Rule} {value : Json}

theorem plain_of_ofJson? (h : ofJson? value = some r) : r.Plain := by
  obtain ⟨fields, -, h⟩ := Option.bind_eq_some_iff.mp h
  obtain ⟨uid, -, h⟩ := Option.bind_eq_some_iff.mp h
  obtain ⟨description, -, h⟩ := Option.bind_eq_some_iff.mp h
  obtain ⟨actions, hactions, h⟩ := Option.bind_eq_some_iff.mp h
  obtain ⟨condition, hcondition, h⟩ := Option.bind_eq_some_iff.mp h
  iterate 7 obtain ⟨_, -, h⟩ := Option.bind_eq_some_iff.mp h
  obtain rfl := Option.some.inj h
  refine ⟨fun a ha => ?_, fun c hc => ?_⟩
  · obtain ⟨item, hitem⟩ := exists_read_of_listField hactions ha
    exact Action.plain_of_ofJson? hitem
  · obtain ⟨v, hv⟩ := exists_read_of_optionalField hcondition hc
    exact c.plain_of_ofJson? v hv

theorem Plain.reordered (h : r.Plain) (hr : r.Reordered other) : other.Plain := by
  obtain ⟨actions, rfl, hperm⟩ := hr
  exact ⟨fun a ha => h.actions a (hperm.mem_iff.mp ha), h.condition⟩

theorem Plain.withUid (h : r.Plain) (uid : String) : { r with uid }.Plain :=
  ⟨h.actions, h.condition⟩

theorem Plain.identified (h : r.Plain) (fresh : String) : (r.identified fresh).Plain := by
  rw [Rule.identified]
  split
  · exact h.withUid fresh
  · exact h

/-- The members of the rule, where they are not left out. -/
def members (r : Rule) : List (Option (String × Json)) :=
  [unlessEmpty "uid" r.uid, always "description" (.text r.description),
    always "actions" (.array (r.actions.map Action.toJson)),
    optional "condition" (r.condition.map Condition.toJson),
    optional "groupId" (r.groupId.map .text), optional "phase" (r.phaseName.map .text),
    optional "entryPhase" (r.entryPhase.map .text),
    optional "publishPhase" (r.publishPhase.map .text),
    optional "notifyId" (r.notifyId.map .text), optional "version" (r.version.map .text),
    optional "eventType" (r.eventType.map .text)]

theorem toJson_eq (r : Rule) : r.toJson = .object (written r.members) := rfl

theorem lookup_actions (r : Rule) :
    (written r.members).lookup "actions" = some (.array (r.actions.map Action.toJson)) := by
  simp [members]

theorem lookup_condition (r : Rule) :
    (written r.members).lookup "condition" = r.condition.map Condition.toJson := by
  simp [members]

theorem lookup_rules (r : Rule) : (written r.members).lookup "rules" = none := by
  simp [members]

theorem ofJson?_toJson (h : r.Plain) : ofJson? r.toJson = some r := by
  have hactions : listField Action.ofJson? "actions" (written r.members) = some r.actions := by
    rw [listField, fieldOr_eq, lookup_actions]
    exact list?_array_map fun a ha => Action.ofJson?_toJson (h.actions a ha)
  have hcondition : optionalField Condition.ofJson? "condition" (written r.members) =
      some r.condition := by
    rw [optionalField_eq, lookup_condition]
    exact optionalValue_map fun c hc => ⟨c.toJson_ne_null, c.ofJson?_toJson (h.condition c hc)⟩
  have huid : textField "uid" (written r.members) = some r.uid := by
    simp [textField, members]
  have hdescription : textField "description" (written r.members) = some r.description := by
    simp [textField, members, text?]
  have hgroup : optionalText "groupId" (written r.members) = some r.groupId := by
    simp [optionalText, members]
  have hphase : optionalText "phase" (written r.members) = some r.phaseName := by
    simp [optionalText, members]
  have hentry : optionalText "entryPhase" (written r.members) = some r.entryPhase := by
    simp [optionalText, members]
  have hpublish : optionalText "publishPhase" (written r.members) = some r.publishPhase := by
    simp [optionalText, members]
  have hnotify : optionalText "notifyId" (written r.members) = some r.notifyId := by
    simp [optionalText, members]
  have hversion : optionalText "version" (written r.members) = some r.version := by
    simp [optionalText, members]
  have heventType : optionalText "eventType" (written r.members) = some r.eventType := by
    simp [optionalText, members]
  rw [ofJson?, toJson, fields?_record, ← members]
  -- the reader is undone field by field, since simp would go through all that is left at each one
  refine Option.bind_eq_some_iff.mpr ⟨_, rfl, ?_⟩
  refine Option.bind_eq_some_iff.mpr ⟨_, huid, ?_⟩
  refine Option.bind_eq_some_iff.mpr ⟨_, hdescription, ?_⟩
  refine Option.bind_eq_some_iff.mpr ⟨_, hactions, ?_⟩
  refine Option.bind_eq_some_iff.mpr ⟨_, hcondition, ?_⟩
  refine Option.bind_eq_some_iff.mpr ⟨_, hgroup, ?_⟩
  refine Option.bind_eq_some_iff.mpr ⟨_, hphase, ?_⟩
  refine Option.bind_eq_some_iff.mpr ⟨_, hentry, ?_⟩
  refine Option.bind_eq_some_iff.mpr ⟨_, hpublish, ?_⟩
  refine Option.bind_eq_some_iff.mpr ⟨_, hnotify, ?_⟩
  refine Option.bind_eq_some_iff.mpr ⟨_, hversion, ?_⟩
  exact Option.bind_eq_some_iff.mpr ⟨_, heventType, rfl⟩

end Rule

namespace RuleSet

variable {catalog : Option Catalog} {s t : RuleSet} {value : Json}

/-- The rules are plain and stand under distinct keys, which are their identifiers. -/
structure Plain (s : RuleSet) : Prop where
  rules : ∀ r ∈ s.rules, r.Plain
  ids : s.ids.Nodup
  synced : ∀ entry ∈ s.entries, entry.2.uid = entry.1

theorem syncIds_eq_self (h : ∀ entry ∈ s.entries, entry.2.uid = entry.1) : s.syncIds = s := by
  have hentry : ∀ entry ∈ s.entries, (entry.1, { entry.2 with uid := entry.1 }) = entry := by
    rintro ⟨key, rule⟩ hmem
    obtain rfl : rule.uid = key := h _ hmem
    rfl
  rw [syncIds, List.map_congr_left hentry, List.map_id']

theorem ids_syncIds (s : RuleSet) : s.syncIds.ids = s.ids := by
  simp [ids, syncIds, Ordered.keys, Function.comp_def]

theorem exists_read_of_readEntries? {fields : List (String × Json)}
    {entries : List (String × Rule)} (h : readEntries? fields = some entries)
    {entry : String × Rule} (hentry : entry ∈ entries) : ∃ v, Rule.ofJson? v = some entry.2 := by
  induction fields generalizing entries with
  | nil =>
    obtain rfl : [] = entries := by simpa [readEntries?] using h
    simp at hentry
  | cons field rest ih =>
    obtain ⟨rule, hrule, h⟩ := Option.bind_eq_some_iff.mp h
    obtain ⟨others, hothers, h⟩ := Option.bind_eq_some_iff.mp h
    obtain rfl := Option.some.inj h
    rcases List.mem_cons.mp hentry with rfl | hentry
    · exact ⟨_, hrule⟩
    · exact ih hothers hentry

/-- What is read for the rules of a ruleset is a table of plain rules. -/
theorem entries_of_ofJson? (h : ofJson? value = some s) :
    s.ids.Nodup ∧ ∀ r ∈ s.rules, r.Plain := by
  obtain ⟨fields, -, h⟩ := Option.bind_eq_some_iff.mp h
  iterate 5 obtain ⟨_, -, h⟩ := Option.bind_eq_some_iff.mp h
  obtain ⟨entries, hentries, h⟩ := Option.bind_eq_some_iff.mp h
  obtain rfl := Option.some.inj h
  rw [fieldOr_eq] at hentries
  cases hv : fields.lookup "rules" with
  | none =>
    obtain rfl : [] = entries := by simpa [hv] using hentries
    exact ⟨List.nodup_nil, fun r hr => absurd hr List.not_mem_nil⟩
  | some v =>
    rw [hv] at hentries
    obtain ⟨pairs, hpairs, rfl⟩ := Option.map_eq_some_iff.mp hentries
    obtain ⟨members, -, hread⟩ := Option.bind_eq_some_iff.mp hpairs
    refine ⟨Ordered.keys_ofPairs_nodup pairs, fun r hr => ?_⟩
    obtain ⟨entry, hentry, rfl⟩ := List.mem_map.mp hr
    obtain ⟨front, back, hsplit, -⟩ := Ordered.mem_ofPairs.mp hentry
    have hmem : entry ∈ pairs := by simp [hsplit]
    obtain ⟨v, hv⟩ := exists_read_of_readEntries? hread hmem
    exact Rule.plain_of_ofJson? hv

theorem plain_of_ofJson? (h : ofJson? value = some s) : s.syncIds.Plain := by
  obtain ⟨hids, hrules⟩ := entries_of_ofJson? h
  refine ⟨fun r hr => ?_, by rwa [ids_syncIds], fun entry hentry => ?_⟩
  · rw [RuleSet.rules, syncIds, List.map_map] at hr
    obtain ⟨entry, hentry, rfl⟩ := List.mem_map.mp hr
    exact (hrules entry.2 (List.mem_map_of_mem hentry)).withUid entry.1
  · obtain ⟨entry, -, rfl⟩ := List.mem_map.mp hentry
    rfl

/-- The checks before translation keep a ruleset plain. -/
theorem Plain.imported (h : s.Plain) (ht : s.imported catalog = .ok t) : t.Plain := by
  have himports : ∀ entry ∈ t.entries, ∃ e ∈ s.entries, Imports e entry := fun entry hentry =>
    exists_of_forall₂ (imports_of_imported ht) hentry
  refine ⟨fun r hr => ?_, by rw [ids_of_imported ht]; exact h.ids, fun entry hentry => ?_⟩
  · obtain ⟨entry, hentry, rfl⟩ := List.mem_map.mp hr
    obtain ⟨e, he, -, hreordered⟩ := himports entry hentry
    exact ((h.rules _ (List.mem_map_of_mem he)).withUid e.1).reordered hreordered
  · obtain ⟨e, -, hkey, actions, hrule, -⟩ := himports entry hentry
    rw [hrule, hkey]

/-- The members of the ruleset, where they are not left out. -/
def members (s : RuleSet) : List (Option (String × Json)) :=
  [optional "version" (s.version.map .text), optional "eventType" (s.eventType.map .text),
    optional "notifyId" (s.notifyId.map .text), optional "entryPhase" (s.entryPhase.map .text),
    optional "publishPhase" (s.publishPhase.map .text),
    always "rules" (.object (s.entries.map fun entry => (entry.1, entry.2.toJson)))]

theorem toJson_eq (s : RuleSet) : s.toJson = .object (written s.members) := rfl

theorem lookup_rules (s : RuleSet) : (written s.members).lookup "rules" =
    some (.object (s.entries.map fun entry => (entry.1, entry.2.toJson))) := by
  simp [members]

theorem readEntries?_map {entries : List (String × Rule)} (h : ∀ e ∈ entries, e.2.Plain) :
    readEntries? (entries.map fun entry => (entry.1, entry.2.toJson)) = some entries := by
  induction entries with
  | nil => rfl
  | cons entry rest ih =>
    simp [readEntries?, Rule.ofJson?_toJson (h entry (by simp)), ih fun e he => h e (by simp [he])]

theorem ofJson?_toJson (h : s.Plain) : ofJson? s.toJson = some s := by
  have hentries : fieldOr [] entries? "rules" (written s.members) = some s.entries := by
    rw [fieldOr_eq, lookup_rules, Option.elim_some, entries?, members?, Option.bind_some,
      readEntries?_map fun e he => h.rules _ (List.mem_map_of_mem he), Option.map_some,
      Ordered.ofPairs_eq_self h.ids]
  have hversion : optionalText "version" (written s.members) = some s.version := by
    simp [optionalText, members]
  have heventType : optionalText "eventType" (written s.members) = some s.eventType := by
    simp [optionalText, members]
  have hnotify : optionalText "notifyId" (written s.members) = some s.notifyId := by
    simp [optionalText, members]
  have hentry : optionalText "entryPhase" (written s.members) = some s.entryPhase := by
    simp [optionalText, members]
  have hpublish : optionalText "publishPhase" (written s.members) = some s.publishPhase := by
    simp [optionalText, members]
  rw [ofJson?, toJson, fields?_record, ← members]
  refine Option.bind_eq_some_iff.mpr ⟨_, rfl, ?_⟩
  refine Option.bind_eq_some_iff.mpr ⟨_, hversion, ?_⟩
  refine Option.bind_eq_some_iff.mpr ⟨_, heventType, ?_⟩
  refine Option.bind_eq_some_iff.mpr ⟨_, hnotify, ?_⟩
  refine Option.bind_eq_some_iff.mpr ⟨_, hentry, ?_⟩
  refine Option.bind_eq_some_iff.mpr ⟨_, hpublish, ?_⟩
  exact Option.bind_eq_some_iff.mpr ⟨_, hentries, rfl⟩

end RuleSet
end EventRules
