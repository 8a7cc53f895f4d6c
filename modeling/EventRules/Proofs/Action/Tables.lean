import EventRules.Proofs.Json.Within
import EventRules.Proofs.Pipeline.Document
import EventRules.Proofs.Processor.Updates

/-! Tables of keys and values, from the action that submits them to the finished document. Checked
entries have different filled keys, so that no two of them become one on the way. The updates of a
search take in one key more, and lose the entry that is submitted with it. -/
namespace EventRules

open Json

/-- An entry as the member of an object, once the sentinel is read. -/
def KeyValue.member (e : KeyValue) : String × Json :=
  (unquoteEmpty e.key, .text (unquoteEmpty e.value))

namespace Processor

theorem member?_unquote (p : Processor) (key : String) :
    p.toJson.unquote.member? key = (p.fields.lookup key).map Json.unquote := by
  rw [toJson_eq, p.plainKeys.member?_unquote]

theorem lookup_updates (field value : String) (filter : Option Filter)
    (updates : List (String × UpdateValue)) :
    (searchTopology field value filter (.update updates)).fields.lookup "updates" =
      some (.object (updates.map fun entry => (entry.1, entry.2.toJson))) := by
  cases filter <;> rfl

end Processor

namespace TopologySearch

variable {s : TopologySearch}

/-- The member that marks an enriched event. -/
def mark : String × Json := ("isEnriched", .bool true)

/-- An update as the member of an object, once the sentinel is read. -/
def member (u : String × UpdateValue) : String × Json := (unquoteEmpty u.1, u.2.toJson.unquote)

theorem member_mark : member ("isEnriched", .flag true) = mark := by
  rw [member, UpdateValue.toJson, unquote, unquoteEmpty_of_ne (by simp [emptySentinel]), mark]

theorem map_member (updates : List KeyValue) :
    (updates.map fun e => (e.key, UpdateValue.text e.value)).map member =
      updates.map KeyValue.member := by
  simp [member, UpdateValue.toJson, KeyValue.member]

/-- The updates of a search with different keys: its own mark comes last. -/
theorem markedUpdates_of_notMem (h : (s.updates.map KeyValue.key).Nodup)
    (hmark : "isEnriched" ∉ s.updates.map KeyValue.key) : s.markedUpdates =
      s.updates.map (fun e => (e.key, .text e.value)) ++ [("isEnriched", .flag true)] := by
  rw [← keys_updates] at h hmark
  rw [markedUpdates, Ordered.ofPairs_eq_self h, Ordered.insert_of_notMem hmark]

/-- An update that is submitted under the key of the mark gives way to it. -/
theorem markedUpdates_of_split (h : (s.updates.map KeyValue.key).Nodup) {front back : List KeyValue}
    {e : KeyValue} (hsplit : s.updates = front ++ e :: back) (hmark : e.key = "isEnriched") :
    s.markedUpdates = front.map (fun e => (e.key, UpdateValue.text e.value)) ++
      ("isEnriched", .flag true) :: back.map fun e => (e.key, UpdateValue.text e.value) := by
  have hfront : "isEnriched" ∉
      Ordered.keys (front.map fun e => (e.key, UpdateValue.text e.value)) := by
    rw [hsplit, List.map_append, List.map_cons, hmark] at h
    have hapart := (List.nodup_append.mp h).2.2
    rw [keys_updates]
    intro hmem
    exact hapart "isEnriched" hmem "isEnriched" (by simp) rfl
  rw [← keys_updates] at h
  rw [markedUpdates, Ordered.ofPairs_eq_self h, hsplit, List.map_append, List.map_cons, hmark,
    Ordered.insert_append_cons hfront]

theorem filledKeys_markedUpdates (h : "" ∉ s.updates.map KeyValue.key) :
    FilledKeys s.markedUpdates where
  nodup := Ordered.keys_insert_nodup (Ordered.keys_ofPairs_nodup _)
  notMem hempty := by
    obtain hmark | ⟨e, he, hkey⟩ := mem_keys_markedUpdates.mp hempty
    · simp at hmark
    · exact h (List.mem_map.mpr ⟨e, he, hkey⟩)

end TopologySearch

namespace Action

variable {a : Action}

theorem texts_of_accepts (h : a.check.accepts) {source : Source} {table : ValueTable}
    (heffect : a.effect = .map source table) :
    table.texts = table.entries.map (fun e => (e.key, e.value)) ∧ FilledKeys table.texts := by
  have hkeys : Ordered.keys (table.entries.map fun e => (e.key, e.value)) =
      a.entries.map KeyValue.key := by
    simp [Ordered.keys, entries, heffect]
  obtain ⟨hnodup, hempty⟩ := keys_of_accepts h
  rw [← hkeys] at hnodup hempty
  rw [ValueTable.texts, Ordered.ofPairs_eq_self hnodup]
  exact ⟨rfl, hnodup, hempty⟩

theorem updates_of_accepts (h : a.check.accepts) {search : TopologySearch}
    (heffect : a.effect = .searchTopology search) (hmode : ¬ search.enriches) :
    FilledKeys search.markedUpdates := by
  have hempty := (keys_of_accepts h).2
  rw [entries, heffect] at hempty
  exact TopologySearch.filledKeys_markedUpdates (by simpa [hmode] using hempty)

/-- A submitted table is in the document as it was checked: each entry in its place, with the
sentinel read as the empty text. This holds of the table of a map, and of the updates of a search,
with the mark after them, if none is submitted under the key of the mark. One that is loses its
value, and the mark is in its place. -/
theorem tables_exact (h : a.check.accepts) : ∃ p, a.processor = .ok p ∧
    (∀ source table, a.effect = .map source table →
      p.toJson.unquote.member? "map" = some (.object (table.entries.map KeyValue.member))) ∧
    ∀ search, a.effect = .searchTopology search → ¬ search.enriches → ∃ updates,
      p.toJson.unquote.member? "updates" = some (.object updates) ∧
      (updates = search.updates.map KeyValue.member ++ [TopologySearch.mark] ↔
        ∀ e ∈ search.updates, e.key ≠ "isEnriched") ∧
      ∀ front e back, search.updates = front ++ e :: back → e.key = "isEnriched" →
        updates = front.map KeyValue.member ++
          TopologySearch.mark :: back.map KeyValue.member := by
  obtain ⟨p, hp⟩ := exists_processor h
  refine ⟨p, hp, fun source table heffect => ?_, fun search heffect hmode => ?_⟩
  · obtain ⟨htexts, hkeys⟩ := texts_of_accepts h heffect
    simp only [processor, heffect, Except.ok.injEq] at hp
    rw [← hp, Processor.member?_unquote]
    change some (Processor.tableToJson table.texts).unquote = _
    rw [Processor.tableToJson, hkeys.unquote_object, htexts, List.map_map]
    simp [KeyValue.member, Function.comp_def]
  · have hnodup := nodup_updates h heffect hmode
    rw [processor, heffect] at hp
    obtain ⟨filter, rfl⟩ := TopologySearch.exists_filter_of_processor hp
    have hsplit : ∀ front e back, search.updates = front ++ e :: back → e.key = "isEnriched" →
        search.markedUpdates.map TopologySearch.member =
          front.map KeyValue.member ++ TopologySearch.mark :: back.map KeyValue.member := by
      intro front e back hupdates hkey
      rw [TopologySearch.markedUpdates_of_split hnodup hupdates hkey, List.map_append,
        List.map_cons, TopologySearch.map_member, TopologySearch.map_member,
        TopologySearch.member_mark]
    refine ⟨_, ?_, ⟨fun hsame e he hkey => ?_, fun hapart => ?_⟩, hsplit⟩
    · rw [TopologySearch.outcome, if_neg hmode, Processor.member?_unquote,
        Processor.lookup_updates, Option.map_some,
        (updates_of_accepts h heffect hmode).unquote_object]
      rfl
    · -- an entry under the key of the mark gives way to it, and so one member is missing
      obtain ⟨front, back, hupdates⟩ := List.append_of_mem he
      have hlength := congrArg List.length (hsame.symm.trans (hsplit front e back hupdates hkey))
      simp [hupdates] at hlength
    · rw [TopologySearch.markedUpdates_of_notMem hnodup (by simpa using hapart), List.map_append,
        TopologySearch.map_member, List.map_singleton, TopologySearch.member_mark]

/-- The sentinel as a key and as a value, in a table and in updates. -/
theorem tables_exact_sentinels :
    let table : ValueTable := { entries := [⟨"1", "one"⟩, ⟨"\"\"", "none"⟩, ⟨"2", "\"\""⟩] }
    let search : TopologySearch :=
      { field := "name", value := "v", mode := "update",
        updates := [⟨"site", "\"\""⟩, ⟨"x", "1"⟩] }
    let a := ofEffect "t" (.map { value := "${v}" } table)
    let b := ofEffect "t" (.searchTopology search)
    a.check.accepts ∧ b.check.accepts ∧
      (∃ p, a.processor = .ok p ∧ p.toJson.unquote.member? "map" =
        some (.object [("1", .text "one"), ("", .text "none"), ("2", .text "")])) ∧
      ∃ p, b.processor = .ok p ∧ p.toJson.unquote.member? "updates" =
        some (.object [("site", .text ""), ("x", .text "1"), ("isEnriched", .bool true)]) := by
  intro table search a b
  have ha : a.check.accepts := by decide +kernel
  have hb : b.check.accepts := by decide +kernel
  have htable : table.entries.map KeyValue.member =
      [("1", .text "one"), ("", .text "none"), ("2", .text "")] := by
    simp [table, KeyValue.member, unquoteEmpty, emptySentinel]
  have hsearch : search.updates.map KeyValue.member ++ [TopologySearch.mark] =
      [("site", .text ""), ("x", .text "1"), ("isEnriched", .bool true)] := by
    simp [search, KeyValue.member, unquoteEmpty, emptySentinel, TopologySearch.mark]
  obtain ⟨p, hp, hmap, -⟩ := tables_exact ha
  obtain ⟨q, hq, -, hupdates⟩ := tables_exact hb
  obtain ⟨updates, hread, hall, -⟩ := hupdates search rfl (by decide +kernel)
  rw [hall.mpr (by simp [search]), hsearch] at hread
  have hmap := hmap _ table rfl
  rw [htable] at hmap
  exact ⟨ha, hb, ⟨p, hp, hmap⟩, q, hq, hread⟩

/-- An update that is submitted under the key of the mark: its value is lost, and the mark is not
the last. -/
theorem update_of_mark_lost :
    let search : TopologySearch :=
      { field := "name", value := "v", mode := "update",
        updates := [⟨"isEnriched", "x"⟩, ⟨"site", "y"⟩] }
    let a := ofEffect "t" (.searchTopology search)
    a.check.accepts ∧ ∃ p, a.processor = .ok p ∧
      p.toJson.unquote.member? "updates" =
        some (.object [("isEnriched", .bool true), ("site", .text "y")]) ∧
      p.toJson.unquote.member? "updates" ≠
        some (.object (search.updates.map KeyValue.member ++ [TopologySearch.mark])) := by
  intro search a
  let p : Processor := .searchTopology "name" "v" none (.update search.markedUpdates)
  have hmode : ¬ search.enriches := by decide +kernel
  have hp : a.processor = .ok p := by
    change Except.ok (Processor.searchTopology "name" "v" none search.outcome) = _
    rw [TopologySearch.outcome, if_neg hmode]
  have hkeys : FilledKeys search.markedUpdates :=
    TopologySearch.filledKeys_markedUpdates (by simp [search])
  have hread : p.toJson.unquote.member? "updates" =
      some (.object [("isEnriched", .bool true), ("site", .text "y")]) := by
    rw [Processor.member?_unquote, Processor.lookup_updates, Option.map_some, hkeys.unquote_object]
    rfl
  refine ⟨by decide +kernel, p, hp, hread, fun hclaimed => ?_⟩
  have hlength := Json.object.inj (Option.some.inj (hread.symm.trans hclaimed))
  simp [search] at hlength

end Action

end EventRules
