import EventRules.Catalog.Json
import EventRules.Proofs.Json.Record
import EventRules.Proofs.Json.Sentinel
import EventRules.Proofs.Schema.EventTypes
import Mathlib.Data.String.Basic

/-! The tables of catalogs. A sorted table has the last value of each key, so the order of the pairs
it is made of does not matter where no key has two values. A catalog is the table of the versions
whose documents could be read, and its documents can be read when they conform. -/
namespace EventRules

open Ordered

section Sorted

variable {α : Type} {key : String} {value : α} {pairs : List (String × α)}

theorem lookup_insertSorted (table : List (String × α)) (other : String) :
    (insertSorted key value table).lookup other =
      if other = key then some value else table.lookup other := by
  induction table with
  | nil => simp [insertSorted, lookup_cons_eq]
  | cons entry rest ih =>
    obtain ⟨k, old⟩ := entry
    unfold insertSorted
    split_ifs with hless hsame hother hother <;>
      simp only [lookup_cons_eq, ih] <;> grind

theorem sortedTable_concat (pairs : List (String × α)) (entry : String × α) :
    sortedTable (pairs ++ [entry]) = insertSorted entry.1 entry.2 (sortedTable pairs) := by
  simp [sortedTable]

/-- Values of different keys may be put into a table in any order. -/
theorem insertSorted_comm {other : String} (h : key < other) (value last : α)
    (table : List (String × α)) : insertSorted other last (insertSorted key value table) =
      insertSorted key value (insertSorted other last table) := by
  have hother : ¬ other < key := lt_asymm h
  have hne : other ≠ key := h.ne'
  induction table with
  | nil => simp only [insertSorted, h, hother, hne, if_true, if_false]
  | cons entry rest ih =>
    obtain ⟨k, old⟩ := entry
    rcases lt_trichotomy key k with hk | rfl | hk
    · rcases lt_trichotomy other k with hless | rfl | hless
      · simp only [insertSorted, h, hk, hless, hother, hne, if_true, if_false]
      · simp only [insertSorted, hk, hother, hne, lt_irrefl, if_true, if_false]
      · simp only [insertSorted, hk, hless.not_gt, hless.ne', hother, hne, if_true, if_false]
    · simp only [insertSorted, hother, hne, lt_irrefl, if_true, if_false]
    · have hless : k < other := hk.trans h
      simp only [insertSorted, hk.not_gt, hk.ne', hless.not_gt, hless.ne', ih, if_false]

/-- Each key has the value of its last pair. -/
theorem lookup_sortedTable :
    (sortedTable pairs).lookup key = some value ↔ IsLast (key, value) pairs := by
  induction pairs using List.reverseRecOn with
  | nil => simp [sortedTable, IsLast]
  | append_singleton pairs last ih =>
    rw [sortedTable_concat, lookup_insertSorted, isLast_concat, ← ih]
    by_cases h : key = last.1
    · simp [h, Prod.ext_iff, eq_comm]
    · simp [h, Prod.ext_iff]

theorem exists_isLast : (∃ value, IsLast (key, value) pairs) ↔ key ∈ keys pairs := by
  simp only [← mem_ofPairs, ← mem_keys, mem_keys_ofPairs]

theorem contains_sortedTable : Ordered.contains key (sortedTable pairs) ↔ key ∈ keys pairs := by
  rw [Ordered.contains, Option.isSome_iff_exists, ← exists_isLast]
  simp only [lookup_sortedTable]

theorem lookup_sortedTable_of_nodup (h : (keys pairs).Nodup) :
    (sortedTable pairs).lookup key = some value ↔ (key, value) ∈ pairs := by
  have hmem {value : α} (hlast : IsLast (key, value) pairs) : (key, value) ∈ pairs := by
    obtain ⟨front, back, rfl, -⟩ := hlast
    simp
  rw [lookup_sortedTable]
  refine ⟨hmem, fun hvalue => ?_⟩
  obtain ⟨last, hlast⟩ := exists_isLast.mpr (mem_keys.mpr ⟨value, hvalue⟩)
  have hsame := List.inj_on_of_nodup_map h hvalue (hmem hlast) rfl
  rw [hsame]
  exact hlast

/-- The order of pairs with different keys does not matter. -/
theorem sortedTable_perm {others : List (String × α)} (h : pairs.Perm others)
    (hdistinct : (keys pairs).Nodup) : sortedTable pairs = sortedTable others := by
  apply h.foldl_eq'
  intro one hone other hother table
  rcases lt_trichotomy one.1 other.1 with hless | hsame | hless
  · exact insertSorted_comm hless one.2 other.2 table
  · rw [List.inj_on_of_nodup_map hdistinct hone hother hsame]
  · exact (insertSorted_comm hless other.2 one.2 table).symm

end Sorted

namespace Catalog

variable {α : Type} {source : String} {document : Json} {types read : EventTypes}
  {family : List (String × Json)} {c : Catalog}

theorem readMembers_map {β : Type} {read : Json → Option α} {write : β → Json} {f : β → α}
    (h : ∀ b, read (write b) = some (f b)) (entries : List (String × β)) :
    readMembers read (entries.map fun e => (e.1, write e.2)) =
      some (entries.map fun e => (e.1, f e.2)) := by
  induction entries with
  | nil => rfl
  | cons entry rest ih => simp [readMembers, h, ih]

/-- Members are read when each of them is. -/
theorem readMembers_eq_some {read : Json → Option α} {members : List (String × Json)}
    {results : List (String × α)} : readMembers read members = some results ↔
      (∀ e ∈ members, (read e.2).isSome) ∧
        results = members.filterMap fun e => (read e.2).map (e.1, ·) := by
  induction members generalizing results with
  | nil => simp [readMembers]
  | cons entry rest ih =>
    show (read entry.2).bind (fun first => (readMembers read rest).bind fun others =>
      some ((entry.1, first) :: others)) = some results ↔ _
    rw [List.forall_mem_cons, List.filterMap_cons]
    cases read entry.2 with
    | none => simp
    | some first =>
      simp only [Option.bind_some, Option.bind_eq_some_iff, ih, Option.map_some, Option.isSome_some,
        true_and]
      constructor
      · rintro ⟨others, ⟨hall, rfl⟩, heq⟩
        exact ⟨hall, (Option.some.inj heq).symm⟩
      · rintro ⟨hall, rfl⟩
        exact ⟨_, ⟨hall, rfl⟩, rfl⟩

/-- What is read of a document that declares event types: their table. -/
theorem eventTypes?_of_declares (h : Declares document types) :
    eventTypes? document = some (sortedTable (types.map fun e => (e.1, sortedTexts e.2))) := by
  obtain ⟨rfl, -⟩ := h
  have hread : readMembers (fun fields => (Json.list? Json.text? fields).map sortedTexts)
      (types.map fun e => (e.1, Json.ofTexts e.2)) =
        some (types.map fun e => (e.1, sortedTexts e.2)) :=
    readMembers_map (fun paths => by rw [Json.list?_ofTexts, Option.map_some]) types
  simp only [eventTypes?, Json.members?, Option.bind_some, hread, Option.map_some]

/-- The event types that are read of a document are those that it declares. -/
theorem contains_of_declares (h : Declares document types)
    (hread : eventTypes? document = some read) (eventType : String) :
    Ordered.contains eventType read ↔ eventType ∈ keys types := by
  rw [eventTypes?_of_declares h] at hread
  obtain rfl := Option.some.inj hread
  rw [contains_sortedTable]
  simp [keys]

theorem readConforming_eq_ok {schema : Schema} {reader : Json → Option α} {result : α} :
    readConforming schema reader source document = .ok result ↔
      schema document = [] ∧ reader document = some result := by
  unfold readConforming
  cases schema document with
  | nil => cases reader document <;> simp
  | cons violation rest => simp

theorem eventTypesOfJson_eq_ok : eventTypesOfJson source document = .ok read ↔
    (∃ types, types ≠ [] ∧ Declares document types) ∧ eventTypes? document = some read := by
  rw [eventTypesOfJson, readConforming_eq_ok, Schema.eventTypes_eq_nil_iff]

/-- A version with what is read of its document. -/
def version? (e : String × Json) : Option (String × EventTypes) :=
  (eventTypes? e.2).map (e.1, ·)

/-- The catalog of the versions whose documents can be read. -/
def ofFamily (family : List (String × Json)) : Catalog := ⟨sortedTable (family.filterMap version?)⟩

theorem ofJson_eq_ok (hsome : family ≠ []) : ofJson source (.object family) = .ok c ↔
    (∀ e ∈ family, ∃ types, Declares e.2 types) ∧ c = ofFamily family := by
  rw [ofJson, readConforming_eq_ok, Schema.catalog_eq_nil_iff, and_iff_right hsome]
  refine and_congr_right fun hall => ?_
  have hread : readMembers eventTypes? family = some (family.filterMap version?) := by
    refine readMembers_eq_some.mpr ⟨fun e he => ?_, rfl⟩
    obtain ⟨types, htypes⟩ := hall e he
    rw [eventTypes?_of_declares htypes]
    rfl
  simp only [Json.members?, Option.bind_some, hread, Option.map_some, Option.some.injEq]
  exact eq_comm

theorem keys_versions_sublist (family : List (String × Json)) :
    (keys (family.filterMap version?)).Sublist (keys family) := by
  induction family with
  | nil => exact List.Sublist.refl _
  | cons e rest ih =>
    rw [List.filterMap_cons, version?]
    cases eventTypes? e.2 with
    | none => exact ih.cons _
    | some types => exact ih.cons_cons _

/-- What a catalog has for a version is read of its document. -/
theorem lookup_ofFamily (h : (keys family).Nodup) (version : String) :
    (ofFamily family).lookup version = some read ↔
      ∃ document, (version, document) ∈ family ∧ eventTypes? document = some read := by
  refine (lookup_sortedTable_of_nodup (h.sublist (keys_versions_sublist family))).trans ?_
  simp [version?]

/-- A catalog has the event types that the documents of its versions declare. -/
theorem contains_ofFamily (h : (keys family).Nodup)
    (hall : ∀ e ∈ family, ∃ types, Declares e.2 types) {version eventType : String} :
    (ofFamily family).contains version eventType ↔
      ∃ document types, (version, document) ∈ family ∧ Declares document types ∧
        eventType ∈ keys types := by
  have hlookup : (ofFamily family).contains version eventType ↔
      ∃ read, (ofFamily family).lookup version = some read ∧
        Ordered.contains eventType read := by
    unfold Catalog.contains
    cases (ofFamily family).lookup version <;> simp
  rw [hlookup]
  constructor
  · rintro ⟨read, hread, hcontains⟩
    obtain ⟨document, hmem, hdocument⟩ := (lookup_ofFamily h version).mp hread
    obtain ⟨types, htypes⟩ := hall _ hmem
    exact ⟨document, types, hmem, htypes, (contains_of_declares htypes hdocument _).mp hcontains⟩
  · rintro ⟨document, types, hmem, htypes, heventType⟩
    have hdocument := eventTypes?_of_declares htypes
    exact ⟨_, (lookup_ofFamily h version).mpr ⟨document, hmem, hdocument⟩,
      (contains_of_declares htypes hdocument _).mpr heventType⟩

/-- The order of the versions does not matter. -/
theorem ofFamily_perm {arranged : List (String × Json)} (h : arranged.Perm family)
    (hdistinct : (keys family).Nodup) : ofFamily arranged = ofFamily family := by
  have hkeys : (keys (family.filterMap version?)).Nodup :=
    hdistinct.sublist (keys_versions_sublist family)
  exact congrArg Catalog.mk (sortedTable_perm (h.filterMap version?).symm hkeys).symm

end Catalog

end EventRules
