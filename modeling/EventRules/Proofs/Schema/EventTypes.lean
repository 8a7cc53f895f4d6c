import EventRules.Catalog.Basic
import EventRules.Proofs.Json.Quote
import EventRules.Proofs.Ordered
import EventRules.Schema.EventTypes

/-! What conforms to the schemas of catalogs. The value of an event type is a list of distinct field
paths that are not empty; a document for one version gives some event types such values, and a
document for all versions holds any such tables. -/
namespace EventRules

/-- The document gives each event type its field paths, which are distinct and not empty. -/
def Declares (document : Json) (types : EventTypes) : Prop :=
  document = .object (types.map fun e => (e.1, .ofTexts e.2)) ∧ ∀ e ∈ types, "" ∉ e.2 ∧ e.2.Nodup

/-- The empty document is the one that declares no event type. -/
theorem Declares.eq_empty_iff {document : Json} {types : EventTypes} (h : Declares document types) :
    document = .object [] ↔ types = [] := by
  rw [h.1]
  simp

theorem declares_empty : Declares (.object []) [] := ⟨rfl, by simp⟩

namespace Schema

variable {α : Type} {same : α → α → Bool} {items : List α} {value : Json}

theorem pairwiseDistinct_iff :
    pairwiseDistinct same items ↔ items.Pairwise fun a b => ¬ same a b := by
  induction items with
  | nil => simp [pairwiseDistinct]
  | cons item rest ih => simp [pairwiseDistinct, ih]

/-- Texts are distinct for the schema when they are. -/
theorem allDistinct_texts (paths : List String) :
    allDistinct (paths.map .text) ↔ paths.Nodup := by
  unfold allDistinct
  split
  · simp [pairwiseDistinct_iff, List.pairwise_map, Json.sameValue, List.Nodup]
  · have hquoted : (paths.map Json.text).map Json.compact = paths.map Json.quote := by
      rw [List.map_map]
      exact List.map_congr_left fun path _ => by rw [Function.comp_apply, Json.compact]
    rw [hquoted, ← List.nodup_map_iff Json.quote_injective, pairwiseDistinct_iff]
    simp [List.Nodup]

theorem filledText_eq_nil_iff : filledText value = [] ↔ ∃ path ≠ "", value = .text path := by
  cases value with
  | text path => by_cases h : path = "" <;> simp [filledText, h]
  | _ => simp [filledText]

theorem texts_of_filled {items : List Json} (h : ∀ item ∈ items, filledText item = []) :
    ∃ paths : List String, items = paths.map .text ∧ "" ∉ paths := by
  induction items with
  | nil => exact ⟨[], rfl, by simp⟩
  | cons item rest ih =>
    obtain ⟨hitem, hrest⟩ := List.forall_mem_cons.mp h
    obtain ⟨path, hne, rfl⟩ := filledText_eq_nil_iff.mp hitem
    obtain ⟨paths, rfl, hpaths⟩ := ih hrest
    exact ⟨path :: paths, rfl, by simp [hne.symm, hpaths]⟩

theorem fieldPaths_eq_nil_iff :
    fieldPaths value = [] ↔ ∃ paths, value = .ofTexts paths ∧ "" ∉ paths ∧ paths.Nodup := by
  constructor
  · intro h
    cases value with
    | array items =>
      simp only [fieldPaths, distinctItems, List.append_eq_nil_iff, List.flatMap_eq_nil_iff] at h
      obtain ⟨paths, rfl, hpaths⟩ := texts_of_filled h.1
      refine ⟨paths, rfl, hpaths, (allDistinct_texts paths).mp ?_⟩
      simpa using h.2
    | _ => simp [fieldPaths, distinctItems] at h
  · rintro ⟨paths, rfl, hpaths, hdistinct⟩
    have hfilled : ∀ path ∈ paths, filledText (.text path) = [] := fun path hpath =>
      filledText_eq_nil_iff.mpr ⟨path, ne_of_mem_of_not_mem hpath hpaths, rfl⟩
    simp [fieldPaths, distinctItems, Json.ofTexts, List.flatMap_map,
      (allDistinct_texts paths).mpr hdistinct]
    exact hfilled

theorem everyMember_eq_nil_iff {member : Schema} : everyMember member value = [] ↔
    ∃ members, value = .object members ∧ ∀ e ∈ members, member e.2 = [] := by
  cases value <;> simp [everyMember]

theorem everyMember_fieldPaths_eq_nil_iff :
    everyMember fieldPaths value = [] ↔ ∃ types, Declares value types := by
  rw [everyMember_eq_nil_iff]
  constructor
  · rintro ⟨members, rfl, h⟩
    induction members with
    | nil => exact ⟨[], rfl, by simp⟩
    | cons entry rest ih =>
      obtain ⟨hentry, hrest⟩ := List.forall_mem_cons.mp h
      obtain ⟨paths, hpaths, hgood⟩ := fieldPaths_eq_nil_iff.mp hentry
      obtain ⟨types, htypes, hall⟩ := ih hrest
      refine ⟨(entry.1, paths) :: types, ?_, List.forall_mem_cons.mpr ⟨hgood, hall⟩⟩
      rw [List.map_cons, ← hpaths, Json.object.inj htypes]
  · rintro ⟨types, rfl, h⟩
    refine ⟨_, rfl, ?_⟩
    rw [List.forall_mem_map]
    exact fun e he => fieldPaths_eq_nil_iff.mpr ⟨e.2, rfl, h e he⟩

/-- The document of a version conforms when it declares some event type. -/
theorem eventTypes_eq_nil_iff :
    eventTypes value = [] ↔ ∃ types, types ≠ [] ∧ Declares value types := by
  rw [eventTypes, List.append_eq_nil_iff, everyMember_fieldPaths_eq_nil_iff]
  constructor
  · rintro ⟨hsome, types, rfl, h⟩
    refine ⟨types, ?_, rfl, h⟩
    rintro rfl
    simp [someMember] at hsome
  · rintro ⟨types, hne, rfl, h⟩
    obtain ⟨first, rest, rfl⟩ := List.exists_cons_of_ne_nil hne
    exact ⟨rfl, _, rfl, h⟩

/-- The document of a catalog conforms when it has some version, and the value of each declares
event types, if any. -/
theorem catalog_eq_nil_iff {family : List (String × Json)} : catalog (.object family) = [] ↔
    family ≠ [] ∧ ∀ e ∈ family, ∃ types, Declares e.2 types := by
  rw [catalog, List.append_eq_nil_iff, everyMember_eq_nil_iff]
  simp only [Json.object.injEq, exists_eq_left', everyMember_fieldPaths_eq_nil_iff]
  cases family <;> simp [someMember]

end Schema

end EventRules
