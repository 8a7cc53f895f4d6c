import EventRules.Json.Sentinel
import EventRules.Proofs.Ordered

/-! What reading the sentinel does to an object. Its members are put into a table under the keys
that they then have; where the keys are distinct and none is the sentinel, they and their order are
left alone, and a member may be looked up before or after. -/
namespace EventRules

namespace Ordered

variable {α β : Type}

theorem lookup_map_snd (f : α → β) (key : String) (table : List (String × α)) :
    (table.map fun e => (e.1, f e.2)).lookup key = (table.lookup key).map f := by
  induction table with
  | nil => rfl
  | cons entry rest ih =>
    obtain ⟨k, v⟩ := entry
    simp only [List.map_cons, List.lookup_cons]
    cases key == k <;> simp [ih]

theorem contains_iff {key : String} {table : List (String × α)} :
    contains key table = true ↔ key ∈ keys table := by
  induction table with
  | nil => simp [contains]
  | cons entry rest ih =>
    obtain ⟨k, v⟩ := entry
    rw [contains] at ih
    rw [contains, List.lookup_cons, keys_cons, List.mem_cons, ← ih]
    by_cases h : key = k
    · simp [h]
    · simp [h, beq_eq_false_iff_ne.mpr h]

end Ordered

theorem unquoteEmpty_of_ne {s : String} (h : s ≠ emptySentinel) : unquoteEmpty s = s := if_neg h

theorem unquoteEmpty_eq_empty_iff {s : String} :
    unquoteEmpty s = "" ↔ s = "" ∨ s = emptySentinel := by
  by_cases h : s = emptySentinel <;> simp [unquoteEmpty, h]

/-- Nothing but itself is read as a text that is neither empty nor the sentinel. -/
theorem unquoteEmpty_eq_iff {s t : String} (ht : t ≠ "" ∧ t ≠ emptySentinel) :
    unquoteEmpty s = t ↔ s = t := by
  by_cases h : s = emptySentinel
  · simp [unquoteEmpty, h, ht.1.symm, ht.2.symm]
  · rw [unquoteEmpty_of_ne h]

namespace Json

theorem unquoteItems_eq (items : List Json) : unquoteItems items = items.map unquote := by
  induction items with
  | nil => simp [unquoteItems]
  | cons item rest ih => simp [unquoteItems, ih]

theorem unquoteMembers_eq (done members : List (String × Json)) : unquoteMembers done members =
    Ordered.insertAll done (members.map fun e => (unquoteEmpty e.1, e.2.unquote)) := by
  induction members generalizing done with
  | nil => simp [unquoteMembers, Ordered.insertAll]
  | cons entry rest ih => simp [unquoteMembers, ih, Ordered.insertAll]

@[simp] theorem unquote_text (s : String) : (text s).unquote = .text (unquoteEmpty s) := by
  rw [unquote]

@[simp] theorem unquote_array (items : List Json) :
    (array items).unquote = .array (items.map unquote) := by
  rw [unquote, unquoteItems_eq]

theorem unquote_object (members : List (String × Json)) : (object members).unquote =
    .object (Ordered.ofPairs (members.map fun e => (unquoteEmpty e.1, e.2.unquote))) := by
  rw [unquote, unquoteMembers_eq, Ordered.ofPairs]

/-- The keys are distinct and none of them is the sentinel. -/
structure PlainKeys (members : List (String × Json)) : Prop where
  nodup : (Ordered.keys members).Nodup
  notMem : emptySentinel ∉ Ordered.keys members

namespace PlainKeys

variable {members : List (String × Json)} (h : PlainKeys members)
include h

theorem unquote_object : (object members).unquote =
    .object (members.map fun e => (e.1, e.2.unquote)) := by
  have hmap : members.map (fun e => (unquoteEmpty e.1, e.2.unquote)) =
      members.map fun e => (e.1, e.2.unquote) := by
    refine List.map_congr_left fun e he => ?_
    have hne : e.1 ≠ emptySentinel := fun heq => h.notMem (heq ▸ List.mem_map_of_mem he)
    rw [unquoteEmpty_of_ne hne]
  rw [Json.unquote_object, hmap, Ordered.ofPairs_eq_self]
  simpa [Ordered.keys, Function.comp_def] using h.nodup

theorem member?_unquote (key : String) :
    (object members).unquote.member? key = (members.lookup key).map unquote := by
  rw [h.unquote_object, member?, Ordered.lookup_map_snd]

end PlainKeys

end Json

end EventRules
