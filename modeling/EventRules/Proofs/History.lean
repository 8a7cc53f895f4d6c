import EventRules.Proofs.Ordered

/-! Tables and the histories behind them. A history tells, one after another, which keys were given
a value and which were dropped. The table that it leaves lists the keys that are still there in the
order in which they came in, each with the value that it was given last. -/
namespace EventRules.Ordered

/-- What happens to a key. -/
inductive Change (α : Type) where
  | give (value : α)
  | drop

variable {α : Type} {history : List (String × Change α)} {table : List (String × α)}
  {entry : String × Change α} {key : String} {value : α} {place : ℕ}

def change (table : List (String × α)) (entry : String × Change α) : List (String × α) :=
  match entry.2 with
  | .give value => insert entry.1 value table
  | .drop => erase entry.1 table

/-- The key came in at the place. It has not been dropped since, and each value that it was given
before had been dropped by then. -/
structure Since (history : List (String × Change α)) (key : String) (place : ℕ) : Prop where
  given : ∃ value, history[place]? = some (key, .give value)
  first : ∀ earlier < place, ∀ value, history[earlier]? = some (key, .give value) →
    (key, Change.drop) ∈ (history.take place).drop earlier
  kept : (key, Change.drop) ∉ history.drop place

/-- The table holds what keys were given last, unless they were dropped after that, and lists the
keys in the order in which they came in. -/
structure Lists (history : List (String × Change α)) (table : List (String × α)) : Prop where
  mem_iff : ∀ key value, (key, value) ∈ table ↔ IsLast (key, .give value) history
  since : ∀ key ∈ keys table, ∃ place, Since history key place
  order : (keys table).Pairwise fun key other =>
    ∃ i j, Since history key i ∧ Since history other j ∧ i < j

theorem keys_erase (key : String) (table : List (String × α)) :
    keys (erase key table) = (keys table).filter fun k => k ≠ key := by
  rw [keys, keys, erase, List.filter_map]
  rfl

theorem keys_change_nodup (h : (keys table).Nodup) (entry : String × Change α) :
    (keys (change table entry)).Nodup := by
  obtain ⟨key, value | _⟩ := entry
  · exact keys_insert_nodup h
  · exact keys_erase key table ▸ h.filter _

theorem IsLast.append_left {β : Type} {entry : String × β} {pairs : List (String × β)}
    (h : IsLast entry pairs) (front : List (String × β)) : IsLast entry (front ++ pairs) := by
  obtain ⟨before, back, rfl, hback⟩ := h
  exact ⟨front ++ before, back, by simp, hback⟩

/-- A key that was given a value and never dropped has a value. -/
theorem exists_isLast_give (hgiven : (key, .give value) ∈ history)
    (hkept : (key, Change.drop) ∉ history) : ∃ value, IsLast (key, .give value) history := by
  induction history using List.reverseRecOn with
  | nil => simp at hgiven
  | append_singleton history entry ih =>
    simp only [List.mem_append, List.mem_singleton, not_or] at hgiven hkept
    simp only [isLast_concat]
    by_cases hkey : entry.1 = key
    · obtain ⟨_, other | _⟩ := entry
      · exact ⟨other, .inl (by rw [← hkey])⟩
      · exact absurd (by rw [← hkey]) hkept.2
    · have hbefore : (key, .give value) ∈ history :=
        hgiven.resolve_right fun heq => hkey (heq ▸ rfl)
      obtain ⟨other, hother⟩ := ih hbefore hkept.1
      exact ⟨other, .inr ⟨hother, Ne.symm hkey⟩⟩

namespace Since

theorem lt_length (h : Since history key place) : place < history.length := by
  obtain ⟨value, hvalue⟩ := h.given
  exact (List.getElem?_eq_some_iff.mp hvalue).1

/-- A key stays where it came in until it is dropped. -/
theorem concat (h : Since history key place) (hentry : entry ≠ (key, .drop)) :
    Since (history ++ [entry]) key place := by
  have hlt := h.lt_length
  obtain ⟨value, hvalue⟩ := h.given
  refine ⟨⟨value, by rw [List.getElem?_append_left hlt, hvalue]⟩, fun earlier he v hv => ?_, ?_⟩
  · rw [List.getElem?_append_left (by omega)] at hv
    rw [List.take_append_of_le_length (Nat.le_of_lt hlt)]
    exact h.first earlier he v hv
  · rw [List.drop_append_of_le_length (Nat.le_of_lt hlt), List.mem_append, List.mem_singleton]
    exact not_or.mpr ⟨h.kept, hentry.symm⟩

/-- A key that has no value comes in when it is given one. -/
theorem of_concat_give (h : ∀ value, ¬ IsLast (key, .give value) history) (value : α) :
    Since (history ++ [(key, .give value)]) key history.length := by
  refine ⟨⟨value, List.getElem?_concat_length⟩, fun earlier he v hv => ?_, by simp⟩
  rw [List.getElem?_append_left he] at hv
  rw [List.take_left]
  by_contra hkept
  have hmem : (key, .give v) ∈ history.drop earlier :=
    List.mem_of_getElem? (i := 0) (by rw [List.getElem?_drop, Nat.add_zero, hv])
  obtain ⟨last, hlast⟩ := exists_isLast_give hmem hkept
  exact h last (List.take_append_drop earlier history ▸ hlast.append_left _)

end Since

namespace Lists

theorem give (h : Lists history table) (hn : (keys table).Nodup) (key : String) (value : α) :
    Lists (history ++ [(key, .give value)]) (insert key value table) := by
  have hconcat : ∀ k i, Since history k i → Since (history ++ [(key, .give value)]) k i :=
    fun k i hi => hi.concat nofun
  have horder := h.order.imp fun ⟨i, j, hi, hj, hij⟩ =>
    (⟨i, j, hconcat _ i hi, hconcat _ j hj, hij⟩ : ∃ i j, Since _ _ i ∧ Since _ _ j ∧ i < j)
  have hmem : ∀ k v, (k, v) ∈ insert key value table ↔
      IsLast (k, .give v) (history ++ [(key, .give value)]) := by
    intro k v
    rw [mem_insert hn, isLast_concat, h.mem_iff]
    simp
  by_cases hkey : key ∈ keys table
  · refine ⟨hmem, ?_, ?_⟩ <;> rw [keys_insert_of_mem hkey]
    · intro k hk
      obtain ⟨i, hi⟩ := h.since k hk
      exact ⟨i, hconcat k i hi⟩
    · exact horder
  · have hnone : ∀ v, ¬ IsLast (key, .give v) history := fun v hv =>
      hkey (mem_keys.mpr ⟨v, (h.mem_iff key v).mpr hv⟩)
    have hnew := Since.of_concat_give hnone value
    refine ⟨hmem, ?_, ?_⟩ <;> rw [insert_of_notMem hkey, keys_append]
    · intro k hk
      rcases List.mem_append.mp hk with hk | hk
      · obtain ⟨i, hi⟩ := h.since k hk
        exact ⟨i, hconcat k i hi⟩
      · obtain rfl := List.mem_singleton.mp hk
        exact ⟨_, hnew⟩
    · refine List.pairwise_append.mpr ⟨horder, List.pairwise_singleton _ _, fun k hk other ho => ?_⟩
      obtain rfl := List.mem_singleton.mp ho
      obtain ⟨i, hi⟩ := h.since k hk
      exact ⟨i, _, hconcat k i hi, hnew, hi.lt_length⟩

theorem drop (h : Lists history table) (key : String) :
    Lists (history ++ [(key, .drop)]) (erase key table) := by
  have hconcat : ∀ k i, k ≠ key → Since history k i → Since (history ++ [(key, .drop)]) k i :=
    fun k i hk hi => hi.concat fun heq => hk (congrArg Prod.fst heq).symm
  refine ⟨fun k v => ?_, ?_, ?_⟩
  · rw [isLast_concat, ← h.mem_iff, erase, List.mem_filter]
    simp
  · intro k hk
    rw [keys_erase, List.mem_filter, decide_eq_true_iff] at hk
    obtain ⟨i, hi⟩ := h.since k hk.1
    exact ⟨i, hconcat k i hk.2 hi⟩
  · rw [keys_erase]
    refine (h.order.filter _).imp_of_mem ?_
    rintro k other hk ho ⟨i, j, hi, hj, hij⟩
    rw [List.mem_filter, decide_eq_true_iff] at hk ho
    exact ⟨i, j, hconcat k i hk.2 hi, hconcat other j ho.2 hj, hij⟩

theorem change (h : Lists history table) (hn : (keys table).Nodup) (entry : String × Change α) :
    Lists (history ++ [entry]) (change table entry) := by
  obtain ⟨key, value | _⟩ := entry
  · exact h.give hn key value
  · exact h.drop key

end Lists

theorem keys_foldl_change_nodup (history : List (String × Change α)) :
    (keys (history.foldl change [])).Nodup := by
  induction history using List.reverseRecOn with
  | nil => exact List.nodup_nil
  | append_singleton history entry ih =>
    rw [List.foldl_concat]
    exact keys_change_nodup ih entry

/-- A history leaves the table that lists what is there after it. -/
theorem lists_foldl_change (history : List (String × Change α)) :
    Lists history (history.foldl change []) := by
  induction history using List.reverseRecOn with
  | nil => exact ⟨by simp [IsLast], by simp, List.Pairwise.nil⟩
  | append_singleton history entry ih =>
    rw [List.foldl_concat]
    exact ih.change (keys_foldl_change_nodup history) entry

/-- Dropping some keys, one after another, keeps what stands under the others. -/
theorem foldl_change_drop (dropped : List String) (table : List (String × α)) :
    (dropped.map fun key => (key, Change.drop)).foldl change table =
      table.filter fun entry => entry.1 ∉ dropped := by
  induction dropped generalizing table with
  | nil => simp
  | cons key rest ih =>
    rw [List.map_cons, List.foldl_cons, ih, Ordered.change, erase, List.filter_filter]
    refine List.filter_congr fun entry _ => ?_
    simp [Bool.and_comm]

end EventRules.Ordered
