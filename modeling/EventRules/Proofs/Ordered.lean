import EventRules.Ordered
import EventRules.Proofs.Distinct
import Mathlib.Data.List.Induction
import Mathlib.Data.List.Nodup
import Mathlib.Data.List.Perm.Subperm

/-! Tables with text keys: what an insertion does to the keys and the entries, and what is left of
a list of pairs in its table. -/
namespace EventRules.Ordered

variable {α : Type} {key : String} {value : α} {table pairs : List (String × α)}

@[simp] theorem keys_nil : keys ([] : List (String × α)) = [] := rfl

@[simp] theorem keys_cons (entry : String × α) (table : List (String × α)) :
    keys (entry :: table) = entry.1 :: keys table := rfl

@[simp] theorem keys_append (front back : List (String × α)) :
    keys (front ++ back) = keys front ++ keys back := by
  simp [keys]

theorem mem_keys {table : List (String × α)} :
    key ∈ keys table ↔ ∃ value, (key, value) ∈ table := by
  simp [keys]

theorem lookup_cons_eq {κ : Type} [BEq κ] [LawfulBEq κ] [DecidableEq κ] {entry : κ × α}
    {rest : List (κ × α)} {key : κ} : (entry :: rest).lookup key =
      if key = entry.1 then some entry.2 else rest.lookup key := by
  obtain ⟨k, v⟩ := entry
  rw [List.lookup_cons]
  by_cases h : key = k
  · rw [if_pos h, beq_iff_eq.mpr h]
  · rw [if_neg h, beq_eq_false_iff_ne.mpr h]

/-- A list of pairs cut at the first pair with a key. -/
theorem split_key (h : key ∈ keys pairs) :
    ∃ front value back, pairs = front ++ (key, value) :: back ∧ key ∉ keys front := by
  induction pairs with
  | nil => simp at h
  | cons entry rest ih =>
    by_cases hk : entry.1 = key
    · exact ⟨[], entry.2, rest, by rw [← hk]; rfl, by simp⟩
    · obtain ⟨front, value, back, rfl, hf⟩ := ih (by simpa [Ne.symm hk] using h)
      exact ⟨entry :: front, value, back, rfl, by simp [Ne.symm hk, hf]⟩

theorem insert_of_notMem (h : key ∉ keys table) :
    insert key value table = table ++ [(key, value)] := by
  induction table with
  | nil => rfl
  | cons entry rest ih =>
    simp only [keys_cons, List.mem_cons, not_or] at h
    simp [insert, Ne.symm h.1, ih h.2]

theorem keys_insert_of_mem (h : key ∈ keys table) : keys (insert key value table) = keys table := by
  induction table with
  | nil => simp at h
  | cons entry rest ih =>
    by_cases hk : entry.1 = key
    · simp [insert, hk]
    · have hr : key ∈ keys rest := by simpa [Ne.symm hk] using h
      simp [insert, hk, ih hr]

/-- A key that is present keeps its place. -/
theorem insert_append_cons {front back : List (String × α)} (h : key ∉ keys front) (old : α) :
    insert key value (front ++ (key, old) :: back) = front ++ (key, value) :: back := by
  induction front with
  | nil => simp [insert]
  | cons entry front ih =>
    simp only [keys_cons, List.mem_cons, not_or] at h
    simp [insert, Ne.symm h.1, ih h.2]

theorem mem_keys_insert {other : String} :
    other ∈ keys (insert key value table) ↔ other ∈ keys table ∨ other = key := by
  by_cases h : key ∈ keys table
  · rw [keys_insert_of_mem h]
    constructor
    · exact .inl
    · rintro (ho | rfl)
      · exact ho
      · exact h
  · simp [insert_of_notMem h]

theorem keys_insert_nodup (h : (keys table).Nodup) : (keys (insert key value table)).Nodup := by
  by_cases hk : key ∈ keys table
  · rwa [keys_insert_of_mem hk]
  · rw [insert_of_notMem hk, keys_append]
    exact h.append (by simp) (by simpa using hk)

/-- An insertion adds its pair and drops the one that the key had. -/
theorem mem_insert (h : (keys table).Nodup) {entry : String × α} :
    entry ∈ insert key value table ↔ entry = (key, value) ∨ entry ∈ table ∧ entry.1 ≠ key := by
  induction table with
  | nil => simp [insert]
  | cons first rest ih =>
    simp only [keys_cons, List.nodup_cons] at h
    by_cases hk : first.1 = key
    · have hrest : ∀ e ∈ rest, e.1 ≠ key := fun e he heq =>
        h.1 (mem_keys.mpr ⟨e.2, by rw [hk, ← heq]; exact he⟩)
      simp only [insert, if_pos hk, List.mem_cons]
      grind
    · simp only [insert, if_neg hk, List.mem_cons, ih h.2]
      grind

@[simp] theorem ofPairs_nil : ofPairs ([] : List (String × α)) = [] := rfl

theorem ofPairs_concat (pairs : List (String × α)) (entry : String × α) :
    ofPairs (pairs ++ [entry]) = insert entry.1 entry.2 (ofPairs pairs) := by
  simp [ofPairs, insertAll]

theorem mem_keys_ofPairs : key ∈ keys (ofPairs pairs) ↔ key ∈ keys pairs := by
  induction pairs using List.reverseRecOn with
  | nil => simp
  | append_singleton pairs entry ih => simp [ofPairs_concat, mem_keys_insert, ih]

/-- The keys of a table are distinct. -/
theorem keys_ofPairs_nodup (pairs : List (String × α)) : (keys (ofPairs pairs)).Nodup := by
  induction pairs using List.reverseRecOn with
  | nil => simp
  | append_singleton pairs entry ih =>
    rw [ofPairs_concat]
    exact keys_insert_nodup ih

/-- Pairs with distinct keys are a table already. -/
theorem ofPairs_eq_self (h : (keys pairs).Nodup) : ofPairs pairs = pairs := by
  induction pairs using List.reverseRecOn with
  | nil => rfl
  | append_singleton pairs entry ih =>
    simp only [keys_append, List.nodup_append, keys_cons, keys_nil] at h
    have hk : entry.1 ∉ keys pairs := fun hm => h.2.2 _ hm _ (by simp) rfl
    rw [ofPairs_concat, ih h.1, insert_of_notMem hk]

/-- The entry is the last one with its key. -/
def IsLast (entry : String × α) (pairs : List (String × α)) : Prop :=
  ∃ front back, pairs = front ++ entry :: back ∧ entry.1 ∉ keys back

theorem isLast_cons {entry first : String × α} : IsLast entry (first :: pairs) ↔
    (entry = first ∧ entry.1 ∉ keys pairs) ∨ IsLast entry pairs := by
  constructor
  · rintro ⟨front, back, heq, hback⟩
    cases front with
    | nil => simp_all
    | cons f front => exact .inr ⟨front, back, by simp_all⟩
  · rintro (⟨rfl, h⟩ | ⟨front, back, rfl, h⟩)
    · exact ⟨[], pairs, rfl, h⟩
    · exact ⟨first :: front, back, rfl, h⟩

theorem isLast_concat {entry last : String × α} : IsLast entry (pairs ++ [last]) ↔
    entry = last ∨ IsLast entry pairs ∧ entry.1 ≠ last.1 := by
  induction pairs with
  | nil =>
    rw [List.nil_append, isLast_cons]
    simp [IsLast]
  | cons first rest ih =>
    rw [List.cons_append, isLast_cons, ih, isLast_cons]
    simp only [keys_append, keys_cons, keys_nil, List.mem_append, List.mem_singleton]
    grind

/-- Each key has the value of its last pair. -/
theorem mem_ofPairs {entry : String × α} : entry ∈ ofPairs pairs ↔ IsLast entry pairs := by
  induction pairs using List.reverseRecOn with
  | nil => simp [IsLast]
  | append_singleton pairs last ih =>
    rw [ofPairs_concat, mem_insert (keys_ofPairs_nodup pairs), ih, isLast_concat]

/-- The keys of a table stand in the order in which they first occur. -/
theorem keys_ofPairs (pairs : List (String × α)) :
    keys (ofPairs pairs) = distinct (keys pairs) := by
  induction pairs using List.reverseRecOn with
  | nil => rfl
  | append_singleton pairs entry ih =>
    rw [ofPairs_concat, keys_append, keys_cons, keys_nil, distinct_concat, ← ih]
    by_cases hk : entry.1 ∈ keys pairs
    · rw [if_pos hk, keys_insert_of_mem (mem_keys_ofPairs.mpr hk), List.append_nil]
    · rw [if_neg hk, insert_of_notMem (mem_keys_ofPairs.not.mpr hk), keys_append, keys_cons,
        keys_nil]

/-- A table is that of some pairs if it has their distinct keys, each with its last value. -/
theorem eq_ofPairs_iff : table = ofPairs pairs ↔
    keys table = distinct (keys pairs) ∧ ∀ entry ∈ table, IsLast entry pairs := by
  constructor
  · rintro rfl
    exact ⟨keys_ofPairs pairs, fun entry he => mem_ofPairs.mp he⟩
  · rintro ⟨hkeys, hlast⟩
    rw [← keys_ofPairs] at hkeys
    have hlength : table.length = (ofPairs pairs).length := by
      simpa [keys] using congrArg List.length hkeys
    refine List.ext_getElem hlength fun k hk hk' => ?_
    have hkey : table[k].1 = (ofPairs pairs)[k].1 := by
      have hat := congrArg (·[k]?) hkeys
      simpa [keys, hk, hk'] using hat
    exact List.inj_on_of_nodup_map (keys_ofPairs_nodup pairs)
      (mem_ofPairs.mpr (hlast _ (List.getElem_mem hk))) (List.getElem_mem hk') hkey

theorem keys_ofPairs_subperm (pairs : List (String × α)) :
    (keys (ofPairs pairs)).Subperm (keys pairs) :=
  (keys_ofPairs_nodup pairs).subperm fun _ h => mem_keys_ofPairs.mp h

theorem length_ofPairs_le (pairs : List (String × α)) : (ofPairs pairs).length ≤ pairs.length := by
  simpa [keys] using (keys_ofPairs_subperm pairs).length_le

/-- A table that has lost no pair comes from distinct keys. -/
theorem keys_nodup_of_length_ofPairs (h : pairs.length ≤ (ofPairs pairs).length) :
    (keys pairs).Nodup := by
  have hperm := (keys_ofPairs_subperm pairs).perm_of_length_le (by simpa [keys] using h)
  exact hperm.nodup_iff.mp (keys_ofPairs_nodup pairs)

/-- The pairs whose key does not come again. -/
def latest : List (String × α) → List (String × α)
  | [] => []
  | entry :: rest => if entry.1 ∈ keys rest then latest rest else entry :: latest rest

theorem mem_latest {entry : String × α} : entry ∈ latest pairs ↔ IsLast entry pairs := by
  induction pairs with
  | nil => simp [latest, IsLast]
  | cons first rest ih =>
    rw [latest, isLast_cons]
    by_cases hmem : first.1 ∈ keys rest
    · rw [if_pos hmem, ih]
      refine (or_iff_right ?_).symm
      rintro ⟨rfl, h⟩
      exact h hmem
    · have hlast : entry = first → entry.1 ∉ keys rest := by
        rintro rfl
        exact hmem
      rw [if_neg hmem, List.mem_cons, ih, and_iff_left_of_imp hlast]

theorem keys_latest_nodup (pairs : List (String × α)) : (keys (latest pairs)).Nodup := by
  induction pairs with
  | nil => simp [latest]
  | cons first rest ih =>
    rw [latest]
    split
    next => exact ih
    next hmem =>
      refine List.nodup_cons.mpr ⟨fun h => hmem ?_, ih⟩
      obtain ⟨value, hv⟩ := mem_keys.mp h
      obtain ⟨front, back, hrest, -⟩ := mem_latest.mp hv
      exact mem_keys.mpr ⟨value, by rw [hrest]; simp⟩

/-- A table holds the latest pairs, in the order in which their keys come first. -/
theorem latest_perm_ofPairs (pairs : List (String × α)) : (latest pairs).Perm (ofPairs pairs) := by
  have hlatest : (latest pairs).Nodup := (keys_latest_nodup pairs).of_map _
  have hpairs : (ofPairs pairs).Nodup := (keys_ofPairs_nodup pairs).of_map _
  rw [List.perm_ext_iff_of_nodup hlatest hpairs]
  intro entry
  rw [mem_latest, mem_ofPairs]

end EventRules.Ordered
