import EventRules.Distinct
import Mathlib.Data.List.Basic
import Mathlib.Data.List.Induction

/-! The distinct items of a list: an item that has come before adds nothing, a new one goes to the
end. -/
namespace EventRules

variable {α β : Type} [BEq α] [LawfulBEq α] [BEq β] [LawfulBEq β]

theorem distinct_filter (p : α → Bool) (items : List α) :
    distinct (items.filter p) = (distinct items).filter p := by
  induction items with
  | nil => rfl
  | cons a rest ih =>
    by_cases ha : p a
    · rw [List.filter_cons_of_pos ha, distinct, distinct, List.filter_cons_of_pos ha, ih,
        List.filter_comm]
    · have hne : ∀ b ∈ distinct rest, p b = true → (!(b == a)) = true := by
        intro b _ hb
        have : b ≠ a := fun h => ha (h ▸ hb)
        simpa using this
      rw [List.filter_cons_of_neg ha, distinct, List.filter_cons_of_neg ha, ih, List.filter_filter]
      refine List.filter_congr fun b hb => ?_
      by_cases hpb : p b
      · simp [hpb, hne b hb hpb]
      · simp [hpb]

theorem distinct_cons (a : α) (rest : List α) :
    distinct (a :: rest) = a :: distinct (rest.filter fun b => !(b == a)) := by
  rw [distinct, distinct_filter]

theorem nodup_distinct (items : List α) : (distinct items).Nodup := by
  induction items with
  | nil => exact List.nodup_nil
  | cons a rest ih =>
    rw [distinct, List.nodup_cons]
    exact ⟨by simp, ih.filter _⟩

/-- An item that has come before may be left out. -/
theorem distinct_append_cons_of_mem {a : α} {front : List α} (h : a ∈ front) (back : List α) :
    distinct (front ++ a :: back) = distinct (front ++ back) := by
  induction front with
  | nil => simp at h
  | cons b front ih =>
    by_cases hab : a = b
    · subst hab
      simp [distinct_cons]
    · rw [List.cons_append, distinct, ih ((List.mem_cons.mp h).resolve_left hab)]
      rfl

theorem distinct_concat_of_mem {a : α} {items : List α} (h : a ∈ items) :
    distinct (items ++ [a]) = distinct items := by
  simpa using distinct_append_cons_of_mem h []

theorem distinct_concat_of_notMem {a : α} {items : List α} (h : a ∉ items) :
    distinct (items ++ [a]) = distinct items ++ [a] := by
  induction items with
  | nil => rfl
  | cons b rest ih =>
    simp only [List.mem_cons, not_or] at h
    rw [List.cons_append, distinct, ih h.2, List.filter_append, distinct]
    simp [h.1]

theorem distinct_concat (a : α) (items : List α) :
    distinct (items ++ [a]) = distinct items ++ if a ∈ items then [] else [a] := by
  split
  next h => rw [distinct_concat_of_mem h, List.append_nil]
  next h => rw [distinct_concat_of_notMem h]

/-- What comes after some items adds those that are not among them. -/
theorem distinct_append (front back : List α) :
    distinct (front ++ back) = distinct front ++ (distinct back).filter (· ∉ front) := by
  induction back using List.reverseRecOn with
  | nil => simp [distinct]
  | append_singleton back a ih =>
    rw [← List.append_assoc, distinct_concat, distinct_concat, ih, List.filter_append,
      List.append_assoc]
    congr 2
    by_cases hfront : a ∈ front <;> by_cases hback : a ∈ back <;> simp [hfront, hback]

theorem distinct_distinct (items : List α) : distinct (distinct items) = distinct items := by
  induction items with
  | nil => rfl
  | cons a rest ih =>
    rw [distinct, distinct_cons, List.filter_filter, distinct_filter, ih]
    simp

/-- Parts of a list may be exchanged for others with the same distinct items. -/
theorem distinct_flatMap_congr {κ : Type} {f g : κ → List α} {keys : List κ}
    (h : ∀ k ∈ keys, distinct (f k) = distinct (g k)) :
    distinct (keys.flatMap f) = distinct (keys.flatMap g) := by
  induction keys with
  | nil => rfl
  | cons k rest ih =>
    rw [List.forall_mem_cons] at h
    have hmem : ∀ a, a ∈ f k ↔ a ∈ g k := fun a => by
      rw [← mem_distinct, h.1, mem_distinct]
    rw [List.flatMap_cons, List.flatMap_cons, distinct_append, distinct_append, h.1, ih h.2]
    simp only [hmem]

theorem distinct_replicate (n : ℕ) (a : α) : distinct (List.replicate (n + 1) a) = [a] := by
  rw [List.replicate_succ, distinct_cons]
  simp [distinct]

theorem distinct_map {f : α → β} (hf : Function.Injective f) (items : List α) :
    distinct (items.map f) = (distinct items).map f := by
  induction items with
  | nil => rfl
  | cons a rest ih =>
    rw [List.map_cons, distinct, distinct, ih, List.filter_map, List.map_cons]
    congr 2
    refine List.filter_congr fun b _ => ?_
    simp [hf.eq_iff]

end EventRules
