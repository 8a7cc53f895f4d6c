import Mathlib.Data.List.Basic
import Mathlib.Data.List.Chain

/-! Names that cross. Two names cross in a list when they alternate twice; a list without crossings
is one in which, whenever a name comes for the first time, its last occurrence comes before any
earlier name comes back. -/
namespace EventRules

variable {α : Type}

/-- Two names alternate: the first, the second, the first and again the second. -/
def Crossing (names : List α) : Prop := ∃ a b, a ≠ b ∧ [a, b, a, b].Sublist names

/-- If a name comes for the first time at the place, then all its places lie before those at which
names met earlier come back. -/
def ClearAt (names : List α) (k : ℕ) : Prop :=
  ∀ q, names[k]? = some q → q ∉ names.take k → ∀ x y a, names[x]? = some q →
    names[y]? = some a → a ∈ names.take k → k ≤ y → x < y

theorem cons_sublist_drop_iff {items rest : List α} {a : α} {m : ℕ} :
    (a :: rest).Sublist (items.drop m) ↔
      ∃ i, m ≤ i ∧ items[i]? = some a ∧ rest.Sublist (items.drop (i + 1)) := by
  constructor
  · intro h
    obtain ⟨before, after, heq, ha, hrest⟩ := List.cons_sublist_iff.mp h
    obtain ⟨j, hj, rfl⟩ := List.mem_iff_getElem.mp ha
    refine ⟨m + j, by omega, ?_, ?_⟩
    · rw [← List.getElem?_drop, heq, List.getElem?_append_left hj, List.getElem?_eq_getElem hj]
    · have hafter : after = items.drop (m + before.length) := by
        rw [← List.drop_drop, heq, List.drop_left]
      rw [hafter] at hrest
      exact hrest.trans (List.drop_sublist_drop_left items (by omega))
  · rintro ⟨i, hmi, hi, hrest⟩
    obtain ⟨hlt, rfl⟩ := List.getElem?_eq_some_iff.mp hi
    have hdrop : (items[i] :: rest).Sublist (items.drop i) := by
      rw [List.drop_eq_getElem_cons hlt]
      exact hrest.cons_cons _
    exact hdrop.trans (List.drop_sublist_drop_left items hmi)

theorem crossing_iff {names : List α} : Crossing names ↔ ∃ a b, a ≠ b ∧ ∃ i j k l : ℕ, i < j ∧
    j < k ∧ k < l ∧ names[i]? = some a ∧ names[j]? = some b ∧ names[k]? = some a ∧
      names[l]? = some b := by
  refine exists_congr fun a => exists_congr fun b => and_congr_right fun _ => ?_
  have hdrop : [a, b, a, b].Sublist names ↔ [a, b, a, b].Sublist (names.drop 0) := by
    rw [List.drop_zero]
  rw [hdrop]
  simp only [cons_sublist_drop_iff, List.nil_sublist, and_true]
  constructor
  · rintro ⟨i, -, hi, j, hij, hj, k, hjk, hk, l, hkl, hl⟩
    exact ⟨i, j, k, l, hij, hjk, hkl, hi, hj, hk, hl⟩
  · rintro ⟨i, j, k, l, hij, hjk, hkl, hi, hj, hk, hl⟩
    exact ⟨i, i.zero_le, hi, j, hij, hj, k, hjk, hk, l, hkl, hl⟩

theorem crossing_cons_iff {a : α} {names : List α} (h : a ∉ names) :
    Crossing (a :: names) ↔ Crossing names := by
  refine exists_congr fun b => exists_congr fun c => and_congr_right fun _ => ?_
  rw [List.sublist_cons_iff]
  refine or_iff_left ?_
  rintro ⟨rest, heq, hrest⟩
  cases heq
  exact h (hrest.subset (by simp))

section Repetitions

variable {word : List α} (hw : word.IsChain (· ≠ ·))
include hw

/-- Where no name follows itself, repetitions of one name do not matter. -/
theorem sublist_replicate_append_iff (a : α) (k : ℕ) (rest : List α) :
    word.Sublist (List.replicate (k + 1) a ++ rest) ↔ word.Sublist (a :: rest) := by
  induction k generalizing word with
  | zero => rfl
  | succ k ih =>
    rw [List.replicate_succ, List.cons_append, List.sublist_cons_iff, ih hw]
    constructor
    · rintro (h | ⟨tail, rfl, htail⟩)
      · exact h
      · have hchain : tail.IsChain (· ≠ ·) := hw.tail
        rw [ih hchain, List.sublist_cons_iff] at htail
        rcases htail with htail | ⟨tail, rfl, -⟩
        · exact htail.cons_cons a
        · exact absurd rfl (List.isChain_cons_cons.mp hw).1
    · exact Or.inl

theorem sublist_flatMap_replicate_iff {β : Type} {items : List β} {f : β → α} {n : β → ℕ}
    (hn : ∀ b ∈ items, n b ≠ 0) (rest : List α) :
    word.Sublist ((items.flatMap fun b => List.replicate (n b) (f b)) ++ rest) ↔
      word.Sublist (items.map f ++ rest) := by
  induction items generalizing word with
  | nil => rfl
  | cons b items ih =>
    have hrest : ∀ c ∈ items, n c ≠ 0 := fun c hc => hn c (by simp [hc])
    obtain ⟨k, hk⟩ := Nat.exists_eq_succ_of_ne_zero (hn b (by simp))
    rw [List.flatMap_cons, hk, List.append_assoc, Nat.succ_eq_add_one,
      sublist_replicate_append_iff hw, List.map_cons, List.cons_append, List.sublist_cons_iff,
      List.sublist_cons_iff, ih hw hrest]
    refine or_congr_right (exists_congr fun tail => and_congr_right fun heq => ?_)
    subst heq
    exact ih hw.tail hrest

end Repetitions

theorem crossing_flatMap_replicate_iff {β : Type} {items : List β} {f : β → α} {n : β → ℕ}
    (hn : ∀ b ∈ items, n b ≠ 0) (rest : List α) :
    Crossing ((items.flatMap fun b => List.replicate (n b) (f b)) ++ rest) ↔
      Crossing (items.map f ++ rest) := by
  refine exists_congr fun a => exists_congr fun b => and_congr_right fun hab => ?_
  exact sublist_flatMap_replicate_iff (by simp [hab, hab.symm]) hn rest

section Places

variable [DecidableEq α] {names : List α} {q : α} {k : ℕ}

theorem idxOf_le_of_getElem? (h : names[k]? = some q) : names.idxOf q ≤ k := by
  obtain ⟨hlt, hk⟩ := List.getElem?_eq_some_iff.mp h
  have hmem : q ∈ names.take (k + 1) := List.mem_take_iff_getElem.mpr ⟨k, by omega, hk⟩
  rw [List.mem_take_iff_idxOf_lt (List.mem_of_getElem? h)] at hmem
  omega

theorem mem_and_idxOf_eq_iff : q ∈ names ∧ names.idxOf q = k ↔
    names[k]? = some q ∧ q ∉ names.take k := by
  constructor
  · rintro ⟨hq, rfl⟩
    exact ⟨List.getElem?_idxOf hq, (List.mem_take_iff_idxOf_lt hq).not.mpr (lt_irrefl _)⟩
  · rintro ⟨hk, hnot⟩
    have hq := List.mem_of_getElem? hk
    have hle := idxOf_le_of_getElem? hk
    rw [List.mem_take_iff_idxOf_lt hq] at hnot
    exact ⟨hq, by omega⟩

theorem forall_clearAt_iff : (∀ k, ClearAt names k) ↔ ¬ Crossing names := by
  rw [crossing_iff]
  constructor
  · rintro h ⟨a, b, hab, i, j, k, l, hij, hjk, hkl, hi, hj, hk, hl⟩
    obtain ⟨ha, hanot⟩ := mem_and_idxOf_eq_iff.mp ⟨List.mem_of_getElem? hi, rfl⟩
    obtain ⟨hb, hbnot⟩ := mem_and_idxOf_eq_iff.mp ⟨List.mem_of_getElem? hj, rfl⟩
    have hia := idxOf_le_of_getElem? hi
    have hjb := idxOf_le_of_getElem? hj
    -- the name that is met later is the one whose places reach behind the other name
    rcases lt_trichotomy (names.idxOf a) (names.idxOf b) with hlt | heq | hgt
    · have hmem := (List.mem_take_iff_idxOf_lt (List.mem_of_getElem? hi)).mpr hlt
      have := h _ b hb hbnot l k a hl hk hmem (by omega)
      omega
    · rw [heq, hb] at ha
      exact hab (Option.some.inj ha).symm
    · have hmem := (List.mem_take_iff_idxOf_lt (List.mem_of_getElem? hj)).mpr hgt
      have := h _ a ha hanot k j b hk hj hmem (by omega)
      omega
  · intro h k q hk hnot x y a hx hy ha hky
    by_contra hxy
    obtain ⟨w, hw, hwa⟩ := List.mem_take_iff_getElem.mp ha
    have hne : a ≠ q := by
      rintro rfl
      exact hnot ha
    have hky : k ≠ y := by
      rintro rfl
      exact hne (Option.some.inj (hy.symm.trans hk))
    have hyx : y ≠ x := by
      rintro rfl
      exact hne (Option.some.inj (hy.symm.trans hx))
    exact h ⟨a, q, hne, w, k, y, x, by omega, by omega, by omega,
      List.getElem?_eq_some_iff.mpr ⟨by omega, hwa⟩, hk, hy, hx⟩

end Places

end EventRules
